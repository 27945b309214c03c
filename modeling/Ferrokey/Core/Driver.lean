import Ferrokey.Core.Repeat
import Ferrokey.Core.Stream

/-! # The keyboard driver

The driver turns UI actions into key events: the engine, which is the state
machine and the repeat engine, moves first, and what it decides is then delivered
to a sink, event by event, up to the first one the sink refuses.
-/

namespace Ferrokey

open Machine

/-- The part of a key's definition that the driver reads. -/
structure KeyDefinition where
  repeatable : Bool
  deriving DecidableEq, Repr

structure Layout where
  keys : PhysicalKey → Option KeyDefinition

def Layout.isRepeatable (layout : Layout) (key : PhysicalKey) : Bool :=
  match layout.keys key with
  | some definition => definition.repeatable
  | none => !key.isModifier && !key.isLockKey

inductive KeyAction where
  | down | up | tap | releaseAll
  deriving DecidableEq, Repr

structure SinkError where
  text : String
  deriving DecidableEq, Repr

inductive DriverError where
  | state (e : StateError)
  | sink (e : SinkError)
  deriving DecidableEq, Repr

/-- The sink for key events. -/
class KeySink (σ : Type) where
  keyDown : σ → PhysicalKey → σ × Except SinkError Unit
  keyUp : σ → PhysicalKey → σ × Except SinkError Unit
  keyRepeat : σ → PhysicalKey → σ × Except SinkError Unit
  releaseAll : σ → σ × Except SinkError Unit

/-- The virtual press duration of a tap, in nanoseconds. -/
def tapGrace : ℕ := 20000000

/-- What the driver decides with: the state machine, the repeat engine and the layout. -/
structure KeyboardEngine where
  state : KeyboardState
  repeats : RepeatEngine
  layout : Layout

namespace KeyboardEngine

def new (settings : StateSettings) (repeatSettings : RepeatSettings) (layout : Layout) :
    KeyboardEngine := ⟨.new settings, .new repeatSettings, layout⟩

/-- Decide the events of one action. -/
def act (e : KeyboardEngine) (action : KeyAction) (key : PhysicalKey) (now : ℕ) :
    KeyboardEngine × Except StateError (List KeyEvent) :=
  match action with
  | .down =>
    match e.state.press key now with
    | (state, .error err) => ({ e with state := state }, .error err)
    | (state, .ok events) =>
      ({ e with
        state := state
        repeats := if state.depressed.contains key
          then e.repeats.keyDown key now (e.layout.isRepeatable key) else e.repeats }, .ok events)
  | .up =>
    let r := e.state.release key now
    ({ e with state := r.1, repeats := e.repeats.keyUp key }, r.2)
  | .tap =>
    let repeats := e.repeats.keyUp key
    match e.state.press key now with
    | (state, .error err) => ({ e with state := state, repeats := repeats }, .error err)
    | (state, .ok events) =>
      match state.release key (addDuration now tapGrace) with
      | (state, .error err) => ({ e with state := state, repeats := repeats }, .error err)
      | (state, .ok events') =>
        ({ e with state := state, repeats := repeats }, .ok (events ++ events'))
  | .releaseAll =>
    ({ e with state := e.state.releaseAll.1, repeats := e.repeats.releaseAll },
      .ok e.state.releaseAll.2)

end KeyboardEngine

/-- A call of the driver. -/
inductive DriverCall where
  | action (action : KeyAction) (key : PhysicalKey) (now : ℕ)
  | tickRepeat (now : ℕ)
  | emergencyRelease
  deriving DecidableEq, Repr

/-- What the engine decides for a call, in terms of what the sink is asked for. -/
def KeyboardEngine.step (e : KeyboardEngine) :
    DriverCall → KeyboardEngine × Except StateError (List (Stroke PhysicalKey))
  | .action action key now =>
    let r := e.act action key now
    (r.1, r.2.map fun events => events.map KeyEvent.stroke)
  | .tickRepeat now =>
    let r := e.repeats.tick now
    ({ e with repeats := r.1 }, .ok (r.2.map .again))
  | .emergencyRelease =>
    ({ e with state := e.state.releaseAll.1, repeats := e.repeats.releaseAll },
      .ok (e.state.releaseAll.2.map KeyEvent.stroke))

/-- The calls of the state machine that a call of the driver makes. -/
def DriverCall.calls : DriverCall → List Call
  | .action .down key now => [.press key now]
  | .action .up key now => [.release key now]
  | .action .tap key now => [.press key now, .release key (addDuration now tapGrace)]
  | .action .releaseAll _ _ => [.releaseAll]
  | .tickRepeat _ => []
  | .emergencyRelease => [.releaseAll]

/-- What is delivered; an error delivers nothing. -/
def strokesOf : Except StateError (List (Stroke PhysicalKey)) → List (Stroke PhysicalKey)
  | .ok strokes => strokes
  | .error _ => []

namespace KeyboardEngine

variable (e : KeyboardEngine) (c : DriverCall)

/-- The keys a call repeats. -/
def due : DriverCall → List PhysicalKey
  | .tickRepeat now => (e.repeats.tick now).2
  | _ => []

/-- A rollover error leaves the key up, so that releasing it does nothing. -/
theorem release_of_press_error {s : KeyboardState} {key : PhysicalKey} {now : ℕ}
    {s' : KeyboardState} {err : StateError} (h : s.press key now = (s', .error err)) (later : ℕ) :
    s' = s ∧ s.release key later = (s, .ok []) := by
  have hs : s' = s := by
    have hstep := KeyboardState.step_error (s := s) (c := .press key now) (e := err)
      (by rw [KeyboardState.step, h])
    rwa [KeyboardState.step, h] at hstep
  have hk : key ∉ s.depressed := by
    intro hk
    rw [KeyboardState.press, if_pos (KeySet.contains_iff.mpr hk)] at h
    cases h
  exact ⟨hs, by simp [KeyboardState.release, hk]⟩

/-- Releases are never refused. -/
theorem release_ne_error {s s' : KeyboardState} {key : PhysicalKey} {now : ℕ} {err : StateError} :
    s.release key now ≠ (s', .error err) := by
  unfold KeyboardState.release
  split <;> simp

/-- The state machine moves by the calls the driver's call makes, and their events are
delivered, or the due repeats. -/
theorem step_eq : (e.step c).1.state = run KeyboardState.step e.state c.calls ∧
    strokesOf (e.step c).2 =
      (streamOf e.state c.calls).map KeyEvent.stroke ++ (e.due c).map .again := by
  cases c with
  | emergencyRelease => simp [step, DriverCall.calls, KeyboardState.step, streamOf, outputs,
      eventsOf, strokesOf, due]
  | tickRepeat now => simp [step, DriverCall.calls, streamOf, outputs, strokesOf, due]
  | action action key now =>
    cases action with
    | releaseAll => simp [step, act, DriverCall.calls, KeyboardState.step, streamOf, outputs,
        eventsOf, strokesOf, due, Except.map]
    | up =>
      cases hr : e.state.release key now with
      | mk s' r => cases r <;> simp [step, act, DriverCall.calls, KeyboardState.step, streamOf,
          outputs, eventsOf, strokesOf, due, Except.map, hr]
    | down =>
      cases hr : e.state.press key now with
      | mk s' r => cases r <;> simp [step, act, DriverCall.calls, KeyboardState.step, streamOf,
          outputs, eventsOf, strokesOf, due, Except.map, hr]
    | tap =>
      cases hr : e.state.press key now with
      | mk s' r =>
        cases r with
        | error err =>
          obtain ⟨rfl, hrel⟩ := release_of_press_error hr (addDuration now tapGrace)
          simp [step, act, DriverCall.calls, KeyboardState.step, streamOf, outputs, eventsOf,
            strokesOf, due, Except.map, hr, hrel]
        | ok events =>
          cases hrel : s'.release key (addDuration now tapGrace) with
          | mk s'' r' =>
            cases r' with
            | error err => exact absurd hrel release_ne_error
            | ok events' => simp [step, act, DriverCall.calls, KeyboardState.step, streamOf,
                outputs, eventsOf, strokesOf, due, Except.map, hr, hrel]

/-- The state that a call releases a key in, with the key; a tap presses it first. -/
def releaseStart : DriverCall → Option (KeyboardState × PhysicalKey)
  | .action .up key _ => some (e.state, key)
  | .action .tap key now => some ((e.state.press key now).1, key)
  | _ => none

theorem press_events (s : KeyboardState) (key : PhysicalKey) (now : ℕ) :
    ∃ downs : List PhysicalKey, eventsOf (s.press key now).2 = downs.map .down := by
  have he := KeyboardState.press_effect s key now
  generalize (s.press key now).1 = s' at he
  generalize eventsOf (s.press key now).2 = events at he ⊢
  cases he with
  | quiet => exact ⟨[], rfl⟩
  | press => exact ⟨_, rfl⟩

/-- A cascade lets each of its keys that are down go once. -/
theorem releaseInjected_events (d : KeySet) (keys : List PhysicalKey) :
    ∃ ups : List PhysicalKey, (KeyboardState.releaseInjected d keys).2 = ups.map .up ∧
      ups.Nodup ∧ ∀ key, key ∈ ups ↔ key ∈ d ∧ key ∈ keys := by
  suffices h : ∃ ups : List PhysicalKey,
      (KeyboardState.releaseInjected d keys).2 = ups.map .up ∧ ups.Nodup by
    obtain ⟨ups, hups, hn⟩ := h
    refine ⟨ups, hups, hn, fun key => ?_⟩
    rw [← KeyboardState.up_mem_releaseInjected, hups]
    simp
  induction keys generalizing d with
  | nil => exact ⟨[], rfl, .nil⟩
  | cons key keys ih =>
    obtain ⟨ups, h, hn⟩ := ih (d.remove key).1
    have hkey : key ∉ ups := by
      intro hm
      have hup : .up key ∈ (KeyboardState.releaseInjected (d.remove key).1 keys).2 := by
        rw [h]
        exact List.mem_map_of_mem hm
      exact (KeySet.mem_remove.mp (KeyboardState.up_mem_releaseInjected _ _ |>.mp hup).1).1 rfl
    rw [KeyboardState.releaseInjected]
    dsimp only
    split
    · exact ⟨key :: ups, by rw [h]; rfl, hn.cons hkey⟩
    · exact ⟨ups, h, hn⟩

theorem release_events (s : KeyboardState) (key : PhysicalKey) (now : ℕ) :
    ∃ ups : List PhysicalKey, eventsOf (s.release key now).2 = ups.map .up ∧ ups.Nodup ∧
      ∀ mod, mod ∈ ups ↔ key ∈ s.depressed ∧ mod ∈ s.depressed ∧ mod ∈ s.releases key := by
  have he := KeyboardState.release_effect s key now
  generalize (s.release key now).1 = s' at he
  generalize eventsOf (s.release key now).2 = events at he ⊢
  cases he with
  | quiet _ hr =>
    have hk : key ∉ s.depressed := hr key now rfl
    exact ⟨[], rfl, .nil, fun mod => by simp [hk]⟩
  | release hk =>
    obtain ⟨ups, h, hn, hm⟩ := releaseInjected_events s.depressed (s.releases key)
    exact ⟨ups, h, hn, fun mod => by simp [hm, hk]⟩

theorem releaseAll_events (s : KeyboardState) :
    ∃ ups : List PhysicalKey, s.releaseAll.2 = ups.map .up ∧ ups.Nodup ∧
      ∀ key, key ∈ ups ↔ key ∈ s.depressed := by
  have he := KeyboardState.releaseAll_effect s
  generalize s.releaseAll.1 = s' at he
  generalize s.releaseAll.2 = events at he ⊢
  cases he with
  | quiet _ _ h => exact absurd rfl h
  | releaseAll hn hm => exact ⟨_, rfl, hn, hm⟩

/-- The keys that a call lets go. -/
def Releases (key : PhysicalKey) : Prop :=
  match c with
  | .action .releaseAll _ _ | .emergencyRelease => key ∈ e.state.depressed
  | _ => ∃ s released, e.releaseStart c = some (s, released) ∧ released ∈ s.depressed ∧
      key ∈ s.depressed ∧ key ∈ s.releases released

/-- Within one call the presses come before the releases, and no key is released twice. -/
theorem strokes_eq : ∃ downs ups agains : List PhysicalKey, strokesOf (e.step c).2 =
    downs.map .down ++ ups.map .up ++ agains.map .again ∧ ups.Nodup ∧
      ∀ key, key ∈ ups ↔ e.Releases c key := by
  rw [(step_eq e c).2]
  suffices h : ∃ downs ups : List PhysicalKey,
      streamOf e.state c.calls = downs.map .down ++ ups.map .up ∧ ups.Nodup ∧
        ∀ key, key ∈ ups ↔ e.Releases c key by
    obtain ⟨downs, ups, h, hups⟩ := h
    refine ⟨downs, ups, e.due c, ?_, hups⟩
    rw [h, List.map_append, KeyboardState.map_down_stroke, KeyboardState.map_up_stroke]
  have hone : ∀ c', streamOf e.state [c'] = eventsOf (e.state.step c').2 :=
    fun c' => List.append_nil _
  match c with
  | .action .down key now =>
    obtain ⟨downs, h⟩ := press_events e.state key now
    exact ⟨downs, [], (hone _).trans (h.trans (List.append_nil _).symm), .nil,
      by simp [Releases, releaseStart]⟩
  | .action .up key now =>
    obtain ⟨ups, h, hn, hm⟩ := release_events e.state key now
    exact ⟨[], ups, (hone _).trans h, hn, fun mod => (hm mod).trans
      (by simp [Releases, releaseStart])⟩
  | .action .tap key now =>
    obtain ⟨downs, h⟩ := press_events e.state key now
    obtain ⟨ups, h', hn, hm⟩ :=
      release_events (e.state.press key now).1 key (addDuration now tapGrace)
    refine ⟨downs, ups, ?_, hn, fun mod => (hm mod).trans (by simp [Releases, releaseStart])⟩
    rw [← h, ← h']
    exact congrArg _ (List.append_nil _)
  | .action .releaseAll _ _ =>
    obtain ⟨ups, h, hn, hm⟩ := releaseAll_events e.state
    exact ⟨[], ups, (hone _).trans h, hn, hm⟩
  | .tickRepeat _ => exact ⟨[], [], rfl, .nil, by simp [Releases, releaseStart]⟩
  | .emergencyRelease =>
    obtain ⟨ups, h, hn, hm⟩ := releaseAll_events e.state
    exact ⟨[], ups, (hone _).trans h, hn, hm⟩

/-- A call leaves none of the keys down that it releases. -/
theorem not_mem_leaves_of_up {held : Set PhysicalKey} {key : PhysicalKey}
    (h : .up key ∈ strokesOf (e.step c).2) : key ∉ leaves held (strokesOf (e.step c).2) := by
  obtain ⟨downs, ups, agains, hs, -⟩ := strokes_eq e c
  rw [hs] at h ⊢
  have hup : key ∈ ups := by simpa using h
  rw [leaves_append, leaves_append, leaves_agains]
  exact not_mem_leaves_ups (Or.inr hup)

/-- The call has room in the table of held keys for what it presses. -/
def HasRoom : Prop := Steps KeyboardState.step KeyboardState.HasRoom e.state c.calls

/-- What is delivered leads from the depressed keys before the call to those after it, as
long as they have room. -/
theorem leaves_step (h : e.HasRoom c) :
    leaves e.state.depressed.toSet (strokesOf (e.step c).2) =
      (e.step c).1.state.depressed.toSet := by
  obtain ⟨hstate, hstrokes⟩ := step_eq e c
  rw [hstate, hstrokes, leaves_append, leaves_agains]
  exact (KeyboardState.leads_of_run h).2

end KeyboardEngine

section Delivery

variable {σ : Type} [KeySink σ]

def KeySink.take (sink : σ) : Stroke PhysicalKey → σ × Except SinkError Unit
  | .down key => keyDown sink key
  | .up key => keyUp sink key
  | .again key => keyRepeat sink key

/-- Hand the events to the sink one by one; the first refusal ends the delivery. -/
def deliver (sink : σ) : List (Stroke PhysicalKey) → σ × Except SinkError Unit
  | [] => (sink, .ok ())
  | stroke :: strokes =>
    match KeySink.take sink stroke with
    | (sink, .ok ()) => deliver sink strokes
    | (sink, .error e) => (sink, .error e)

end Delivery

/-- A sink that takes everything and keeps what it was given. -/
structure Recorder where
  events : List (Stroke PhysicalKey)
  deriving DecidableEq, Repr

instance recorderSink : KeySink Recorder where
  keyDown sink key := (⟨sink.events ++ [.down key]⟩, .ok ())
  keyUp sink key := (⟨sink.events ++ [.up key]⟩, .ok ())
  keyRepeat sink key := (⟨sink.events ++ [.again key]⟩, .ok ())
  releaseAll sink := (sink, .ok ())

structure KeyboardDriver (σ : Type) extends KeyboardEngine where
  sink : σ

namespace KeyboardDriver

variable {σ : Type} [KeySink σ]

def new (settings : StateSettings) (repeatSettings : RepeatSettings) (layout : Layout) (sink : σ) :
    KeyboardDriver σ := ⟨.new settings repeatSettings layout, sink⟩

/-- Carry out one call: the engine decides and the sink is told. -/
def step (d : KeyboardDriver σ) (c : DriverCall) : KeyboardDriver σ × Except DriverError Unit :=
  match d.toKeyboardEngine.step c with
  | (engine, .error e) => (⟨engine, d.sink⟩, .error (.state e))
  | (engine, .ok strokes) =>
    let r := deliver d.sink strokes
    (⟨engine, r.1⟩, r.2.mapError .sink)

@[simp] theorem step_engine (d : KeyboardDriver σ) (c : DriverCall) :
    (d.step c).1.toKeyboardEngine = (d.toKeyboardEngine.step c).1 := by
  unfold step
  split <;> simp_all

/-- The sink is given what the engine decides. -/
@[simp] theorem step_sink (d : KeyboardDriver σ) (c : DriverCall) :
    (d.step c).1.sink = (deliver d.sink (strokesOf (d.toKeyboardEngine.step c).2)).1 := by
  unfold step
  split <;> simp_all [strokesOf, deliver]

/-- In a run the state machine moves by the calls that the driver's calls make. -/
theorem run_state (d : KeyboardDriver σ) (calls : List DriverCall) : (run step d calls).state =
    run KeyboardState.step d.state (calls.flatMap DriverCall.calls) := by
  induction calls generalizing d with
  | nil => rfl
  | cons c calls ih =>
    rw [run_cons, ih, step_engine, (KeyboardEngine.step_eq _ c).1, List.flatMap_cons, run_append]

theorem run_settings (d : KeyboardDriver σ) (calls : List DriverCall) :
    (run step d calls).state.settings = d.state.settings := by
  rw [run_state, KeyboardState.run_settings]

/-- With room for six injected modifiers above the cap, every call has room. -/
theorem steps_hasRoom {d : KeyboardDriver σ}
    (h : d.state.settings.maxHeldKeys + ModifierKind.count ≤ maxHeldKeys)
    (calls : List DriverCall) : Steps step (fun d c => d.HasRoom c) d calls := by
  intro pre c _
  exact KeyboardState.steps_hasRoom (by rwa [run_settings]) c.calls

def handleAction (d : KeyboardDriver σ) (action : KeyAction) (key : PhysicalKey) (now : ℕ) :
    KeyboardDriver σ × Except DriverError Unit := d.step (.action action key now)

def tickRepeat (d : KeyboardDriver σ) (now : ℕ) : KeyboardDriver σ × Except DriverError Unit :=
  d.step (.tickRepeat now)

def emergencyRelease (d : KeyboardDriver σ) : KeyboardDriver σ × Except DriverError Unit :=
  d.step .emergencyRelease

end KeyboardDriver

end Ferrokey
