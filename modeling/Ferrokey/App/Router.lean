import Ferrokey.Core.CapsLock
import Ferrokey.Terminal.Mirror
import Mathlib.Algebra.Group.Nat.Even

/-! # Routing the key events

The driver's sink is a router to one of two destinations: the system, through the
daemon, or the terminal. The terminal sink infers Caps Lock from the releases it
sees, so it drifts from the state machine when a toggle goes to the system, and
when the Caps Lock key is let go with everything else. Two drifts make up for each
other.
-/

namespace Ferrokey.App

open Machine Terminal

/-- Which destination owns keyboard actions. -/
inductive Destination where
  | system | terminal
  deriving DecidableEq, Repr

/-- A sink that routes to exactly one destination at a time. -/
structure InputRouter (κ τ : Type) where
  active : Destination
  system : Option κ
  terminal : Option τ

namespace InputRouter

variable {κ τ : Type}

def setActive (r : InputRouter κ τ) (dest : Destination) : InputRouter κ τ :=
  { r with active := dest }

/-- Ask the active destination; one that is not there takes everything. -/
def forward (r : InputRouter κ τ) (toSystem : κ → κ × Except SinkError Unit)
    (toTerminal : τ → τ × Except SinkError Unit) : InputRouter κ τ × Except SinkError Unit :=
  match r.active with
  | .system =>
    match r.system with
    | some link => ({ r with system := some (toSystem link).1 }, (toSystem link).2)
    | none => (r, .ok ())
  | .terminal =>
    match r.terminal with
    | some sink => ({ r with terminal := some (toTerminal sink).1 }, (toTerminal sink).2)
    | none => (r, .ok ())

variable [KeySink κ] [KeySink τ]

instance routerSink : KeySink (InputRouter κ τ) where
  keyDown r key := r.forward (KeySink.keyDown · key) (KeySink.keyDown · key)
  keyUp r key := r.forward (KeySink.keyUp · key) (KeySink.keyUp · key)
  keyRepeat r key := r.forward (KeySink.keyRepeat · key) (KeySink.keyRepeat · key)
  releaseAll r := r.forward KeySink.releaseAll KeySink.releaseAll

theorem take_eq (r : InputRouter κ τ) (stroke : Stroke PhysicalKey) :
    KeySink.take r stroke = r.forward (KeySink.take · stroke) (KeySink.take · stroke) := by
  cases stroke <;> rfl

/-- While the system is active, nothing reaches the terminal. -/
theorem deliver_system {r : InputRouter κ τ} (h : r.active = .system)
    (strokes : List (Stroke PhysicalKey)) :
    (deliver r strokes).1.active = .system ∧ (deliver r strokes).1.terminal = r.terminal := by
  induction strokes generalizing r with
  | nil => exact ⟨h, rfl⟩
  | cons stroke strokes ih =>
    have hstep : (KeySink.take r stroke).1.active = .system ∧
        (KeySink.take r stroke).1.terminal = r.terminal := by
      rw [take_eq, forward, h]
      cases r.system with
      | some link => exact ⟨rfl, rfl⟩
      | none => exact ⟨h, rfl⟩
    rw [deliver]
    cases ht : KeySink.take r stroke with
    | mk r' result =>
      rw [ht] at hstep
      obtain ⟨hactive, hterminal⟩ := hstep
      cases result with
      | ok u =>
        obtain ⟨hactive', hterminal'⟩ := ih hactive
        exact ⟨hactive', hterminal'.trans hterminal⟩
      | error e => exact ⟨hactive, hterminal⟩

/-- While the terminal is active, it is given all the events. -/
theorem deliver_terminal {r : InputRouter κ τ} {sink : τ} (h : r.active = .terminal)
    (hs : r.terminal = some sink) (strokes : List (Stroke PhysicalKey)) :
    (deliver r strokes).1.active = .terminal ∧
      (deliver r strokes).1.terminal = some (deliver sink strokes).1 := by
  induction strokes generalizing r sink with
  | nil => exact ⟨h, hs⟩
  | cons stroke strokes ih =>
    have hstep : KeySink.take r stroke =
        ({ r with terminal := some (KeySink.take sink stroke).1 }, (KeySink.take sink stroke).2) := by
      rw [take_eq, forward, h, hs]
    rw [deliver, deliver, hstep]
    cases KeySink.take sink stroke with
    | mk sink' result =>
      cases result with
      | ok u => exact ih h rfl
      | error e => exact ⟨h, rfl⟩

end InputRouter

/-- A call of the driver, or a switch of the destination. -/
inductive RouterCall where
  | driver (c : DriverCall)
  | switchTo (dest : Destination)
  deriving DecidableEq, Repr

section Run

variable {κ τ : Type} [KeySink κ] [KeySink τ]

/-- Switch the destination: everything is released on the old one first. -/
def switchDestination (d : KeyboardDriver (InputRouter κ τ)) (dest : Destination) :
    KeyboardDriver (InputRouter κ τ) × Except DriverError Unit :=
  let r := d.emergencyRelease
  ({ r.1 with sink := r.1.sink.setActive dest }, r.2)

def routerStep (d : KeyboardDriver (InputRouter κ τ)) :
    RouterCall → KeyboardDriver (InputRouter κ τ) × Except DriverError Unit
  | .driver c => d.step c
  | .switchTo dest => switchDestination d dest

/-- The call of the driver that is made. -/
def RouterCall.driverCall : RouterCall → DriverCall
  | .driver c => c
  | .switchTo _ => .emergencyRelease

@[simp] theorem routerStep_engine (d : KeyboardDriver (InputRouter κ τ)) (c : RouterCall) :
    (routerStep d c).1.toKeyboardEngine = (d.toKeyboardEngine.step c.driverCall).1 := by
  cases c <;> exact KeyboardDriver.step_engine _ _

theorem routerStep_terminal (d : KeyboardDriver (InputRouter κ τ)) (c : RouterCall) :
    (routerStep d c).1.sink.terminal =
      (deliver d.sink (strokesOf (d.toKeyboardEngine.step c.driverCall).2)).1.terminal := by
  cases c with
  | driver c => exact congrArg _ (KeyboardDriver.step_sink d c)
  | switchTo dest =>
    have hsink := congrArg InputRouter.terminal (KeyboardDriver.step_sink d .emergencyRelease)
    exact hsink

end Run

section CapsLock

/-- A release toggles the sink's Caps Lock at every release of its key. -/
theorem foldl_capsAfter (downs ups agains : List PhysicalKey) (hn : ups.Nodup) (caps : Bool) :
    (downs.map Stroke.down ++ ups.map Stroke.up ++ agains.map Stroke.again).foldl capsAfter caps =
      (caps ^^ decide (.capsLock ∈ ups)) := by
  have hdowns : ∀ caps, (downs.map Stroke.down).foldl capsAfter caps = caps := by
    intro caps
    induction downs with
    | nil => rfl
    | cons key keys ih => exact ih
  have hagains : ∀ caps, (agains.map Stroke.again).foldl capsAfter caps = caps := by
    intro caps
    induction agains with
    | nil => rfl
    | cons key keys ih => exact ih
  rw [List.foldl_append, List.foldl_append, hdowns, hagains]
  induction ups generalizing caps with
  | nil => simp
  | cons key keys ih =>
    obtain ⟨hkey, hkeys⟩ := List.nodup_cons.mp hn
    rw [List.map_cons, List.foldl_cons, ih hkeys]
    by_cases hc : key = .capsLock
    · subst hc
      simp [capsAfter, hkey]
    · have hcaps : capsAfter caps (.up key) = caps := by
        cases key <;> first | rfl | exact absurd rfl hc
      simp [hcaps, Ne.symm hc]

variable {κ μ τ : Type} [KeySink κ] [TerminalInputSink τ]

/-- The terminal sink's Caps Lock agrees with the state machine whenever the terminal is
active. -/
def Lockstep (d : KeyboardDriver (InputRouter κ (TerminalKeySink μ τ))) : Prop :=
  d.sink.active = .terminal → ∀ t ∈ d.sink.terminal, t.capsLock = d.state.capsLock

/-- The call moves the terminal's Caps Lock and the state machine's apart, or together
again: a toggle that goes to the system, or a release of everything at the terminal. -/
def slips (d : KeyboardDriver (InputRouter κ (TerminalKeySink μ τ))) (c : RouterCall) : Bool :=
  match d.sink.active with
  | .system => d.togglesCaps c.driverCall
  | .terminal => d.dropsCaps c.driverCall

/-- The terminal sink is off by the parity of the slips so far. -/
structure Drifts (d : KeyboardDriver (InputRouter κ (TerminalKeySink μ τ))) (drift : Bool) :
    Prop where
  injects : d.state.InjectsModifiers
  terminal : ∃ t, d.sink.terminal = some t ∧ t.capsLock = (d.state.capsLock ^^ drift)

theorem Drifts.step (hsink : NeverFails τ) {d : KeyboardDriver (InputRouter κ (TerminalKeySink μ τ))}
    {drift : Bool} (h : Drifts d drift) (c : RouterCall) :
    Drifts (routerStep d c).1 (drift ^^ slips d c) := by
  obtain ⟨t, ht, hcaps⟩ := h.terminal
  refine ⟨?_, ?_⟩
  · rw [routerStep_engine]
    exact KeyboardEngine.step_injectsModifiers _ _ h.injects
  rw [routerStep_terminal, routerStep_engine, KeyboardEngine.step_capsLock]
  unfold slips
  cases ha : d.sink.active with
  | system =>
    refine ⟨t, (InputRouter.deliver_system ha _).2.trans ht, ?_⟩
    rw [hcaps]
    cases d.state.capsLock <;> cases drift <;> cases d.togglesCaps c.driverCall <;> rfl
  | terminal =>
    refine ⟨_, (InputRouter.deliver_terminal ha ht _).2, ?_⟩
    obtain ⟨downs, ups, agains, hs, hn, hups⟩ :=
      KeyboardEngine.strokes_eq d.toKeyboardEngine c.driverCall
    have hcapsUp : decide (.capsLock ∈ ups) =
        (d.togglesCaps c.driverCall ^^ d.dropsCaps c.driverCall) := by
      rw [Bool.eq_iff_iff, decide_eq_true_iff, hups]
      exact KeyboardEngine.releases_capsLock_iff _ _ h.injects
    rw [(deliver_eq hsink _ _).2.2, hs, foldl_capsAfter downs ups agains hn, hcapsUp, hcaps]
    cases d.state.capsLock <;> cases drift <;> cases d.togglesCaps c.driverCall <;>
      cases d.dropsCaps c.driverCall <;> rfl

theorem Drifts.run (hsink : NeverFails τ)
    {d : KeyboardDriver (InputRouter κ (TerminalKeySink μ τ))} (h : Drifts d false)
    (calls : List RouterCall) :
    Drifts (run routerStep d calls) (decide ¬ Even (tally routerStep slips d calls)) := by
  induction calls using List.reverseRecOn with
  | nil => simpa [tally] using h
  | append_singleton calls c ih =>
    rw [run_append, tally_concat]
    have hstep := ih.step hsink c
    have hparity : (decide (¬ Even (tally routerStep slips d calls)) ^^
        slips (Machine.run routerStep d calls) c) = decide (¬ Even (tally routerStep slips d calls +
          (slips (Machine.run routerStep d calls) c).toNat)) := by
      cases slips (Machine.run routerStep d calls) c with
      | false => exact Bool.xor_false _
      | true => simp only [Bool.toNat_true, Nat.even_add_one, Bool.xor_true, decide_not]
    rwa [← hparity]

omit [KeySink κ] [TerminalInputSink τ] in
theorem Drifts.lockstep_iff {d : KeyboardDriver (InputRouter κ (TerminalKeySink μ τ))} {drift : Bool}
    (h : Drifts d drift) : Lockstep d ↔ (d.sink.active = .terminal → drift = false) := by
  obtain ⟨t, ht, hcaps⟩ := h.terminal
  apply imp_congr_right
  intro _
  constructor
  · intro hall
    rw [hall t ht] at hcaps
    exact Bool.xor_right_inj.mp (hcaps.symm.trans (Bool.xor_false _).symm)
  · rintro rfl t' ht'
    obtain rfl : t = t' := Option.some.inj (ht.symm.trans ht')
    simpa using hcaps

/-- With an input sink that never fails, Caps Lock is in lockstep throughout a run exactly
when there have been an even number of slips whenever the terminal is active. -/
theorem always_lockstep_iff (hsink : NeverFails τ) (settings : StateSettings)
    (repeatSettings : RepeatSettings) (layout : Layout) (dest : Destination) (system : Option κ)
    (encoder : TerminalKeyEncoder μ) (modes : μ) (input : τ) (calls : List RouterCall) :
    let d := KeyboardDriver.new settings repeatSettings layout
      ⟨dest, system, some (TerminalKeySink.new encoder modes input)⟩
    Always routerStep Lockstep d calls ↔ ∀ pre, pre <+: calls →
      (run routerStep d pre).sink.active = .terminal → Even (tally routerStep slips d pre) := by
  intro d
  have hnew : Drifts d false :=
    ⟨KeyboardState.injectsModifiers_new settings, _, rfl, (Bool.xor_false _).symm⟩
  apply forall_congr'
  intro pre
  apply imp_congr_right
  intro _
  rw [(hnew.run hsink pre).lockstep_iff, decide_eq_false_iff_not, not_not]

end CapsLock

/-- A driver over both destinations, with the terminal active and the default settings. -/
def bothDestinations : KeyboardDriver (InputRouter Recorder (TerminalKeySink Unit Transcript)) :=
  .new ⟨true, 400000000, 16⟩ ⟨true, 500000000, 30000000⟩ ⟨fun _ => none⟩
    ⟨.terminal, some ⟨[]⟩, some (.new ⟨fun _ _ _ => none⟩ () ⟨[]⟩)⟩

theorem capsTap_lockstep_iff :
    let calls : List RouterCall := [.driver (.action .tap .capsLock 0), .switchTo .system]
    NeverFails Transcript ∧ (Always routerStep Lockstep bothDestinations calls ↔
      ∀ pre, pre <+: calls → (run routerStep bothDestinations pre).sink.active = .terminal →
        Even (tally routerStep slips bothDestinations pre)) :=
  ⟨transcript_neverFails, always_lockstep_iff transcript_neverFails _ _ _ _ _ _ _ _ _⟩

/-- Caps Lock is tapped while the system is active; back at the terminal, the sink has it
off. -/
theorem systemTap_not_lockstep :
    NeverFails Transcript ∧ ¬ Always routerStep Lockstep bothDestinations
      [.switchTo .system, .driver (.action .tap .capsLock 0), .switchTo .terminal] :=
  ⟨transcript_neverFails, fun h => absurd (h _ List.prefix_rfl rfl _ rfl) (by decide)⟩

end Ferrokey.App
