import Ferrokey.Core.Driver

/-! # Sinks that fail

The engine has moved before its events are delivered, and the first refusal ends
the delivery. A key is down at the sink from a press that the sink took until a
release is attempted. As long as a refusal cuts off no release of a key that is
down at the sink, every such key stays depressed, so that it will be released.
-/

namespace Ferrokey

open Machine

/-- A sink and the keys that are down at it. -/
structure Watched (σ : Type) where
  sink : σ
  down : List PhysicalKey

def Watched.fresh {σ : Type} (sink : σ) : Watched σ := ⟨sink, []⟩

section

variable {σ : Type} [KeySink σ]

instance watchedSink : KeySink (Watched σ) where
  keyDown w key :=
    let r := KeySink.keyDown w.sink key
    (⟨r.1, match r.2 with
      | .ok () => key :: w.down
      | .error _ => w.down⟩, r.2)
  keyUp w key :=
    let r := KeySink.keyUp w.sink key
    (⟨r.1, w.down.filter (· ≠ key)⟩, r.2)
  keyRepeat w key :=
    let r := KeySink.keyRepeat w.sink key
    (⟨r.1, w.down⟩, r.2)
  releaseAll w :=
    let r := KeySink.releaseAll w.sink
    (⟨r.1, []⟩, r.2)

/-- The events that a refusal cuts off. -/
def undelivered (sink : σ) : List (Stroke PhysicalKey) → List (Stroke PhysicalKey)
  | [] => []
  | stroke :: strokes =>
    match KeySink.take sink stroke with
    | (sink, .ok ()) => undelivered sink strokes
    | (_, .error _) => strokes

namespace Watched

variable {w : Watched σ} {held : Set PhysicalKey}

/-- Taken or refused, an event puts down at the sink no more than it does by itself. -/
theorem take_down (h : ∀ key ∈ w.down, key ∈ held) (stroke : Stroke PhysicalKey) :
    ∀ key ∈ (KeySink.take w stroke).1.down, key ∈ stroke.after held := by
  intro key hk
  cases stroke with
  | down key' =>
    simp only [KeySink.take, KeySink.keyDown] at hk
    split at hk
    · rcases List.mem_cons.mp hk with rfl | hk
      · exact Set.mem_insert key held
      · exact Or.inr (h key hk)
    · exact Or.inr (h key hk)
  | up key' =>
    obtain ⟨hm, hne⟩ := List.mem_filter.mp hk
    exact ⟨h key hm, of_decide_eq_true hne⟩
  | again key' => exact h key hk

/-- If no release of a key that is down at the sink is cut off, the keys that are down at
the sink are among those the events leave down. -/
theorem deliver_down {strokes : List (Stroke PhysicalKey)} (h : ∀ key ∈ w.down, key ∈ held)
    (hc : ∀ key ∈ (deliver w strokes).1.down, .up key ∉ undelivered w strokes) :
    ∀ key ∈ (deliver w strokes).1.down, key ∈ leaves held strokes := by
  induction strokes generalizing w held with
  | nil => exact h
  | cons stroke strokes ih =>
    have hstep := take_down h stroke
    rw [leaves_cons]
    cases ht : KeySink.take w stroke with
    | mk w' result =>
      rw [ht] at hstep
      cases result with
      | ok u =>
        simp only [deliver, undelivered, ht] at hc ⊢
        exact ih hstep hc
      | error e =>
        simp only [deliver, undelivered, ht] at hc ⊢
        intro key hk
        exact mem_leaves (hstep key hk) (hc key hk)

end Watched

theorem undelivered_suffix (sink : σ) (strokes : List (Stroke PhysicalKey)) :
    undelivered sink strokes <:+ strokes := by
  induction strokes generalizing sink with
  | nil => exact List.suffix_rfl
  | cons stroke strokes ih =>
    unfold undelivered
    split
    · exact (ih _).trans (List.suffix_cons _ _)
    · exact List.suffix_cons _ _

namespace KeyboardDriver

variable {d : KeyboardDriver (Watched σ)} {c : DriverCall}

/-- Every key that is down at the sink is depressed. -/
def CoversSink (d : KeyboardDriver (Watched σ)) : Prop :=
  ∀ key ∈ d.sink.down, key ∈ d.state.depressed

/-- When the sink refuses an event of the call, none of the events after it would release a
key that is down at the sink. -/
def CutsNoRelease (d : KeyboardDriver (Watched σ)) (c : DriverCall) : Prop :=
  let strokes := strokesOf (d.toKeyboardEngine.step c).2
  ∀ key, .up key ∈ undelivered d.sink strokes → key ∉ (deliver d.sink strokes).1.down

theorem CoversSink.step (h : d.CoversSink) (hr : d.HasRoom c) (hc : d.CutsNoRelease c) :
    (d.step c).1.CoversSink := by
  intro key hk
  rw [step_sink] at hk
  have hdep : ∀ key ∈ d.sink.down, key ∈ d.state.depressed.toSet := h
  have hleaves := Watched.deliver_down hdep (fun key hk hu => hc key hu hk) key hk
  rw [KeyboardEngine.leaves_step _ _ hr] at hleaves
  rw [step_engine]
  exact hleaves

/-- A key whose release is cut off is not depressed any more. -/
theorem cutsNoRelease_of_step (hr : d.HasRoom c) (hp : (d.step c).1.CoversSink) :
    d.CutsNoRelease c := by
  intro key hu hk
  have hdep := hp key (by rwa [step_sink])
  rw [step_engine, ← KeySet.mem_toSet, ← KeyboardEngine.leaves_step _ _ hr] at hdep
  exact KeyboardEngine.not_mem_leaves_of_up _ _ ((undelivered_suffix _ _).subset hu) hdep

/-- As long as the calls have room, every key that is down at the sink is depressed
throughout a run exactly when no refusal of the run cuts off the release of a key that is
down at the sink. -/
theorem always_coversSink_iff {settings : StateSettings} {repeatSettings : RepeatSettings}
    {layout : Layout} {sink : σ} {calls : List DriverCall}
    (hr : Steps step (fun d c => d.HasRoom c)
      (new settings repeatSettings layout (Watched.fresh sink)) calls) :
    Always step CoversSink (new settings repeatSettings layout (.fresh sink)) calls ↔
      Steps step CutsNoRelease (new settings repeatSettings layout (.fresh sink)) calls := by
  apply always_iff_steps_within CoversSink
  · exact fun key hk => absurd hk List.not_mem_nil
  · exact fun d h => h
  · exact fun d c h hr hc => h.step hr hc
  · exact fun d c _ hr hc hp => hc (cutsNoRelease_of_step hr hp)
  · exact hr

end KeyboardDriver

end

/-- A sink that answers its calls from a list, and takes everything after that. -/
structure Scripted where
  answers : List (Except SinkError Unit)

def Scripted.answer (sink : Scripted) : Scripted × Except SinkError Unit :=
  (⟨sink.answers.tail⟩, sink.answers.head?.getD (.ok ()))

instance scriptedSink : KeySink Scripted where
  keyDown sink _ := sink.answer
  keyUp sink _ := sink.answer
  keyRepeat sink _ := sink.answer
  releaseAll sink := sink.answer

namespace KeyboardDriver

/-- A driver with the default settings over a sink that refuses its fifth call. -/
def refusingFifth : KeyboardDriver (Watched Scripted) :=
  .new ⟨true, 400000000, 16⟩ ⟨true, 500000000, 30000000⟩ ⟨fun _ => none⟩
    (.fresh ⟨[.ok (), .ok (), .ok (), .ok (), .error ⟨"pending terminal input buffer full"⟩]⟩)

theorem fifthPress_coversSink_iff :
    let calls : List DriverCall := [.action .tap .a 0, .action .tap .b 100, .action .down .c 200]
    Steps step (fun d c => d.HasRoom c) refusingFifth calls ∧
      (Always step CoversSink refusingFifth calls ↔ Steps step CutsNoRelease refusingFifth calls) :=
  have hr := steps_hasRoom (d := refusingFifth) (by decide) _
  ⟨hr, always_coversSink_iff hr⟩

/-- A latched shift is injected for a letter; when the letter's release is refused, that of
shift is never attempted. -/
theorem refusedRelease_strands_shift :
    ¬ Always step CoversSink refusingFifth
      [.action .tap .leftShift 0, .action .down .a 200, .action .up .a 300] :=
  fun h => absurd (h _ List.prefix_rfl .leftShift (by decide)) (by decide)

end KeyboardDriver

end Ferrokey
