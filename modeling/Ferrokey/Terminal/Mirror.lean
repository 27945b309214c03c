import Ferrokey.Terminal.Sink

/-! # The mirror of the held modifiers

Two physical keys can stand for one kind of modifier, while the terminal sink
keeps a single bit for it. The sink's held modifiers are those of the state
machine as long as no release leaves another key of a released kind down, and no
modifier is repeated whose kind is not held.
-/

namespace Ferrokey.Terminal

open Machine

/-- Whether one of the keys is a modifier of the kind. -/
def kindIn (keys : List PhysicalKey) (kind : ModifierKind) : Bool :=
  keys.any fun key => key.modifierKind == some kind

theorem kindIn_iff {keys : List PhysicalKey} {kind : ModifierKind} :
    kindIn keys kind = true ↔ ∃ key ∈ keys, key.modifierKind = some kind := by
  simp [kindIn, List.any_eq_true]

section Folds

variable (p : ModifierKind → Bool) (keys : List PhysicalKey)

theorem modsAfter_down (key : PhysicalKey) :
    modsAfter (.ofKinds p) (.down key) = .ofKinds fun kind => p kind || kindIn [key] kind := by
  cases hk : key.modifierKind with
  | none => simp [modsAfter, kindIn, hk]
  | some kind =>
    simp only [modsAfter, hk, ModifierSet.insert_ofKinds]
    exact congrArg _ (funext fun k => by simp [kindIn, hk, Bool.beq_eq_decide_eq, eq_comm])

theorem modsAfter_up (key : PhysicalKey) :
    modsAfter (.ofKinds p) (.up key) = .ofKinds fun kind => p kind && !kindIn [key] kind := by
  cases hk : key.modifierKind with
  | none => simp [modsAfter, kindIn, hk]
  | some kind =>
    simp only [modsAfter, hk, ModifierSet.remove_ofKinds]
    exact congrArg _ (funext fun k => by
      simp [kindIn, hk, Bool.beq_eq_decide_eq, bne, eq_comm])

theorem foldl_downs : (keys.map Stroke.down).foldl modsAfter (.ofKinds p) =
    .ofKinds fun kind => p kind || kindIn keys kind := by
  induction keys generalizing p with
  | nil => simp [kindIn]
  | cons key keys ih =>
    rw [List.map_cons, List.foldl_cons, modsAfter_down, ih]
    simp [kindIn, Bool.or_assoc]

theorem foldl_agains : (keys.map Stroke.again).foldl modsAfter (.ofKinds p) =
    .ofKinds fun kind => p kind || kindIn keys kind := by
  rw [← foldl_downs, List.foldl_map, List.foldl_map]
  rfl

theorem foldl_ups : (keys.map Stroke.up).foldl modsAfter (.ofKinds p) =
    .ofKinds fun kind => p kind && !kindIn keys kind := by
  induction keys generalizing p with
  | nil => simp [kindIn]
  | cons key keys ih =>
    rw [List.map_cons, List.foldl_cons, modsAfter_up, ih]
    simp [kindIn, Bool.and_assoc]

end Folds

/-- The held modifiers after the events of a call, when the sink starts in step. -/
def modsAfterCall (s : KeyboardState) (c : Call) : ModifierSet :=
  ((eventsOf (s.step c).2).map KeyEvent.stroke).foldl modsAfter s.heldModifiers

/-- A release that takes a modifier with it leaves no other key of its kind down. -/
def LeavesNoKind (s : KeyboardState) (key : PhysicalKey) : Prop :=
  key ∈ s.depressed → ∀ mod ∈ s.depressed, mod ∈ s.releases key →
    ∀ other ∈ s.depressed, other ∉ s.releases key →
      ∀ kind, mod.modifierKind = some kind → other.modifierKind ≠ some kind

section Calls

variable {s s' : KeyboardState} {key : PhysicalKey} {now : ℕ}

theorem heldModifiers_eq_kindIn (s : KeyboardState) :
    s.heldModifiers = .ofKinds (kindIn s.depressed.keys) := s.heldModifiers_eq

theorem modsAfterCall_press (hr : s.HasRoom (.press key now)) :
    modsAfterCall s (.press key now) = (s.press key now).1.heldModifiers := by
  have he := KeyboardState.press_effect s key now
  simp only [modsAfterCall, KeyboardState.step]
  generalize (s.press key now).1 = s' at he ⊢
  generalize eventsOf (s.press key now).2 = events at he ⊢
  cases he with
  | quiet => rfl
  | press hk hl _ hd =>
    rw [KeyboardState.map_down_stroke, heldModifiers_eq_kindIn, foldl_downs,
      heldModifiers_eq_kindIn, hd, ModifierSet.ofKinds_inj]
    intro kind
    rw [Bool.eq_iff_iff, Bool.or_eq_true]
    simp only [kindIn_iff, ← KeySet.mem_def, KeySet.mem_insertAll (hr hk hl)]
    simp only [or_and_right, exists_or]

theorem modsAfterCall_releaseAll (s : KeyboardState) :
    modsAfterCall s .releaseAll = s.releaseAll.1.heldModifiers := by
  have he := KeyboardState.releaseAll_effect s
  simp only [modsAfterCall, KeyboardState.step, eventsOf]
  generalize s.releaseAll.1 = s' at he ⊢
  generalize s.releaseAll.2 = events at he ⊢
  cases he with
  | quiet _ _ h => exact absurd rfl h
  | releaseAll _ hm _ hd =>
    rw [KeyboardState.map_up_stroke, heldModifiers_eq_kindIn, foldl_ups, heldModifiers_eq_kindIn,
      hd, ModifierSet.ofKinds_inj]
    intro kind
    rw [Bool.eq_iff_iff, Bool.and_eq_true, Bool.not_eq_true', Bool.eq_false_iff, Ne]
    simp only [kindIn_iff, hm, ← KeySet.mem_def]
    refine iff_of_false (fun h => h.2 h.1) ?_
    rintro ⟨key, hk, -⟩
    exact KeySet.mem_new hk

/-- The mirror survives a release exactly when it leaves no key of a released kind down. -/
theorem modsAfterCall_release_iff :
    modsAfterCall s (.release key now) = (s.release key now).1.heldModifiers ↔
      LeavesNoKind s key := by
  have he := KeyboardState.release_effect s key now
  simp only [modsAfterCall, KeyboardState.step]
  generalize (s.release key now).1 = s' at he ⊢
  generalize eventsOf (s.release key now).2 = events at he ⊢
  cases he with
  | quiet _ hr => exact iff_of_true rfl fun hk => absurd hk (hr key now rfl)
  | release hk _ hd =>
    obtain ⟨ups, hups, -, hmem⟩ :=
      KeyboardEngine.releaseInjected_events s.depressed (s.releases key)
    rw [hups, KeyboardState.map_up_stroke, heldModifiers_eq_kindIn, foldl_ups,
      heldModifiers_eq_kindIn, hd, ModifierSet.ofKinds_inj]
    have hleft : ∀ kind, kindIn (KeyboardState.releaseInjected s.depressed (s.releases key)).1.keys
        kind = true ↔ ∃ other ∈ s.depressed, other ∉ s.releases key ∧
          other.modifierKind = some kind := by
      intro kind
      simp only [kindIn_iff, ← KeySet.mem_def, KeyboardState.mem_releaseInjected, and_assoc]
    constructor
    · intro h _ mod hmd hmr other hod hor kind hmk hok
      have hup : kindIn ups kind = true := kindIn_iff.mpr ⟨mod, (hmem mod).mpr ⟨hmd, hmr⟩, hmk⟩
      have hl := (hleft kind).mpr ⟨other, hod, hor, hok⟩
      have hkind := h kind
      simp [hup, hl] at hkind
    · intro h kind
      rw [Bool.eq_iff_iff, Bool.and_eq_true, Bool.not_eq_true', Bool.eq_false_iff, Ne, hleft]
      constructor
      · rintro ⟨hin, hno⟩
        obtain ⟨other, hod, hok⟩ := kindIn_iff.mp hin
        refine ⟨other, hod, fun hor => hno (kindIn_iff.mpr ⟨other, ?_, hok⟩), hok⟩
        exact (hmem other).mpr ⟨hod, hor⟩
      · rintro ⟨other, hod, hor, hok⟩
        refine ⟨kindIn_iff.mpr ⟨other, hod, hok⟩, fun hup => ?_⟩
        obtain ⟨mod, hm, hmk⟩ := kindIn_iff.mp hup
        obtain ⟨hmd, hmr⟩ := (hmem mod).mp hm
        exact h hk mod hmd hmr other hod hor kind hmk hok

end Calls

/-- The call leaves no other key of a released kind down, and repeats no modifier whose kind
is not held. -/
def KeepsKinds (e : KeyboardEngine) (c : DriverCall) : Prop :=
  (∀ s key, e.releaseStart c = some (s, key) → LeavesNoKind s key) ∧
    ∀ key ∈ e.due c, ∀ kind, key.modifierKind = some kind →
      e.state.heldModifiers.contains (.ofKind kind) = true

theorem keepsKinds_release_iff {e : KeyboardEngine} {c : DriverCall} {s : KeyboardState}
    {key : PhysicalKey} (hs : e.releaseStart c = some (s, key)) (hd : e.due c = []) :
    KeepsKinds e c ↔ LeavesNoKind s key := by
  simp [KeepsKinds, hs, hd]

theorem keepsKinds_of_none {e : KeyboardEngine} {c : DriverCall} (hs : e.releaseStart c = none)
    (hd : e.due c = []) : KeepsKinds e c := by
  simp [KeepsKinds, hs, hd]

theorem foldl_streamOf_singleton (s : KeyboardState) (c : Call) :
    ((streamOf s [c]).map KeyEvent.stroke).foldl modsAfter s.heldModifiers = modsAfterCall s c := by
  rw [streamOf, outputs, outputs, List.flatMap_singleton]
  rfl

theorem foldl_streamOf_cons {s : KeyboardState} {c : Call} (calls : List Call)
    (h : modsAfterCall s c = (s.step c).1.heldModifiers) :
    ((streamOf s (c :: calls)).map KeyEvent.stroke).foldl modsAfter s.heldModifiers =
      ((streamOf (s.step c).1 calls).map KeyEvent.stroke).foldl modsAfter
        (s.step c).1.heldModifiers := by
  rw [← h, modsAfterCall, ← List.foldl_append, ← List.map_append]
  rfl

/-- The mirror survives a call of the driver exactly when it keeps the kinds. -/
theorem mods_step_iff (e : KeyboardEngine) {c : DriverCall} (hr : e.HasRoom c) :
    (strokesOf (e.step c).2).foldl modsAfter e.state.heldModifiers =
      (e.step c).1.state.heldModifiers ↔ KeepsKinds e c := by
  obtain ⟨hstate, hstrokes⟩ := KeyboardEngine.step_eq e c
  rw [hstrokes, hstate, List.foldl_append]
  match c with
  | .action .down key now =>
    obtain ⟨hroom, -⟩ := steps_cons_iff.mp hr
    refine iff_of_true ?_ (keepsKinds_of_none rfl rfl)
    rw [DriverCall.calls, foldl_streamOf_singleton]
    exact modsAfterCall_press hroom
  | .action .up key now =>
    rw [keepsKinds_release_iff rfl rfl, DriverCall.calls, foldl_streamOf_singleton]
    exact modsAfterCall_release_iff
  | .action .tap key now =>
    obtain ⟨hroom, -⟩ := steps_cons_iff.mp hr
    rw [keepsKinds_release_iff rfl rfl, DriverCall.calls,
      foldl_streamOf_cons _ (modsAfterCall_press hroom), foldl_streamOf_singleton]
    exact modsAfterCall_release_iff
  | .action .releaseAll key now =>
    refine iff_of_true ?_ (keepsKinds_of_none rfl rfl)
    rw [DriverCall.calls, foldl_streamOf_singleton]
    exact modsAfterCall_releaseAll e.state
  | .tickRepeat now =>
    have hnone : KeepsKinds e (.tickRepeat now) ↔ ∀ key ∈ (e.repeats.tick now).2, ∀ kind,
        key.modifierKind = some kind → e.state.heldModifiers.contains (.ofKind kind) = true := by
      simp [KeepsKinds, KeyboardEngine.releaseStart, KeyboardEngine.due]
    change ((e.repeats.tick now).2.map Stroke.again).foldl modsAfter e.state.heldModifiers =
      e.state.heldModifiers ↔ _
    rw [hnone, heldModifiers_eq_kindIn, foldl_agains, ModifierSet.ofKinds_inj]
    simp only [ModifierSet.contains_ofKinds]
    constructor
    · intro h key hk kind hkind
      rw [← h kind, kindIn_iff.mpr ⟨key, hk, hkind⟩, Bool.or_true]
    · intro h kind
      rw [Bool.or_eq_left_iff_imp]
      intro hin
      obtain ⟨key, hk, hkind⟩ := kindIn_iff.mp hin
      exact h key hk kind hkind
  | .emergencyRelease =>
    refine iff_of_true ?_ (keepsKinds_of_none rfl rfl)
    rw [DriverCall.calls, foldl_streamOf_singleton]
    exact modsAfterCall_releaseAll e.state

section

variable {μ τ : Type} [TerminalInputSink τ]

/-- The sink's held modifiers are those of the state machine. -/
def Mirrors (d : KeyboardDriver (TerminalKeySink μ τ)) : Prop :=
  d.sink.heldMods = d.state.heldModifiers

/-- With an input sink that never fails, and as long as the calls have room, the terminal
sink mirrors the held modifiers throughout a run exactly when every call keeps the kinds. -/
theorem always_mirrors_iff (hsink : NeverFails τ) {settings : StateSettings}
    {repeatSettings : RepeatSettings} {layout : Layout} {encoder : TerminalKeyEncoder μ}
    {modes : μ} {sink : τ} {calls : List DriverCall}
    (hr : Steps KeyboardDriver.step (fun d c => d.HasRoom c)
      (.new settings repeatSettings layout (TerminalKeySink.new encoder modes sink)) calls) :
    Always KeyboardDriver.step Mirrors
        (.new settings repeatSettings layout (TerminalKeySink.new encoder modes sink)) calls ↔
      Steps KeyboardDriver.step (fun d c => KeepsKinds d.toKeyboardEngine c)
        (.new settings repeatSettings layout (TerminalKeySink.new encoder modes sink)) calls := by
  have hstep : ∀ (d : KeyboardDriver (TerminalKeySink μ τ)) c, Mirrors d → d.HasRoom c →
      (Mirrors (d.step c).1 ↔ KeepsKinds d.toKeyboardEngine c) := by
    intro d c h hroom
    have hmods : d.sink.heldMods = d.state.heldModifiers := h
    rw [Mirrors, KeyboardDriver.step_sink, KeyboardDriver.step_engine, (deliver_eq hsink _ _).2.1,
      hmods]
    exact mods_step_iff _ hroom
  apply always_iff_steps_within Mirrors
  · rfl
  · exact fun d h => h
  · exact fun d c h hroom hc => (hstep d c h hroom).mpr hc
  · exact fun d c h hroom hc hp => hc ((hstep d c h hroom).mp hp)
  · exact hr

end

/-- An input sink that keeps everything it is sent. -/
structure Transcript where
  bytes : List UInt8
  deriving DecidableEq, Repr

instance transcriptSink : TerminalInputSink Transcript where
  send t bytes := (⟨t.bytes ++ bytes⟩, .ok ())

theorem transcript_neverFails : NeverFails Transcript := fun _ _ => rfl

/-- A terminal driver with the default settings and an encoder for the letter A. -/
def terminalDriver : KeyboardDriver (TerminalKeySink Unit Transcript) :=
  .new ⟨true, 400000000, 16⟩ ⟨true, 500000000, 30000000⟩ ⟨fun _ => none⟩
    (.new ⟨fun key _ _ => if key = .a then some [97] else none⟩ () ⟨[]⟩)

theorem shiftedLetter_mirrors_iff :
    let calls : List DriverCall :=
      [.action .down .leftShift 0, .action .tap .a 100, .action .up .leftShift 200]
    NeverFails Transcript ∧ Steps KeyboardDriver.step (fun d c => d.HasRoom c) terminalDriver calls ∧
      (Always KeyboardDriver.step Mirrors terminalDriver calls ↔
        Steps KeyboardDriver.step (fun d c => KeepsKinds d.toKeyboardEngine c) terminalDriver
          calls) :=
  have hr := KeyboardDriver.steps_hasRoom (d := terminalDriver) (by decide) _
  ⟨transcript_neverFails, hr, always_mirrors_iff transcript_neverFails hr⟩

/-- Both shift keys are held and one is released: the sink has shift up. -/
theorem rightShift_released_not_mirrored :
    NeverFails Transcript ∧ ¬ Always KeyboardDriver.step Mirrors terminalDriver
      [.action .down .leftShift 0, .action .down .rightShift 100, .action .up .rightShift 200] :=
  ⟨transcript_neverFails, fun h => absurd (h _ List.prefix_rfl) (by
    rw [Mirrors]
    decide)⟩

end Ferrokey.Terminal
