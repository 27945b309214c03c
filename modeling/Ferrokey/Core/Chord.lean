import Ferrokey.Core.CapsLock
import Ferrokey.Core.Tap

/-! # Presses and releases by the kind of key

What a press or a release comes to, one equation for every kind of key. After an ordinary key
no modifier that is down is a tap any more, so a chord latches nothing.
-/

namespace Ferrokey

open Collections Machine

theorem PhysicalKey.isOrdinary_iff {key : PhysicalKey} :
    key.isOrdinary = true ↔ key.modifierKind = none ∧ key.isLockKey = false := by
  cases key <;> decide

theorem PhysicalKey.isModifier_iff {key : PhysicalKey} :
    key.isModifier = true ↔ ∃ kind, key.modifierKind = some kind := Option.isSome_iff_exists

namespace KeyboardState

variable {s : KeyboardState} {key : PhysicalKey} {kind : ModifierKind} {now : ℕ}

theorem press_held (h : key ∈ s.depressed) (now : ℕ) : s.press key now = (s, .ok []) := by
  rw [press, if_pos (KeySet.contains_iff.mpr h)]

theorem press_full (h : key ∉ s.depressed) (hl : s.settings.maxHeldKeys ≤ s.depressed.len)
    (now : ℕ) : s.press key now = (s, .error (.rollover s.settings.maxHeldKeys)) := by
  rw [press, if_neg (mt KeySet.contains_iff.mp h), if_pos hl]

section

variable (h : key ∉ s.depressed) (hl : s.depressed.len < s.settings.maxHeldKeys) (now : ℕ)

include h hl

theorem press_modifier (hk : key.modifierKind = some kind) :
    s.press key now = ((s.pressModifier key kind now).1.updateLayer, .ok [.down key]) := by
  rw [press, if_neg (mt KeySet.contains_iff.mp h), if_neg (Nat.not_le.mpr hl), hk]
  rfl

theorem press_lock (hk : key.modifierKind = none) (hlock : key.isLockKey = true) :
    s.press key now = ((s.pressLock key).1.updateLayer, .ok [.down key]) := by
  rw [press, if_neg (mt KeySet.contains_iff.mp h), if_neg (Nat.not_le.mpr hl), hk, hlock]
  rfl

theorem press_ordinary (hk : key.isOrdinary = true) :
    s.press key now = ((s.pressNormal key).1.updateLayer,
      .ok ((s.injections ++ [key]).map .down)) := by
  obtain ⟨hkind, hlock⟩ := PhysicalKey.isOrdinary_iff.mp hk
  rw [press, if_neg (mt KeySet.contains_iff.mp h), if_neg (Nat.not_le.mpr hl), hkind, hlock]
  simp [pressNormal, inject_eq]

end

theorem pressNormal_eq (s : KeyboardState) (key : PhysicalKey) : (s.pressNormal key).1 =
    { s with
      depressed := s.depressed.insertAll (s.injections ++ [key])
      injectedMods := if 0 < s.injections.length then s.injectedMods.push (key, ⟨s.injections⟩)
        else s.injectedMods
      latched := .empty
      tapTrack := s.tapTrack.update fun entry =>
        (entry.1, { entry.2 with interleaved := true }) } := by
  rw [pressNormal, inject_eq, KeySet.insertAll_concat]

theorem press_error_iff {e : StateError} : (s.press key now).2 = .error e ↔
    key ∉ s.depressed ∧ s.settings.maxHeldKeys ≤ s.depressed.len ∧
      e = .rollover s.settings.maxHeldKeys := by
  unfold press
  split
  next hd => simp [KeySet.contains_iff.mp hd]
  next hd =>
    have hup : key ∉ s.depressed := mt KeySet.contains_iff.mpr hd
    split
    next hl => simp [hup, hl, eq_comm]
    next hl => simp [hl]

theorem release_absent (h : key ∉ s.depressed) (now : ℕ) : s.release key now = (s, .ok []) := by
  simp [release, h]

section

variable (h : key ∈ s.depressed) (now : ℕ)

include h

theorem release_modifier (hk : key.modifierKind = some kind) : s.release key now =
    ((s.releaseModifier key kind now).1.updateLayer, .ok [.up key]) := by
  rw [release, if_neg (by simpa using h), hk]
  rfl

theorem release_lock (hk : key.modifierKind = none) (hlock : key.isLockKey = true) :
    s.release key now = ((s.releaseLock key).1.updateLayer, .ok [.up key]) := by
  rw [release, if_neg (by simpa using h), hk, hlock]
  rfl

theorem release_ordinary (hk : key.isOrdinary = true) : s.release key now =
    ((s.releaseNormal key).1.updateLayer, .ok (s.releaseNormal key).2) := by
  obtain ⟨hkind, hlock⟩ := PhysicalKey.isOrdinary_iff.mp hk
  rw [release, if_neg (by simpa using h), hkind, hlock]
  rfl

end

/-! ### Chords -/

/-- No modifier that is down is a tap any more. -/
def Interleaved (s : KeyboardState) : Prop :=
  ∀ entry ∈ s.tapTrack.entries, entry.2.interleaved = true

theorem interleaved_pressNormal (s : KeyboardState) (key : PhysicalKey) :
    (s.pressNormal key).1.Interleaved := by
  intro entry he
  rw [pressNormal_eq, SlotTable.entries_update, List.mem_map] at he
  obtain ⟨entry', -, rfl⟩ := he
  rfl

theorem Interleaved.isTap (h : s.Interleaved) (key : PhysicalKey) (now : ℕ) :
    s.isTap (takeEntry s.tapTrack key).2 now = false := by
  rw [takeEntry_snd]
  cases hf : s.tapTrack.entries.find? (·.1 == key) with
  | none => rfl
  | some entry => simp [KeyboardState.isTap, h entry (List.mem_of_find?_eq_some hf)]

/-- After an ordinary key, a release latches nothing and locks nothing. -/
theorem Interleaved.release (h : s.Interleaved) (hlock : key.isLockKey = false) (now : ℕ) :
    (s.release key now).1.Interleaved ∧ (s.release key now).1.latched = s.latched ∧
      (s.release key now).1.locked = s.locked := by
  by_cases hd : key ∈ s.depressed
  swap
  · rw [release_absent hd]
    exact ⟨h, rfl, rfl⟩
  cases hk : key.modifierKind with
  | some kind =>
    rw [release_modifier hd now hk, releaseModifier_of_not_tap (h.isTap key now)]
    refine ⟨fun entry he => h entry ?_, rfl, rfl⟩
    rw [updateLayer, RepeatEngine.entries_takeEntry] at he
    exact List.eraseP_subset he
  | none =>
    rw [release_ordinary hd now (PhysicalKey.isOrdinary_iff.mpr ⟨hk, hlock⟩), releaseNormal]
    split <;> exact ⟨h, rfl, rfl⟩

end KeyboardState

/-! ### The calls of the driver -/

namespace KeyboardDriver

variable {σ : Type} [KeySink σ] (d : KeyboardDriver σ) (key : PhysicalKey) (now : ℕ)

theorem step_down : (d.step (.action .down key now)).1.state = (d.state.press key now).1 ∧
    (d.step (.action .down key now)).1.sink =
      (deliver d.sink ((eventsOf (d.state.press key now).2).map KeyEvent.stroke)).1 := by
  obtain ⟨hstate, hstrokes⟩ := KeyboardEngine.step_eq d.toKeyboardEngine (.action .down key now)
  refine ⟨by rw [step_engine, hstate]; rfl, ?_⟩
  rw [step_sink, hstrokes]
  simp [DriverCall.calls, streamOf, outputs, KeyboardEngine.due, KeyboardState.step]

theorem step_up : (d.step (.action .up key now)).1.state = (d.state.release key now).1 ∧
    (d.step (.action .up key now)).1.sink =
      (deliver d.sink ((eventsOf (d.state.release key now).2).map KeyEvent.stroke)).1 := by
  obtain ⟨hstate, hstrokes⟩ := KeyboardEngine.step_eq d.toKeyboardEngine (.action .up key now)
  refine ⟨by rw [step_engine, hstate]; rfl, ?_⟩
  rw [step_sink, hstrokes]
  simp [DriverCall.calls, streamOf, outputs, KeyboardEngine.due, KeyboardState.step]

theorem step_tap : (d.step (.action .tap key now)).1.state =
    d.state.tap key now (addDuration now tapGrace) := by
  rw [step_engine, (KeyboardEngine.step_eq _ _).1]
  rfl

/-- The error of the state machine is the one of the engine; all others come from the sink. -/
theorem step_error_iff (c : DriverCall) {e : StateError} :
    (d.step c).2 = .error (.state e) ↔ (d.toKeyboardEngine.step c).2 = .error e := by
  unfold step
  split
  next h => simp [h]
  next h =>
    rw [h]
    simp only [reduceCtorEq, iff_false]
    generalize (deliver d.sink _).2 = result
    cases result <;> simp [Except.mapError]

theorem step_up_ne_error {e : StateError} :
    (d.step (.action .up key now)).2 ≠ .error (.state e) := by
  rw [Ne, step_error_iff]
  simp only [KeyboardEngine.step, KeyboardEngine.act]
  cases h : d.state.release key now with
  | mk s' result =>
    cases result with
    | error err => exact absurd h KeyboardEngine.release_ne_error
    | ok events => simp [Except.map]

/-- A press or a tap fails in the state machine exactly if the rollover cap is reached. -/
theorem step_down_error_iff {e : StateError} :
    (d.step (.action .down key now)).2 = .error (.state e) ↔
      (d.state.press key now).2 = .error e := by
  rw [step_error_iff]
  simp only [KeyboardEngine.step, KeyboardEngine.act]
  cases d.state.press key now with
  | mk s' result => cases result <;> simp [Except.map]

theorem step_tap_error_iff {e : StateError} :
    (d.step (.action .tap key now)).2 = .error (.state e) ↔
      (d.state.press key now).2 = .error e := by
  rw [step_error_iff]
  simp only [KeyboardEngine.step, KeyboardEngine.act]
  cases d.state.press key now with
  | mk s' result =>
    cases result with
    | error err => simp [Except.map]
    | ok events =>
      cases h : s'.release key (addDuration now tapGrace) with
      | mk s'' result =>
        cases result with
        | error err => exact absurd h KeyboardEngine.release_ne_error
        | ok events' => simp [Except.map, h]

end KeyboardDriver

end Ferrokey
