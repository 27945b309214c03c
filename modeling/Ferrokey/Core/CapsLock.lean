import Ferrokey.Core.Driver

/-! # When Caps Lock toggles

The state machine toggles Caps Lock when its key is released, and on nothing else:
a release of everything lets the key go without a toggle. The events of a call
release the key at most once, since a key is injected for another one only if it is
a modifier.
-/

namespace Ferrokey

open Collections Machine

namespace KeyboardState

/-- Only modifiers are on record as injected. -/
def InjectsModifiers (s : KeyboardState) : Prop :=
  ∀ entry ∈ s.injectedMods.entries, ∀ mod ∈ entry.2.keys, mod.isModifier = true

variable {s : KeyboardState} {key : PhysicalKey} {now : ℕ}

theorem injectsModifiers_new (settings : StateSettings) : (new settings).InjectsModifiers := by
  intro entry he
  simp [new] at he

theorem InjectsModifiers.press (h : s.InjectsModifiers) (key : PhysicalKey) (now : ℕ) :
    (s.press key now).1.InjectsModifiers := by
  unfold KeyboardState.press
  split
  · exact h
  split
  · exact h
  cases key.modifierKind with
  | some kind => exact h
  | none =>
    cases key.isLockKey with
    | true => exact h
    | false =>
      simp only [Bool.false_eq_true, if_false, pressNormal, inject_eq]
      intro entry he
      simp only [updateLayer] at he
      split at he
      · rw [SlotTable.entries_push] at he
        split at he
        · rcases List.mem_append.mp he with he | he
          · exact h entry he
          · rw [List.mem_singleton.mp he]
            exact fun mod hm => (mem_wanted hm).1
        · exact h entry he
      · exact h entry he

theorem toggleLatch_frame (s : KeyboardState) (kind : ModifierKind) :
    (s.toggleLatch kind).injectedMods = s.injectedMods ∧
      (s.toggleLatch kind).capsLock = s.capsLock := by
  unfold toggleLatch
  dsimp only
  split <;> exact ⟨rfl, rfl⟩

theorem releaseModifier_frame (s : KeyboardState) (key : PhysicalKey) (kind : ModifierKind)
    (now : ℕ) : (s.releaseModifier key kind now).1.injectedMods = s.injectedMods ∧
      (s.releaseModifier key kind now).1.capsLock = s.capsLock := by
  unfold releaseModifier
  dsimp only
  split
  · exact toggleLatch_frame _ kind
  · exact ⟨rfl, rfl⟩

theorem releaseLock_frame (s : KeyboardState) (key : PhysicalKey) :
    (s.releaseLock key).1.injectedMods = s.injectedMods ∧
      (s.releaseLock key).1.capsLock = (s.capsLock ^^ decide (key = .capsLock)) := by
  unfold releaseLock
  dsimp only
  split
  · exact ⟨rfl, by simp [toggleCapsLock]⟩
  · exact ⟨rfl, by simp⟩
  · next hcaps _ => exact ⟨rfl, by simp [show key ≠ .capsLock from hcaps]⟩

theorem releaseNormal_frame (s : KeyboardState) (key : PhysicalKey) :
    (s.releaseNormal key).1.injectedMods.entries.Sublist s.injectedMods.entries ∧
      (s.releaseNormal key).1.capsLock = s.capsLock := by
  unfold releaseNormal
  have he := RepeatEngine.entries_takeEntry s.injectedMods key
  split
  · exact ⟨List.Sublist.refl _, rfl⟩
  · next hr =>
    rw [hr] at he
    exact ⟨he ▸ List.eraseP_sublist, rfl⟩

/-- A release takes nothing new on record and toggles Caps Lock exactly when it lets the
Caps Lock key go. -/
theorem release_frame (s : KeyboardState) (key : PhysicalKey) (now : ℕ) :
    (s.release key now).1.injectedMods.entries.Sublist s.injectedMods.entries ∧
      (s.release key now).1.capsLock =
        (s.capsLock ^^ decide (key = .capsLock ∧ key ∈ s.depressed)) := by
  unfold release
  by_cases hd : key ∈ s.depressed
  swap
  · simp [KeySet.contains_eq_false_iff.mpr hd, hd]
  rw [if_neg (by simpa using hd)]
  cases hk : key.modifierKind with
  | some kind =>
    obtain ⟨hinj, hcaps⟩ := releaseModifier_frame s key kind now
    have hne : key ≠ .capsLock := by
      rintro rfl
      cases hk
    refine ⟨?_, ?_⟩
    · exact hinj ▸ List.Sublist.refl _
    · exact hcaps.trans (by simp [hne])
  | none =>
    cases hlock : key.isLockKey with
    | true =>
      obtain ⟨hinj, hcaps⟩ := releaseLock_frame s key
      refine ⟨?_, ?_⟩
      · exact hinj ▸ List.Sublist.refl _
      · exact hcaps.trans (by simp [hd])
    | false =>
      obtain ⟨hinj, hcaps⟩ := releaseNormal_frame s key
      have hne : key ≠ .capsLock := by
        rintro rfl
        cases hlock
      exact ⟨hinj, hcaps.trans (by simp [hne])⟩

theorem InjectsModifiers.release (h : s.InjectsModifiers) (key : PhysicalKey) (now : ℕ) :
    (s.release key now).1.InjectsModifiers :=
  fun entry he => h entry ((release_frame s key now).1.subset he)

theorem InjectsModifiers.releaseAll (s : KeyboardState) : s.releaseAll.1.InjectsModifiers := by
  intro entry he
  simp [KeyboardState.releaseAll, updateLayer] at he

theorem press_capsLock (s : KeyboardState) (key : PhysicalKey) (now : ℕ) :
    (s.press key now).1.capsLock = s.capsLock := by
  unfold KeyboardState.press
  split
  · rfl
  split
  · rfl
  cases key.modifierKind with
  | some kind => rfl
  | none => cases key.isLockKey <;> rfl

/-- A release lets the Caps Lock key go only if it is the released key. -/
theorem InjectsModifiers.capsLock_mem_releases (h : s.InjectsModifiers) :
    .capsLock ∈ s.releases key ↔ key = .capsLock := by
  unfold releases
  split
  · next hord =>
    have hne : key ≠ .capsLock := by
      rintro rfl
      cases hord
    have hinj : .capsLock ∉ s.injectedFor key := by
      intro hm
      unfold injectedFor takeEntry at hm
      split at hm
      · next injected he =>
        split at he
        · cases he
        · obtain ⟨entry, hentry, rfl⟩ := Option.map_eq_some_iff.mp he
          have hmod := h entry (List.mem_of_getElem? hentry) _ hm
          cases hmod
      · exact absurd hm List.not_mem_nil
    simp [hinj, hne, eq_comm]
  · simp [eq_comm]

theorem InjectsModifiers.step (h : s.InjectsModifiers) (c : Call) :
    (s.step c).1.InjectsModifiers := by
  cases c with
  | press key now => exact h.press key now
  | release key now => exact h.release key now
  | releaseAll => exact InjectsModifiers.releaseAll s

end KeyboardState

namespace KeyboardEngine

variable (e : KeyboardEngine) (c : DriverCall)

/-- The call toggles Caps Lock: it releases the key while that is down. -/
def togglesCaps : Bool :=
  match e.releaseStart c with
  | some (s, key) => decide (key = .capsLock ∧ key ∈ s.depressed)
  | none => false

/-- The call lets the Caps Lock key go with everything else. -/
def dropsCaps : Bool :=
  match c with
  | .action .releaseAll _ _ | .emergencyRelease => decide (.capsLock ∈ e.state.depressed)
  | _ => false

theorem step_injectsModifiers (h : e.state.InjectsModifiers) :
    (e.step c).1.state.InjectsModifiers := by
  rw [(step_eq e c).1]
  exact run_invariant _ h (fun s c h => h.step c) c.calls

theorem step_capsLock :
    (e.step c).1.state.capsLock = (e.state.capsLock ^^ e.togglesCaps c) := by
  rw [(step_eq e c).1]
  match c with
  | .action .down key now => simp [DriverCall.calls, KeyboardState.step, togglesCaps, releaseStart,
      KeyboardState.press_capsLock]
  | .action .up key now => exact (KeyboardState.release_frame e.state key now).2
  | .action .tap key now =>
    have hpress := KeyboardState.press_capsLock e.state key now
    have hrelease := (KeyboardState.release_frame (e.state.press key now).1 key
      (addDuration now tapGrace)).2
    rw [hpress] at hrelease
    exact hrelease
  | .action .releaseAll _ _ | .emergencyRelease | .tickRepeat _ =>
    exact (Bool.xor_false _).symm

/-- A call lets the Caps Lock key go either with a toggle or with everything else. -/
theorem releases_capsLock_iff (h : e.state.InjectsModifiers) :
    e.Releases c .capsLock ↔ (e.togglesCaps c ^^ e.dropsCaps c) = true := by
  have hone : ∀ {s : KeyboardState} {key : PhysicalKey}, s.InjectsModifiers →
      ((key ∈ s.depressed ∧ .capsLock ∈ s.depressed ∧ .capsLock ∈ s.releases key) ↔
        (key = .capsLock ∧ key ∈ s.depressed)) := by
    intro s key hs
    rw [hs.capsLock_mem_releases]
    constructor
    · rintro ⟨hk, -, rfl⟩
      exact ⟨rfl, hk⟩
    · rintro ⟨rfl, hk⟩
      exact ⟨hk, hk, rfl⟩
  match c with
  | .action .down key now | .tickRepeat _ => simp [Releases, togglesCaps, dropsCaps, releaseStart]
  | .action .up key now => simp [Releases, togglesCaps, dropsCaps, releaseStart, hone h]
  | .action .tap key now =>
    simp [Releases, togglesCaps, dropsCaps, releaseStart, hone (h.press key now)]
  | .action .releaseAll _ _ | .emergencyRelease =>
    simp [Releases, togglesCaps, dropsCaps, releaseStart]

end KeyboardEngine

end Ferrokey
