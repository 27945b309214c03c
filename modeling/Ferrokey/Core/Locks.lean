import Ferrokey.Core.CapsLock
import Ferrokey.Core.Tap

/-! # Lock discipline

Caps Lock is kept twice, as a flag and as the shift bit of the locked modifiers, and the
layer is kept beside the modifiers that it is read off. Every call leaves the copies in
step, also the calls that return before the layer is updated: they change nothing. The
locks themselves change when a lock key that is down is released, and at no other time.
-/

namespace Ferrokey

open Machine

namespace KeyboardState

/-- The layer is the one of the modifiers that apply. -/
def LayerFollows (s : KeyboardState) : Prop :=
  s.activeLayer = .fromModifiers s.effectiveModifiers

/-- The call is a release of the key while that is down. -/
def frees (s : KeyboardState) (key : PhysicalKey) : Call → Bool
  | .release key' _ => decide (key' = key ∧ key' ∈ s.depressed)
  | _ => false

/-- Neither lock changes, nor does what mirrors Caps Lock. -/
structure SameLocks (s s' : KeyboardState) : Prop where
  capsLock : s'.capsLock = s.capsLock
  numLock : s'.numLock = s.numLock
  locked : s'.locked = s.locked

variable {s : KeyboardState} {key : PhysicalKey} {now : ℕ}

/-! ### The layer -/

theorem updateLayer_layerFollows (s : KeyboardState) : s.updateLayer.LayerFollows := rfl

theorem LayerFollows.press (h : s.LayerFollows) (key : PhysicalKey) (now : ℕ) :
    (s.press key now).1.LayerFollows := by
  unfold KeyboardState.press
  split
  · exact h
  · split
    · exact h
    · exact updateLayer_layerFollows _

theorem LayerFollows.release (h : s.LayerFollows) (key : PhysicalKey) (now : ℕ) :
    (s.release key now).1.LayerFollows := by
  unfold KeyboardState.release
  split
  · exact h
  · exact updateLayer_layerFollows _

theorem layerFollows_run (settings : StateSettings) (calls : List Call) :
    (run KeyboardState.step (new settings) calls).LayerFollows := by
  apply run_invariant LayerFollows
  · have hheld : (new settings).heldModifiers = .empty := by
      simp [heldModifiers, KeySet.keys, KeySet.new, new]
    have hlayer : Layer.base = .fromModifiers ((ModifierSet.empty.union .empty).union .empty) := by
      decide
    rw [LayerFollows, effectiveModifiers, hheld]
    exact hlayer
  · intro s c h
    cases c with
    | press key now => exact h.press key now
    | release key now => exact h.release key now
    | releaseAll => exact updateLayer_layerFollows _

/-! ### The locks -/

theorem press_sameLocks (s : KeyboardState) (key : PhysicalKey) (now : ℕ) :
    SameLocks s (s.press key now).1 := by
  unfold press
  split
  · exact ⟨rfl, rfl, rfl⟩
  · split
    · exact ⟨rfl, rfl, rfl⟩
    · cases key.modifierKind with
      | some kind => exact ⟨rfl, rfl, rfl⟩
      | none => cases key.isLockKey <;> exact ⟨rfl, rfl, rfl⟩

theorem releaseModifier_sameLocks (h : s.LocksMirror) (key : PhysicalKey) (kind : ModifierKind)
    (now : ℕ) : SameLocks s (s.releaseModifier key kind now).1 := by
  unfold releaseModifier
  dsimp only
  split
  · have hfree : LocksMirror { s with
        tapTrack := (takeEntry s.tapTrack key).1
        depressed := (s.depressed.remove key).1 } := h
    obtain ⟨hlocked, hcaps, hnum⟩ := toggleLatch_locks hfree kind
    exact ⟨hcaps, hnum, hlocked⟩
  · exact ⟨rfl, rfl, rfl⟩

theorem releaseNormal_sameLocks (s : KeyboardState) (key : PhysicalKey) :
    SameLocks s (s.releaseNormal key).1 := by
  unfold releaseNormal
  split <;> exact ⟨rfl, rfl, rfl⟩

/-- A release of any other key than a lock key leaves the locks. -/
theorem release_sameLocks (h : s.LocksMirror) (hlock : key.isLockKey = false) (now : ℕ) :
    SameLocks s (s.release key now).1 := by
  unfold release
  split
  · exact ⟨rfl, rfl, rfl⟩
  · cases key.modifierKind with
    | some kind =>
      obtain ⟨hcaps, hnum, hlocked⟩ := releaseModifier_sameLocks h key kind now
      exact ⟨hcaps, hnum, hlocked⟩
    | none =>
      obtain ⟨hcaps, hnum, hlocked⟩ := releaseNormal_sameLocks s key
      rw [hlock]
      exact ⟨hcaps, hnum, hlocked⟩

theorem releaseLock_numLock (s : KeyboardState) (key : PhysicalKey) :
    (s.releaseLock key).1.numLock = (s.numLock ^^ decide (key = .numLock)) := by
  unfold releaseLock
  dsimp only
  split
  · exact (Bool.xor_false _).symm
  · exact (Bool.xor_true _).symm
  next hnum => simp [show key ≠ .numLock from hnum]

/-- A release toggles Num Lock exactly when it lets the Num Lock key go. -/
theorem release_numLock (h : s.LocksMirror) (key : PhysicalKey) (now : ℕ) :
    (s.release key now).1.numLock =
      (s.numLock ^^ decide (key = .numLock ∧ key ∈ s.depressed)) := by
  cases hlock : key.isLockKey with
  | false =>
    have hne : key ≠ .numLock := by
      rintro rfl
      cases hlock
    rw [(release_sameLocks h hlock now).numLock]
    simp [hne]
  | true =>
    have hkind : key.modifierKind = none := by
      cases key <;> first | rfl | cases hlock
    unfold release
    by_cases hd : key ∈ s.depressed
    · have hnum := releaseLock_numLock s key
      rw [if_neg (by simpa using hd), hkind]
      simpa [hlock, hd, updateLayer] using hnum
    · simp [KeySet.contains_eq_false_iff.mpr hd, hd]

theorem step_capsLock (s : KeyboardState) (c : Call) :
    (s.step c).1.capsLock = (s.capsLock ^^ s.frees .capsLock c) := by
  cases c with
  | press key now => exact (press_capsLock s key now).trans (Bool.xor_false _).symm
  | release key now => exact (release_frame s key now).2
  | releaseAll => exact (Bool.xor_false _).symm

theorem step_numLock (h : s.LocksMirror) (c : Call) :
    (s.step c).1.numLock = (s.numLock ^^ s.frees .numLock c) := by
  cases c with
  | press key now => exact (press_sameLocks s key now).numLock.trans (Bool.xor_false _).symm
  | release key now => exact release_numLock h key now
  | releaseAll => exact (Bool.xor_false _).symm

theorem step_sameLocks (h : s.LocksMirror) {c : Call}
    (hc : ∀ key now, c = .release key now → key.isLockKey = false) : SameLocks s (s.step c).1 := by
  cases c with
  | press key now => exact press_sameLocks s key now
  | release key now => exact release_sameLocks h (hc key now rfl) now
  | releaseAll => exact ⟨rfl, rfl, rfl⟩

/-- In every reachable state the locked modifiers mirror Caps Lock and the layer follows the
modifiers. Each lock flips exactly when its key is released while it is down, and a call that
releases no lock key, be it part of a tap, of a chord or a release of everything, leaves both. -/
theorem lock_discipline (settings : StateSettings) (calls : List Call) :
    let s := run KeyboardState.step (new settings) calls
    s.locked = (if s.capsLock then .ofKind .shift else .empty) ∧
      s.activeLayer = .fromModifiers s.effectiveModifiers ∧
      (∀ c, (s.step c).1.capsLock = (s.capsLock ^^ s.frees .capsLock c) ∧
        (s.step c).1.numLock = (s.numLock ^^ s.frees .numLock c)) ∧
      ∀ c, (∀ key now, c = .release key now → key.isLockKey = false) →
        SameLocks s (s.step c).1 := by
  intro s
  have hlocks : s.LocksMirror := locksMirror_run settings calls
  exact ⟨hlocks, layerFollows_run settings calls,
    fun c => ⟨step_capsLock s c, step_numLock hlocks c⟩, fun c hc => step_sameLocks hlocks hc⟩

end KeyboardState

end Ferrokey
