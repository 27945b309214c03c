import Ferrokey.Core.Reclaim

/-! # Taps on a modifier

A modifier that is pressed and released again soon is tapped, and its latch toggles. Each
press of a modifier is tracked until its key is released. A modifier that goes up together
with the key it was injected for leaves its track behind, and the next tap on it finds the
old track first.
-/

namespace Ferrokey

open Collections Machine

namespace KeyboardState

/-- Press a key and release it again, with nothing in between. -/
def tap (s : KeyboardState) (key : PhysicalKey) (down up : ℕ) : KeyboardState :=
  ((s.press key down).1.release key up).1

/-- The first track of a key in the table. -/
def trackOf (s : KeyboardState) (key : PhysicalKey) : Option TapTrack :=
  (s.tapTrack.entries.find? (·.1 == key)).map Prod.snd

/-- Exactly the latch bit of a kind is toggled, and no lock changes. -/
structure TogglesLatch (kind : ModifierKind) (s s' : KeyboardState) : Prop where
  latched : s'.latched.bits = s.latched.bits ^^^ kind.bit
  locked : s'.locked = s.locked
  capsLock : s'.capsLock = s.capsLock
  numLock : s'.numLock = s.numLock

/-- There is room for the key, and what the table has on the key, if anything, is itself a
tap that ends now. -/
def TracksTap (s : KeyboardState) (key : PhysicalKey) (up : ℕ) : Prop :=
  s.depressed.len < maxHeldKeys ∧
    match s.trackOf key with
    | none => s.tapTrack.len < maxHeldKeys
    | some track => s.isTap (some track) up = true

variable {s : KeyboardState} {key : PhysicalKey} {kind : ModifierKind} {down up : ℕ}

/-! ### Locks of reachable states -/

/-- Nothing is locked but the mirror of Caps Lock. -/
def LocksMirror (s : KeyboardState) : Prop :=
  s.locked = if s.capsLock then .ofKind .shift else .empty

theorem toggleLatch_locks (h : s.LocksMirror) (kind : ModifierKind) :
    (s.toggleLatch kind).locked = s.locked ∧ (s.toggleLatch kind).capsLock = s.capsLock ∧
      (s.toggleLatch kind).numLock = s.numLock := by
  have hfree : kind ≠ .shift → s.locked.remove (.ofKind kind) = s.locked := by
    intro hne
    rw [h]
    cases s.capsLock <;> cases kind <;> first | rfl | exact absurd rfl hne
  unfold toggleLatch
  dsimp only
  split
  · refine ⟨?_, rfl, rfl⟩
    split
    next hne => exact hfree (by simpa using hne)
    next => rfl
  · exact ⟨rfl, rfl, rfl⟩

theorem LocksMirror.toggleLatch (h : s.LocksMirror) (kind : ModifierKind) :
    (s.toggleLatch kind).LocksMirror := by
  obtain ⟨hlocked, hcaps, -⟩ := toggleLatch_locks h kind
  unfold LocksMirror
  rw [hlocked, hcaps]
  exact h

theorem LocksMirror.press (h : s.LocksMirror) (key : PhysicalKey) (now : ℕ) :
    (s.press key now).1.LocksMirror := by
  unfold KeyboardState.press
  split
  · exact h
  · split
    · exact h
    · cases key.modifierKind with
      | some kind => exact h
      | none => cases key.isLockKey <;> exact h

theorem LocksMirror.release (h : s.LocksMirror) (key : PhysicalKey) (now : ℕ) :
    (s.release key now).1.LocksMirror := by
  unfold KeyboardState.release
  split
  · exact h
  · cases key.modifierKind with
    | some kind =>
      simp only [releaseModifier]
      split
      · have hfree : LocksMirror { s with
            tapTrack := (takeEntry s.tapTrack key).1
            depressed := (s.depressed.remove key).1 } := h
        exact hfree.toggleLatch kind
      · exact h
    | none =>
      cases key.isLockKey with
      | true =>
        simp only [releaseLock, if_true]
        split
        · have hlocked := h
          unfold LocksMirror at hlocked ⊢
          cases hcaps : s.capsLock <;> simp [toggleCapsLock, updateLayer, hlocked, hcaps] <;> rfl
        · exact h
        · exact h
      | false =>
        simp only [releaseNormal, Bool.false_eq_true, if_false]
        split <;> exact h

theorem locksMirror_run (settings : StateSettings) (calls : List Call) :
    (run KeyboardState.step (new settings) calls).LocksMirror := by
  apply run_invariant LocksMirror
  · rfl
  · intro s c h
    cases c with
    | press key now => exact h.press key now
    | release key now => exact h.release key now
    | releaseAll => exact h

theorem step_settings (s : KeyboardState) (c : Call) : (s.step c).1.settings = s.settings := by
  have he := step_effect s c
  generalize (s.step c).1 = s' at he ⊢
  generalize eventsOf (s.step c).2 = events at he
  cases he with
  | quiet => rfl
  | press _ _ hs => exact hs
  | release _ hs => exact hs
  | releaseAll _ _ hs => exact hs

/-! ### The track a release finds -/

theorem takeEntry_snd {β : Type} (t : SlotTable (PhysicalKey × β) maxHeldKeys)
    (key : PhysicalKey) :
    (takeEntry t key).2 = (t.entries.find? (·.1 == key)).map Prod.snd := by
  rw [List.find?_eq_bind_findIdx?_getElem?, takeEntry, t.position_eq]
  cases t.entries.findIdx? (·.1 == key) <;> rfl

/-- The track that the release after a press finds: one that was left behind comes first. -/
theorem takeEntry_push (s : KeyboardState) (key : PhysicalKey) (track : TapTrack) :
    (takeEntry (s.tapTrack.push (key, track)) key).2 =
      (s.trackOf key).or (if s.tapTrack.len < maxHeldKeys then some track else none) := by
  rw [takeEntry_snd, SlotTable.entries_push, trackOf]
  split
  · rw [List.find?_append]
    cases s.tapTrack.entries.find? (·.1 == key) <;> simp
  · simp

theorem releaseModifier_of_tap (h : s.isTap (takeEntry s.tapTrack key).2 up = true)
    (hlatch : s.settings.latchEnabled = true) : (s.releaseModifier key kind up).1 =
      toggleLatch { s with
        tapTrack := (takeEntry s.tapTrack key).1
        depressed := (s.depressed.remove key).1 } kind := by
  simp [releaseModifier, h, hlatch]

theorem releaseModifier_of_not_tap (h : s.isTap (takeEntry s.tapTrack key).2 up = false) :
    (s.releaseModifier key kind up).1 =
      { s with
        tapTrack := (takeEntry s.tapTrack key).1
        depressed := (s.depressed.remove key).1 } := by
  simp [releaseModifier, h]

/-! ### Toggling -/

theorem bits_toggle (bits : UInt8) (kind : ModifierKind) :
    (if bits &&& kind.bit = kind.bit then bits &&& ~~~ kind.bit else bits ||| kind.bit) =
      bits ^^^ kind.bit := by
  obtain ⟨b⟩ := bits
  cases kind <;> revert b <;> decide +kernel

theorem engaged_iff (h : s.LocksMirror) :
    s.engaged kind = true ↔ s.latched.contains (.ofKind kind) = true := by
  have hfree : (kind != .shift && s.locked.contains (.ofKind kind)) = false := by
    rw [h]
    cases s.capsLock <;> cases kind <;> rfl
  rw [engaged, hfree, Bool.or_false]

theorem toggleLatch_toggles (h : s.LocksMirror) (kind : ModifierKind) :
    TogglesLatch kind s (s.toggleLatch kind) := by
  obtain ⟨hlocked, hcaps, hnum⟩ := toggleLatch_locks h kind
  refine ⟨?_, hlocked, hcaps, hnum⟩
  rw [← bits_toggle]
  unfold toggleLatch
  dsimp only
  split
  next hon =>
    have hbit : s.latched.bits &&& kind.bit = kind.bit := by
      simpa [ModifierSet.contains, ModifierSet.ofKind] using (engaged_iff h).mp hon
    rw [if_pos hbit]
    rfl
  next hoff =>
    have hbit : ¬ s.latched.bits &&& kind.bit = kind.bit := by
      simpa [ModifierSet.contains, ModifierSet.ofKind] using mt (engaged_iff h).mpr hoff
    rw [if_neg hbit]
    rfl

theorem not_toggles {s' : KeyboardState} (h : s'.latched = s.latched) :
    ¬ TogglesLatch kind s s' := by
  intro ht
  have hbits := ht.latched
  rw [h] at hbits
  have hzero : kind.bit = 0 := by
    calc kind.bit = s.latched.bits ^^^ (s.latched.bits ^^^ kind.bit) := by
          rw [← UInt8.xor_assoc, UInt8.xor_self, UInt8.zero_xor]
      _ = 0 := by rw [← hbits, UInt8.xor_self]
  cases kind <;> cases hzero

/-! ### Taps -/

theorem othersHeld_false
    (h : ∀ key' ∈ s.depressed, ∀ kind', key'.modifierKind = some kind' → kind' = kind) :
    s.othersHeld kind = false := by
  unfold othersHeld
  rw [List.any_eq_false]
  intro key' hmem
  cases hk : key'.modifierKind with
  | none => simp
  | some kind' => simp [h key' (KeySet.mem_def.mpr hmem) kind' hk]

/-- What a tap comes to: with no room for the key only its press is tracked; otherwise the
release finds the first track of the key. -/
theorem tap_eq (hk : key.modifierKind = some kind) (hup : key ∉ s.depressed)
    (hroom : s.depressed.len < s.settings.maxHeldKeys) :
    s.tap key down up =
      if s.depressed.len < maxHeldKeys then
        (((s.pressModifier key kind down).1.updateLayer).releaseModifier key kind up).1.updateLayer
      else (s.pressModifier key kind down).1.updateLayer := by
  have hpress : (s.press key down).1 = (s.pressModifier key kind down).1.updateLayer := by
    rw [press, if_neg (mt KeySet.contains_iff.mp hup), if_neg (Nat.not_le.mpr hroom), hk]
  have hdown : (s.pressModifier key kind down).1.updateLayer.depressed =
      s.depressed.insert key := rfl
  rw [tap, hpress, release, hdown]
  split
  next hout =>
    rw [if_neg]
    intro hlt
    simp [KeySet.contains_iff.mpr ((KeySet.mem_insert hlt).mpr (.inl rfl))] at hout
  next hin =>
    have hlt : s.depressed.len < maxHeldKeys := by
      by_contra hfull
      rw [KeySet.insert_full (Nat.not_lt.mp hfull)] at hin
      simp [mt KeySet.contains_iff.mp hup] at hin
    rw [if_pos hlt, hk]

/-- A tap on a modifier toggles its latch exactly when the release finds the track of a tap
that ends now: its own, unless one was left behind. -/
theorem tap_toggles_iff {settings : StateSettings} (hlatch : settings.latchEnabled = true)
    (calls : List Call) (hs : run KeyboardState.step (new settings) calls = s)
    (hk : key.modifierKind = some kind) (hup : key ∉ s.depressed)
    (hothers : ∀ key' ∈ s.depressed, ∀ kind', key'.modifierKind = some kind' → kind' = kind)
    (hroom : s.depressed.len < settings.maxHeldKeys)
    (hfast : saturatingDurationSince up down < settings.tapTimeout) :
    TogglesLatch kind s (s.tap key down up) ↔ s.TracksTap key up := by
  have hlocks : s.LocksMirror := hs ▸ locksMirror_run settings calls
  have hsettings : s.settings = settings := by
    rw [← hs]
    apply run_invariant fun s' : KeyboardState => s'.settings = settings
    · rfl
    · exact fun s' c h => (step_settings s' c).trans h
  have hroom' : s.depressed.len < s.settings.maxHeldKeys := hsettings ▸ hroom
  rw [tap_eq hk hup hroom']
  by_cases hlt : s.depressed.len < maxHeldKeys
  · let s₁ := (s.pressModifier key kind down).1.updateLayer
    have hfound : (takeEntry s₁.tapTrack key).2 =
        (s.trackOf key).or (if s.tapTrack.len < maxHeldKeys then some ⟨down, false⟩ else none) := by
      rw [← takeEntry_push, ← othersHeld_false hothers]
      rfl
    have htap : s₁.isTap (takeEntry s₁.tapTrack key).2 up = true ↔ s.TracksTap key up := by
      rw [hfound, TracksTap]
      cases s.trackOf key with
      | some track => exact (and_iff_right hlt).symm
      | none =>
        have hown : s₁.isTap (some ⟨down, false⟩) up = true := by
          have hfast' : saturatingDurationSince up down < s₁.settings.tapTimeout :=
            hsettings ▸ hfast
          simpa [isTap] using hfast'
        split
        next hfree => simp [hown, hlt, hfree]
        next hfull => simp [isTap, hfull]
    rw [if_pos hlt, ← htap]
    have hlatch' : s₁.settings.latchEnabled = true := hsettings ▸ hlatch
    constructor
    · intro ht
      by_contra hno
      rw [releaseModifier_of_not_tap (by simpa using hno)] at ht
      exact absurd ht (not_toggles rfl)
    · intro hyes
      have ht := toggleLatch_toggles (s := { s₁ with
        tapTrack := (takeEntry s₁.tapTrack key).1
        depressed := (s₁.depressed.remove key).1 }) hlocks kind
      rw [releaseModifier_of_tap hyes hlatch']
      exact ⟨ht.latched, ht.locked, ht.capsLock, ht.numLock⟩
  · rw [if_neg hlt]
    exact iff_of_false (not_toggles rfl) fun h => hlt h.1

theorem tap_toggles_leftShift :
    TogglesLatch .shift (new ⟨true, 400000000, 16⟩)
        ((new ⟨true, 400000000, 16⟩).tap .leftShift 0 80) ↔
      (new ⟨true, 400000000, 16⟩).TracksTap .leftShift 80 :=
  tap_toggles_iff rfl [] rfl rfl (by decide) (fun _ h => absurd h (by simp [new])) (by decide)
    (by decide)

/-- After the letter took the shift with it, the next tap on shift is not seen as one. -/
theorem reclaimedShift_not_toggles :
    ∃ s, run KeyboardState.step (new ⟨true, 400000000, 16⟩) reclaimedShift = s ∧
      s.depressed.keys = [] ∧ ¬ TogglesLatch .shift s (s.tap .leftShift 10000 10080) := by
  refine ⟨_, rfl, by decide, fun h => ?_⟩
  have hbits := h.latched
  revert hbits
  decide

end KeyboardState

end Ferrokey
