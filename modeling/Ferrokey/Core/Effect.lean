import Ferrokey.Core.State

/-! # What one call can do

Every call of the state machine is quiet, or presses some keys that were up, or
releases some keys that were down, or releases them all. `Effect` says which keys
and in which order; the results about runs are read off it.
-/

namespace Ferrokey

open Collections Machine

namespace PhysicalKey

/-- Neither a modifier nor a lock key. -/
def isOrdinary (key : PhysicalKey) : Bool := !key.isModifier && !key.isLockKey

end PhysicalKey

namespace KeySet

variable {s : KeySet} {key : PhysicalKey} {keys : List PhysicalKey}

def insertAll (s : KeySet) (keys : List PhysicalKey) : KeySet := keys.foldl insert s

theorem insertAll_concat : s.insertAll (keys ++ [key]) = (s.insertAll keys).insert key := by
  rw [insertAll, List.foldl_append]
  rfl

theorem mem_of_mem_insert {key' : PhysicalKey} (h : key' ∈ s.insert key) :
    key' = key ∨ key' ∈ s := by
  by_cases hl : s.len < maxHeldKeys
  · exact (mem_insert hl).mp h
  · rw [insert_full (Nat.not_lt.mp hl)] at h
    exact Or.inr h

/-- Absent distinct keys are all added as far as there is room. -/
theorem len_insertAll (hn : keys.Nodup) (hu : ∀ key ∈ keys, key ∉ s) :
    (s.insertAll keys).len = min maxHeldKeys (s.len + keys.length) := by
  induction keys generalizing s with
  | nil => exact (Nat.min_eq_right s.len_le).symm
  | cons key keys ih =>
    obtain ⟨hk, hn⟩ := List.nodup_cons.mp hn
    obtain ⟨hu₀, hu⟩ := List.forall_mem_cons.mp hu
    have hu' : ∀ key' ∈ keys, key' ∉ s.insert key := by
      intro key' hm hin
      rcases mem_of_mem_insert hin with rfl | hin
      · exact hk hm
      · exact hu key' hm hin
    have hstep := ih hn hu'
    rw [List.length_cons]
    by_cases hl : s.len < maxHeldKeys
    · rw [len_insert hl hu₀] at hstep
      exact hstep.trans (by omega)
    · rw [insert_full (Nat.not_lt.mp hl)] at hstep
      have hfull : s.len = maxHeldKeys := le_antisymm s.len_le (Nat.not_lt.mp hl)
      have hins : s.insertAll (key :: keys) = s.insertAll keys := by
        rw [insertAll, List.foldl_cons, insert_full hfull.ge]
        rfl
      rw [hins, ih hn hu]
      omega

theorem mem_insert_of_mem {key' : PhysicalKey} (h : key' ∈ s) : key' ∈ s.insert key := by
  by_cases hl : s.len < maxHeldKeys
  · exact (mem_insert hl).mpr (Or.inr h)
  · rwa [insert_full (Nat.not_lt.mp hl)]

theorem mem_insertAll_of_mem {key' : PhysicalKey} (h : key' ∈ s) : key' ∈ s.insertAll keys := by
  induction keys generalizing s with
  | nil => exact h
  | cons key keys ih => exact ih (mem_insert_of_mem h)

theorem mem_of_mem_insertAll {key' : PhysicalKey} (h : key' ∈ s.insertAll keys) :
    key' ∈ s ∨ key' ∈ keys := by
  induction keys generalizing s with
  | nil => exact Or.inl h
  | cons key keys ih =>
    rcases ih (s := s.insert key) h with h | h
    · rcases mem_of_mem_insert h with rfl | h
      · exact Or.inr List.mem_cons_self
      · exact Or.inl h
    · exact Or.inr (List.mem_cons_of_mem _ h)

/-- With room for all of them, exactly the given keys are added. -/
theorem mem_insertAll {key' : PhysicalKey} (h : s.len + keys.length ≤ maxHeldKeys) :
    key' ∈ s.insertAll keys ↔ key' ∈ s ∨ key' ∈ keys := by
  induction keys generalizing s with
  | nil => simp [insertAll]
  | cons key keys ih =>
    rw [List.length_cons] at h
    have hl : s.len < maxHeldKeys := by omega
    have hle : (s.insert key).len ≤ s.len + 1 := by
      by_cases hk : key ∈ s
      · rw [insert, dif_pos (Or.inr (contains_iff.mpr hk))]
        omega
      · exact (len_insert hl hk).le
    have hstep : key' ∈ (s.insert key).insertAll keys ↔ _ := ih (by omega)
    rw [insertAll, List.foldl_cons]
    rw [insertAll] at hstep
    rw [hstep, mem_insert hl, List.mem_cons]
    tauto

end KeySet

namespace KeyboardState

/-- The keys of the kinds that are engaged but not held. -/
def wanted (s : KeyboardState) (kinds : List ModifierKind) : List PhysicalKey :=
  (kinds.filter fun kind =>
    s.engaged kind && !s.heldModifiers.contains (.ofKind kind)).map ModifierKind.preferredKey

/-- The modifier keys a press of an ordinary key would inject now. -/
def injections (s : KeyboardState) : List PhysicalKey := s.wanted ModifierKind.all

/-- The keys a press of this key would put down now, in order. -/
def presses (s : KeyboardState) (key : PhysicalKey) : List PhysicalKey :=
  if key.isOrdinary then s.injections ++ [key] else [key]

/-- The modifiers recorded as injected for a key. -/
def injectedFor (s : KeyboardState) (key : PhysicalKey) : List PhysicalKey :=
  match (takeEntry s.injectedMods key).2 with
  | some injected => injected.keys
  | none => []

/-- The keys a release of this key would let go now, as far as they are down. -/
def releases (s : KeyboardState) (key : PhysicalKey) : List PhysicalKey :=
  if key.isOrdinary then key :: s.injectedFor key else [key]

section Injection

variable {s : KeyboardState} {key : PhysicalKey}

/-- The held modifiers are the kinds of the depressed keys. -/
theorem heldModifiers_eq (s : KeyboardState) : s.heldModifiers =
    .ofKinds fun kind => s.depressed.keys.any fun key => key.modifierKind == some kind := by
  unfold heldModifiers
  induction s.depressed.keys using List.reverseRecOn with
  | nil => rfl
  | append_singleton keys key ih =>
    rw [List.foldl_append, ih, List.foldl_cons, List.foldl_nil]
    cases hk : key.modifierKind with
    | none => simp [hk]
    | some kind =>
      simp only [ModifierSet.insert_ofKinds, List.any_append, List.any_cons, List.any_nil,
        Bool.or_false, hk]
      exact congrArg _ (funext fun k => by simp [eq_comm, Bool.beq_eq_decide_eq])

theorem heldModifiers_contains_iff {kind : ModifierKind} :
    s.heldModifiers.contains (.ofKind kind) = true ↔
      ∃ key ∈ s.depressed, key.modifierKind = some kind := by
  rw [heldModifiers_eq, ModifierSet.contains_ofKinds, List.any_eq_true]
  simp [KeySet.mem_def]

theorem mem_wanted {kinds : List ModifierKind} (h : key ∈ s.wanted kinds) :
    key.isModifier = true ∧ key ∉ s.depressed := by
  obtain ⟨kind, hf, rfl⟩ := List.mem_map.mp h
  refine ⟨by simp [PhysicalKey.isModifier], fun hd => ?_⟩
  have hheld := heldModifiers_contains_iff.mpr ⟨_, hd, kind.modifierKind_preferredKey⟩
  simp [hheld] at hf

theorem nodup_injections : s.injections.Nodup := by
  have hall : ModifierKind.all.Nodup := by decide
  exact (hall.filter _).map fun _ _ h => ModifierKind.preferredKey_injective h

theorem length_injections_le : s.injections.length ≤ ModifierKind.count := by
  rw [injections, wanted, List.length_map]
  exact List.length_filter_le _ _

/-- The injection loop over some kinds presses the wanted keys, room or not. -/
theorem foldl_injectKind {kinds : List ModifierKind} (hn : kinds.Nodup)
    (hl : kinds.length ≤ ModifierKind.count) :
    kinds.foldl (s.injectKind s.heldModifiers) (s.depressed, .new, []) =
      (s.depressed.insertAll (s.wanted kinds), ⟨s.wanted kinds⟩,
        (s.wanted kinds).map .down) := by
  induction kinds using List.reverseRecOn with
  | nil => rfl
  | append_singleton kinds kind ih =>
    obtain ⟨hn₀, -, hne⟩ := List.nodup_append.mp hn
    rw [List.length_append, List.length_singleton] at hl
    rw [List.foldl_append, ih hn₀ (by omega), List.foldl_cons, List.foldl_nil, injectKind]
    by_cases hw : (s.engaged kind && !s.heldModifiers.contains (.ofKind kind)) = true
    · have hcons : s.wanted (kinds ++ [kind]) = s.wanted kinds ++ [kind.preferredKey] := by
        simp [wanted, List.filter_append, hw]
      have hmem : kind.preferredKey ∈ s.wanted [kind] := by simp [wanted, hw]
      have habsent : kind.preferredKey ∉ s.depressed.insertAll (s.wanted kinds) := by
        intro hin
        rcases KeySet.mem_of_mem_insertAll hin with hin | hin
        · exact (mem_wanted hmem).2 hin
        · obtain ⟨kind', hk, he⟩ := List.mem_map.mp hin
          exact hne kind' (List.mem_filter.mp hk).1 kind List.mem_cons_self
            (ModifierKind.preferredKey_injective he)
      have hroom : (s.wanted kinds).length < ModifierKind.count := by
        have hle : (s.wanted kinds).length ≤ kinds.length := by
          rw [wanted, List.length_map]
          exact List.length_filter_le _ _
        omega
      rw [if_pos hw, hcons]
      simp [habsent, hroom, InjectedMods.push, KeySet.insertAll_concat]
    · have hcons : s.wanted (kinds ++ [kind]) = s.wanted kinds := by
        simp [wanted, List.filter_append, hw]
      rw [if_neg hw, hcons]

theorem inject_eq (s : KeyboardState) :
    s.inject = (s.depressed.insertAll s.injections, ⟨s.injections⟩, s.injections.map .down) :=
  foldl_injectKind (by decide) (by decide)

end Injection

/-- Everything one call can do to the settings and to the keys that are down, with the
events it delivers. -/
inductive Effect (s : KeyboardState) : Call → KeyboardState → List KeyEvent → Prop where
  | quiet {c : Call} :
      (∀ key now, c = .press key now →
        key ∈ s.depressed ∨ s.settings.maxHeldKeys ≤ s.depressed.len) →
      (∀ key now, c = .release key now → key ∉ s.depressed) →
      c ≠ .releaseAll → Effect s c s []
  | press {key : PhysicalKey} {now : ℕ} {s' : KeyboardState} : key ∉ s.depressed →
      s.depressed.len < s.settings.maxHeldKeys → s'.settings = s.settings →
      s'.depressed = s.depressed.insertAll (s.presses key) →
      Effect s (.press key now) s' ((s.presses key).map .down)
  | release {key : PhysicalKey} {now : ℕ} {s' : KeyboardState} : key ∈ s.depressed →
      s'.settings = s.settings →
      s'.depressed = (releaseInjected s.depressed (s.releases key)).1 →
      Effect s (.release key now) s' (releaseInjected s.depressed (s.releases key)).2
  | releaseAll {s' : KeyboardState} {keys : List PhysicalKey} : keys.Nodup →
      (∀ key, key ∈ keys ↔ key ∈ s.depressed) → s'.settings = s.settings →
      s'.depressed = .new → Effect s .releaseAll s' (keys.map .up)

section Steps

variable {s : KeyboardState} {key : PhysicalKey} {now : ℕ}

theorem press_effect (s : KeyboardState) (key : PhysicalKey) (now : ℕ) :
    Effect s (.press key now) (s.press key now).1 (eventsOf (s.press key now).2) := by
  unfold press
  by_cases hd : key ∈ s.depressed
  · rw [if_pos (KeySet.contains_iff.mpr hd)]
    exact .quiet (fun _ _ h => by cases h; exact Or.inl hd) (by simp) (by simp)
  rw [if_neg (mt KeySet.contains_iff.mp hd)]
  by_cases hl : s.settings.maxHeldKeys ≤ s.depressed.len
  · rw [if_pos hl]
    exact .quiet (fun _ _ h => by cases h; exact Or.inr hl) (by simp) (by simp)
  rw [if_neg hl]
  cases hk : key.modifierKind with
  | some kind =>
    have hp : s.presses key = [key] := by
      simp [presses, PhysicalKey.isOrdinary, PhysicalKey.isModifier, hk]
    have he : Effect s (.press key now) (s.pressModifier key kind now).1.updateLayer
        ((s.presses key).map .down) := .press hd (Nat.lt_of_not_le hl) rfl (by rw [hp]; rfl)
    rwa [hp] at he
  | none =>
    cases hlock : key.isLockKey with
    | true =>
      have hp : s.presses key = [key] := by
        simp [presses, PhysicalKey.isOrdinary, hlock]
      have he : Effect s (.press key now) (s.pressLock key).1.updateLayer
          ((s.presses key).map .down) := .press hd (Nat.lt_of_not_le hl) rfl (by rw [hp]; rfl)
      rwa [hp] at he
    | false =>
      have hp : s.presses key = s.injections ++ [key] := by
        simp [presses, PhysicalKey.isOrdinary, PhysicalKey.isModifier, hk, hlock]
      have hn : s.pressNormal key = ((s.pressNormal key).1, (s.presses key).map .down) := by
        simp [pressNormal, inject_eq, hp]
      have hdep : (s.pressNormal key).1.depressed = s.depressed.insertAll (s.presses key) := by
        rw [pressNormal, inject_eq, hp, KeySet.insertAll_concat]
      have he : Effect s (.press key now) (s.pressNormal key).1.updateLayer
          ((s.presses key).map .down) :=
        .press hd (Nat.lt_of_not_le hl) (by rw [pressNormal, inject_eq]; rfl) hdep
      simp only [Bool.false_eq_true, if_false, eventsOf]
      rw [hn]
      exact he

theorem releaseInjected_cons (h : key ∈ s.depressed) (keys : List PhysicalKey) :
    releaseInjected s.depressed (key :: keys) =
      ((releaseInjected (s.depressed.remove key).1 keys).1,
        .up key :: (releaseInjected (s.depressed.remove key).1 keys).2) := by
  rw [releaseInjected, if_pos (KeySet.remove_snd.mpr h)]

theorem releaseNormal_eq (s : KeyboardState) (key : PhysicalKey) :
    (s.releaseNormal key).1.depressed =
        (releaseInjected (s.depressed.remove key).1 (s.injectedFor key)).1 ∧
      (s.releaseNormal key).2 =
        .up key :: (releaseInjected (s.depressed.remove key).1 (s.injectedFor key)).2 := by
  unfold releaseNormal injectedFor
  cases takeEntry s.injectedMods key with
  | mk table o => cases o <;> exact ⟨rfl, rfl⟩

theorem release_effect (s : KeyboardState) (key : PhysicalKey) (now : ℕ) :
    Effect s (.release key now) (s.release key now).1 (eventsOf (s.release key now).2) := by
  unfold release
  by_cases hd : key ∈ s.depressed
  swap
  · rw [if_pos (by rw [Bool.not_eq_true', Bool.eq_false_iff]; exact mt KeySet.contains_iff.mp hd)]
    exact .quiet (by simp) (fun _ _ h => by cases h; exact hd) (by simp)
  rw [if_neg (by simpa using hd)]
  have hcons := releaseInjected_cons hd
  cases hk : key.modifierKind with
  | some kind =>
    have hr : s.releases key = [key] := by
      simp [releases, PhysicalKey.isOrdinary, PhysicalKey.isModifier, hk]
    have he : Effect s (.release key now) (s.releaseModifier key kind now).1.updateLayer
        (releaseInjected s.depressed (s.releases key)).2 :=
      .release hd (by simp) (by rw [hr, hcons]; simp [releaseInjected])
    rwa [hr, hcons] at he
  | none =>
    cases hlock : key.isLockKey with
    | true =>
      have hr : s.releases key = [key] := by
        simp [releases, PhysicalKey.isOrdinary, hlock]
      have he : Effect s (.release key now) (s.releaseLock key).1.updateLayer
          (releaseInjected s.depressed (s.releases key)).2 :=
        .release hd (by simp) (by rw [hr, hcons]; simp [releaseInjected])
      rwa [hr, hcons] at he
    | false =>
      have hr : s.releases key = key :: s.injectedFor key := by
        simp [releases, PhysicalKey.isOrdinary, PhysicalKey.isModifier, hk, hlock]
      have he : Effect s (.release key now) (s.releaseNormal key).1.updateLayer
          (releaseInjected s.depressed (s.releases key)).2 :=
        .release hd (by simp) (by rw [hr, hcons, updateLayer_depressed, (releaseNormal_eq s key).1])
      simp only [Bool.false_eq_true, if_false, eventsOf]
      rwa [hr, hcons, ← (releaseNormal_eq s key).2] at he

theorem nodup_releasedKeys (s : KeyboardState) : s.releasedKeys.Nodup := by
  have hnodup : s.depressed.keys.reverse.Nodup := List.nodup_reverse.mpr s.depressed.nodup
  refine List.nodup_append.mpr ⟨hnodup.filter _, hnodup.filter _, ?_⟩
  intro key hkey key' hkey' heq
  have hplain := (List.mem_filter.mp hkey).2
  have hmod := (List.mem_filter.mp hkey').2
  rw [heq] at hplain
  simp [hmod] at hplain

theorem mem_releasedKeys {s : KeyboardState} {key : PhysicalKey} :
    key ∈ s.releasedKeys ↔ key ∈ s.depressed := by
  simp only [releasedKeys, List.mem_append, List.mem_filter, List.mem_reverse, KeySet.mem_def]
  cases key.isModifier <;> simp

theorem releaseAll_effect (s : KeyboardState) :
    Effect s .releaseAll s.releaseAll.1 s.releaseAll.2 := by
  rw [releaseAll_snd]
  exact .releaseAll (nodup_releasedKeys s) (fun _ => mem_releasedKeys) rfl rfl

theorem mem_releaseInjected {d : KeySet} {keys : List PhysicalKey} {key : PhysicalKey} :
    key ∈ (releaseInjected d keys).1 ↔ key ∈ d ∧ key ∉ keys := by
  induction keys generalizing d with
  | nil => simp [releaseInjected]
  | cons key' keys ih =>
    rw [releaseInjected, ih, KeySet.mem_remove, List.mem_cons]
    tauto

/-- A cascade lets go of exactly those of its keys that are down. -/
theorem up_mem_releaseInjected {key : PhysicalKey} (d : KeySet) (keys : List PhysicalKey) :
    .up key ∈ (releaseInjected d keys).2 ↔ key ∈ d ∧ key ∈ keys := by
  induction keys generalizing d with
  | nil => simp [releaseInjected]
  | cons key' keys ih =>
    have hrest : .up key ∈ (releaseInjected (d.remove key').1 keys).2 ↔
        (key ≠ key' ∧ key ∈ d) ∧ key ∈ keys := by rw [ih, KeySet.mem_remove]
    by_cases hd : key' ∈ d
    · rw [releaseInjected, if_pos (KeySet.remove_snd.mpr hd), List.mem_cons, hrest, List.mem_cons]
      by_cases he : key = key'
      · simp [he, hd]
      · simp [he]
    · rw [releaseInjected, if_neg (mt KeySet.remove_snd.mp hd), hrest, List.mem_cons]
      by_cases he : key = key'
      · simp [he, hd]
      · simp [he]

/-- A press lets go of nothing. -/
theorem mem_press_of_mem {key' : PhysicalKey} (h : key' ∈ s.depressed) :
    key' ∈ (s.press key now).1.depressed := by
  have he := press_effect s key now
  generalize (s.press key now).1 = s' at he ⊢
  generalize eventsOf (s.press key now).2 = events at he
  cases he with
  | quiet => exact h
  | press _ _ _ hd =>
    rw [hd]
    exact KeySet.mem_insertAll_of_mem h

/-- A release lets go of exactly the keys that go with it. -/
theorem mem_release {key' : PhysicalKey} :
    key' ∈ (s.release key now).1.depressed ↔
      key' ∈ s.depressed ∧ (key ∈ s.depressed → key' ∉ s.releases key) := by
  have he := release_effect s key now
  generalize (s.release key now).1 = s' at he ⊢
  generalize eventsOf (s.release key now).2 = events at he
  cases he with
  | quiet _ hr =>
    have hk : key ∉ s.depressed := hr key now rfl
    simp [hk]
  | release hk _ hd => rw [hd, mem_releaseInjected, forall_prop_of_true hk]

/-- Every call has one of the effects. -/
theorem step_effect (s : KeyboardState) (c : Call) :
    Effect s c (s.step c).1 (eventsOf (s.step c).2) := by
  cases c with
  | press key now => exact press_effect s key now
  | release key now => exact release_effect s key now
  | releaseAll => exact releaseAll_effect s

end Steps

end KeyboardState

end Ferrokey
