import Ferrokey.Core.Chord
import Mathlib.Data.List.Perm.Subperm

/-! # Records of injected modifiers

What was injected for a key is kept on record until that key is released. While the table of
held keys has room, only keys that are down are on record, each of them once. So the release of
a key lets go of what its own press injected, and a tap of a key that was up changes nothing.
-/

namespace Ferrokey

open Collections Machine

namespace KeyboardState

/-- The records of injected modifiers are for ordinary keys that are down, one for each. -/
structure Tidy (s : KeyboardState) : Prop where
  injectsModifiers : s.InjectsModifiers
  recorded : ∀ entry ∈ s.injectedMods.entries,
    entry.1 ∈ s.depressed ∧ entry.1.isOrdinary = true
  nodup : (s.injectedMods.entries.map Prod.fst).Nodup

/-- The cap leaves room for what a press can inject. -/
def Capped (s : KeyboardState) : Prop :=
  s.settings.maxHeldKeys + ModifierKind.count ≤ Ferrokey.maxHeldKeys

variable {s : KeyboardState} {key key' : PhysicalKey} {now : ℕ}

theorem Capped.of_settings {s' : KeyboardState} (h : s.Capped)
    (hs : s'.settings = s.settings) : s'.Capped := by
  rw [Capped, hs]
  exact h

theorem injectedFor_eq (s : KeyboardState) (key : PhysicalKey) : s.injectedFor key =
    ((s.injectedMods.entries.find? (·.1 == key)).map fun entry => entry.2.keys).getD [] := by
  rw [injectedFor, takeEntry_snd]
  cases s.injectedMods.entries.find? (·.1 == key) <;> rfl

theorem Tidy.injectedFor_absent (h : s.Tidy) (hk : key ∉ s.depressed) : s.injectedFor key = [] := by
  have hnone : s.injectedMods.entries.find? (·.1 == key) = none := by
    rw [List.find?_eq_none]
    intro entry he heq
    exact hk (beq_iff_eq.mp heq ▸ (h.recorded entry he).1)
  rw [injectedFor_eq, hnone]
  rfl

theorem InjectsModifiers.mem_injectedFor (h : s.InjectsModifiers) {mod : PhysicalKey}
    (hm : mod ∈ s.injectedFor key) : mod.isModifier = true := by
  rw [injectedFor_eq] at hm
  cases hf : s.injectedMods.entries.find? (·.1 == key) with
  | none => simp [hf] at hm
  | some entry => exact h entry (List.mem_of_find?_eq_some hf) mod (by simpa [hf] using hm)

/-! ### What a press does -/

/-- A press that is accepted puts its keys down. -/
theorem mem_press (hcap : s.Capped) : key' ∈ (s.press key now).1.depressed ↔ key' ∈ s.depressed ∨
    key ∉ s.depressed ∧ s.depressed.len < s.settings.maxHeldKeys ∧ key' ∈ s.presses key := by
  have hroom : s.HasRoom (.press key now) := hasRoom_of_settings hcap _
  have he := press_effect s key now
  generalize (s.press key now).1 = s' at he ⊢
  generalize eventsOf (s.press key now).2 = events at he
  cases he with
  | quiet hq =>
    have hno : ¬ (key ∉ s.depressed ∧ s.depressed.len < s.settings.maxHeldKeys) := by
      rintro ⟨hd, hl⟩
      rcases hq key now rfl with hin | hfull
      · exact hd hin
      · omega
    tauto
  | press hd hl _ hdown =>
    rw [hdown, KeySet.mem_insertAll (hroom hd hl)]
    tauto

theorem press_settings (s : KeyboardState) (key : PhysicalKey) (now : ℕ) :
    (s.press key now).1.settings = s.settings := step_settings s (.press key now)

theorem release_settings (s : KeyboardState) (key : PhysicalKey) (now : ℕ) :
    (s.release key now).1.settings = s.settings := step_settings s (.release key now)

/-- The records after a press: one more, if an ordinary key is pressed and modifiers are
injected for it. -/
theorem press_records (s : KeyboardState) (key : PhysicalKey) (now : ℕ) :
    (s.press key now).1.injectedMods = s.injectedMods ∨
      key ∉ s.depressed ∧ s.depressed.len < s.settings.maxHeldKeys ∧ key.isOrdinary = true ∧
        0 < s.injections.length ∧
        (s.press key now).1.injectedMods = s.injectedMods.push (key, ⟨s.injections⟩) := by
  by_cases hd : key ∈ s.depressed
  · rw [press_held hd]
    exact .inl rfl
  by_cases hl : s.depressed.len < s.settings.maxHeldKeys
  swap
  · rw [press_full hd (Nat.le_of_not_lt hl)]
    exact .inl rfl
  cases hk : key.modifierKind with
  | some kind =>
    rw [press_modifier hd hl now hk]
    exact .inl rfl
  | none =>
    cases hlock : key.isLockKey with
    | true =>
      rw [press_lock hd hl now hk hlock]
      exact .inl rfl
    | false =>
      have hord := PhysicalKey.isOrdinary_iff.mpr ⟨hk, hlock⟩
      rw [press_ordinary hd hl now hord]
      simp only [pressNormal_eq, updateLayer]
      split
      next hpos => exact .inr ⟨hd, hl, hord, hpos, rfl⟩
      next => exact .inl rfl

/-- There are no more records than keys that are down. -/
theorem Tidy.records_le (h : s.Tidy) : s.injectedMods.len ≤ s.depressed.len := by
  have hsub : s.injectedMods.entries.map Prod.fst ⊆ s.depressed.keys := by
    intro key hm
    obtain ⟨entry, he, rfl⟩ := List.mem_map.mp hm
    exact KeySet.mem_def.mp (h.recorded entry he).1
  have hle := (h.nodup.subperm hsub).length_le
  rwa [List.length_map, SlotTable.length_entries, KeySet.length_keys] at hle

theorem Tidy.entries_push (h : s.Tidy) (hcap : s.Capped)
    (hl : s.depressed.len < s.settings.maxHeldKeys) (entry : PhysicalKey × InjectedMods) :
    (s.injectedMods.push entry).entries = s.injectedMods.entries ++ [entry] := by
  have hle := h.records_le
  have hroom : s.settings.maxHeldKeys ≤ Ferrokey.maxHeldKeys := le_trans (Nat.le_add_right _ _) hcap
  rw [SlotTable.entries_push, if_pos (by omega)]

theorem Tidy.press (h : s.Tidy) (hcap : s.Capped) (key : PhysicalKey) (now : ℕ) :
    (s.press key now).1.Tidy := by
  have hgrow : ∀ key' ∈ s.depressed, key' ∈ (s.press key now).1.depressed :=
    fun _ hd => mem_press_of_mem hd
  rcases press_records s key now with hsame | ⟨hd, hl, hord, -, hpush⟩
  · refine ⟨h.injectsModifiers.press key now, ?_, ?_⟩
    · rw [hsame]
      exact fun entry he => ⟨hgrow _ (h.recorded entry he).1, (h.recorded entry he).2⟩
    · rw [hsame]
      exact h.nodup
  · have hentries := h.entries_push hcap hl (key, ⟨s.injections⟩)
    rw [← hpush] at hentries
    refine ⟨h.injectsModifiers.press key now, fun entry he => ?_, ?_⟩
    · rw [hentries, List.mem_append, List.mem_singleton] at he
      rcases he with he | rfl
      · exact ⟨hgrow _ (h.recorded entry he).1, (h.recorded entry he).2⟩
      · exact ⟨(mem_press hcap).mpr (.inr ⟨hd, hl, by simp [presses, hord]⟩), hord⟩
    · rw [hentries, List.map_append, List.map_singleton, ← List.concat_eq_append]
      refine h.nodup.concat fun hm => ?_
      obtain ⟨entry, he, rfl⟩ := List.mem_map.mp hm
      exact hd (h.recorded entry he).1

/-- The record of a key changes with its own press only. -/
theorem Tidy.injectedFor_press_of_ne (h : s.Tidy) (hcap : s.Capped) (hne : key' ≠ key) (now : ℕ) :
    (s.press key now).1.injectedFor key' = s.injectedFor key' := by
  rw [injectedFor_eq, injectedFor_eq]
  rcases press_records s key now with hsame | ⟨hd, hl, hord, -, hpush⟩
  · rw [hsame]
  · rw [hpush, h.entries_push hcap hl, List.find?_append]
    cases s.injectedMods.entries.find? (·.1 == key') <;> simp [hne.symm]

/-- A key that was up is on record with what its press injects. -/
theorem Tidy.injectedFor_press (h : s.Tidy) (hcap : s.Capped) (hd : key ∉ s.depressed)
    (hl : s.depressed.len < s.settings.maxHeldKeys) (hord : key.isOrdinary = true) (now : ℕ) :
    (s.press key now).1.injectedFor key = s.injections := by
  have habsent := h.injectedFor_absent hd
  rw [injectedFor_eq] at habsent ⊢
  have hnone : s.injectedMods.entries.find? (·.1 == key) = none := by
    rw [List.find?_eq_none]
    intro entry he heq
    exact hd (beq_iff_eq.mp heq ▸ (h.recorded entry he).1)
  rw [press_ordinary hd hl now hord]
  simp only [pressNormal_eq, updateLayer]
  split
  next => rw [h.entries_push hcap hl, List.find?_append, hnone]; simp
  next hpos => rw [hnone, List.eq_nil_of_length_eq_zero (Nat.eq_zero_of_not_pos hpos)]; rfl

/-! ### What a release does -/

theorem release_records (s : KeyboardState) (key : PhysicalKey) (now : ℕ) :
    (s.release key now).1.injectedMods.entries = s.injectedMods.entries ∧
        (key ∉ s.depressed ∨ key.isOrdinary = false) ∨
      key ∈ s.depressed ∧ key.isOrdinary = true ∧
        (s.release key now).1.injectedMods.entries =
          s.injectedMods.entries.eraseP (·.1 == key) := by
  by_cases hd : key ∈ s.depressed
  swap
  · rw [release_absent hd]
    exact .inl ⟨rfl, .inl hd⟩
  cases hk : key.modifierKind with
  | some kind =>
    rw [release_modifier hd now hk]
    refine .inl ⟨congrArg _ (releaseModifier_frame s key kind now).1, .inr ?_⟩
    simp [PhysicalKey.isOrdinary, PhysicalKey.isModifier, hk]
  | none =>
    cases hlock : key.isLockKey with
    | true =>
      rw [release_lock hd now hk hlock]
      exact .inl ⟨congrArg _ (releaseLock_frame s key).1,
        .inr (by simp [PhysicalKey.isOrdinary, hlock])⟩
    | false =>
      have hord := PhysicalKey.isOrdinary_iff.mpr ⟨hk, hlock⟩
      refine .inr ⟨hd, hord, ?_⟩
      have he := RepeatEngine.entries_takeEntry s.injectedMods key
      have hsnd := takeEntry_snd s.injectedMods key
      rw [release_ordinary hd now hord, releaseNormal]
      split
      next hr =>
        rw [hr, eq_comm, Option.map_eq_none_iff, List.find?_eq_none] at hsnd
        exact (List.eraseP_of_forall_not hsnd).symm
      next hr =>
        rw [hr] at he
        exact he

theorem Tidy.release (h : s.Tidy) (key : PhysicalKey) (now : ℕ) : (s.release key now).1.Tidy := by
  have hinjects := h.injectsModifiers.release key now
  have hleft : ∀ {entry}, entry ∈ s.injectedMods.entries → entry.1 ≠ key →
      entry.1 ∈ (s.release key now).1.depressed := by
    intro entry he hne
    refine mem_release.mpr ⟨(h.recorded entry he).1, fun _ hm => ?_⟩
    unfold releases at hm
    split at hm
    · rcases List.mem_cons.mp hm with heq | hm
      · exact hne heq
      · have hmod := h.injectsModifiers.mem_injectedFor hm
        have hord := (h.recorded entry he).2
        rw [PhysicalKey.isOrdinary, hmod] at hord
        cases hord
    · exact hne (List.mem_singleton.mp hm)
  rcases release_records s key now with ⟨hsame, hkey⟩ | ⟨-, -, herase⟩
  · refine ⟨hinjects, ?_, hsame ▸ h.nodup⟩
    rw [hsame]
    intro entry he
    refine ⟨hleft he ?_, (h.recorded entry he).2⟩
    rintro rfl
    rcases hkey with hup | hord
    · exact hup (h.recorded entry he).1
    · rw [(h.recorded entry he).2] at hord
      cases hord
  · have hkeys : ((s.release key now).1.injectedMods.entries.map Prod.fst) =
        (s.injectedMods.entries.map Prod.fst).erase key := by
      rw [herase, List.erase_eq_eraseP', List.eraseP_map]
      rfl
    refine ⟨hinjects, fun entry he => ?_, hkeys ▸ h.nodup.erase key⟩
    have hne : entry.1 ≠ key := by
      intro heq
      have hm : key ∈ (s.injectedMods.entries.map Prod.fst).erase key := by
        rw [← hkeys]
        exact List.mem_map.mpr ⟨entry, he, heq⟩
      exact h.nodup.not_mem_erase hm
    rw [herase] at he
    exact ⟨hleft (List.mem_of_mem_eraseP he) hne, (h.recorded entry (List.mem_of_mem_eraseP he)).2⟩

theorem find?_eraseP_of_ne {β : Type} (hne : key' ≠ key) (l : List (PhysicalKey × β)) :
    (l.eraseP (·.1 == key)).find? (·.1 == key') = l.find? (·.1 == key') := by
  induction l with
  | nil => rfl
  | cons entry l ih =>
    by_cases hk : entry.1 = key
    · have hother : (entry.1 == key') = false := by simp [hk, hne.symm]
      rw [List.eraseP_cons_of_pos (by simp [hk]), List.find?_cons, hother]
    · rw [List.eraseP_cons_of_neg (by simp [hk]), List.find?_cons, List.find?_cons, ih]

/-- Of the keys that a release leaves down, none is on record otherwise than before. -/
theorem Tidy.mem_injectedFor_release (h : s.Tidy) {mod : PhysicalKey}
    (hm : mod ∈ (s.release key now).1.depressed) :
    mod ∈ (s.release key now).1.injectedFor key' ↔ mod ∈ s.injectedFor key' := by
  rcases release_records s key now with ⟨hsame, -⟩ | ⟨hd, hord, herase⟩
  · rw [injectedFor_eq, injectedFor_eq, hsame]
  by_cases hne : key' = key
  · subst hne
    have hup : key' ∉ (s.release key' now).1.depressed := fun hk =>
      (mem_release.mp hk).2 hd (by simp [releases, hord])
    have hkept : mod ∉ s.injectedFor key' := fun hin =>
      (mem_release.mp hm).2 hd (by simp [releases, hord, hin])
    rw [(h.release key' now).injectedFor_absent hup]
    exact iff_of_false List.not_mem_nil hkept
  · rw [injectedFor_eq, injectedFor_eq, herase, find?_eraseP_of_ne hne]

/-! ### Taps -/

theorem Tidy.injectedFor_not_ordinary (h : s.Tidy) (hk : key.isOrdinary = false) :
    s.injectedFor key = [] := by
  have hnone : s.injectedMods.entries.find? (·.1 == key) = none := by
    rw [List.find?_eq_none]
    intro entry he heq
    have hord := (h.recorded entry he).2
    rw [beq_iff_eq.mp heq, hk] at hord
    cases hord
  rw [injectedFor_eq, hnone]
  rfl

/-- A tap that is accepted puts nothing down. It lets go of its key and of what is on record for
it. -/
theorem Tidy.mem_tap (h : s.Tidy) (hcap : s.Capped)
    (hok : key ∈ s.depressed ∨ s.depressed.len < s.settings.maxHeldKeys) (down up : ℕ) :
    key' ∈ (s.tap key down up).depressed ↔ key' ∈ s.depressed ∧ key' ∉ s.releases key := by
  rw [tap, mem_release]
  by_cases hd : key ∈ s.depressed
  · rw [press_held hd]
    tauto
  have hl := hok.resolve_left hd
  have hself : key ∈ s.presses key := by unfold presses; split <;> simp
  have hdown : key ∈ (s.press key down).1.depressed :=
    (mem_press hcap).mpr (.inr ⟨hd, hl, hself⟩)
  have hreleases : ∀ mod, mod ∈ (s.press key down).1.releases key ↔ mod ∈ s.presses key := by
    intro mod
    unfold releases presses
    split
    next hord => rw [h.injectedFor_press hcap hd hl hord]; simp [or_comm]
    next => rfl
  have hold : key' ∈ s.depressed → key' ∉ s.releases key := by
    intro hk' hm
    unfold releases at hm
    rw [h.injectedFor_absent hd] at hm
    have heq : key' = key := by
      split at hm <;> exact List.mem_singleton.mp hm
    exact hd (heq ▸ hk')
  have hnew := (presses_spec hd).2.1 key'
  rw [mem_press hcap, hreleases]
  tauto

/-- Of the keys that a tap leaves down, none is on record otherwise than before. -/
theorem Tidy.mem_injectedFor_tap (h : s.Tidy) (hcap : s.Capped) {down up : ℕ} {mod : PhysicalKey}
    (hm : mod ∈ (s.tap key down up).depressed) :
    mod ∈ (s.tap key down up).injectedFor key' ↔ mod ∈ s.injectedFor key' := by
  rw [tap] at hm ⊢
  rw [(h.press hcap key down).mem_injectedFor_release hm]
  by_cases hne : key' = key
  swap
  · rw [h.injectedFor_press_of_ne hcap hne]
  subst hne
  by_cases hd : key' ∈ s.depressed
  · rw [press_held hd]
  rw [h.injectedFor_absent hd]
  refine iff_of_false (fun hin => ?_) List.not_mem_nil
  cases hord : key'.isOrdinary with
  | false =>
    rw [(h.press hcap key' down).injectedFor_not_ordinary hord] at hin
    cases hin
  | true =>
    by_cases hdown : key' ∈ (s.press key' down).1.depressed
    · exact (mem_release.mp hm).2 hdown (by simp [releases, hord, hin])
    · rw [(h.press hcap key' down).injectedFor_absent hdown] at hin
      cases hin

theorem Tidy.step (h : s.Tidy) (hcap : s.Capped) (c : Call) : (s.step c).1.Tidy := by
  cases c with
  | press key now => exact h.press hcap key now
  | release key now => exact h.release key now
  | releaseAll =>
    exact ⟨InjectsModifiers.releaseAll s, by simp [KeyboardState.step, releaseAll, updateLayer],
      by simp [KeyboardState.step, releaseAll, updateLayer]⟩

theorem Tidy.run (h : s.Tidy) (hcap : s.Capped) (calls : List Call) :
    (run KeyboardState.step s calls).Tidy := by
  induction calls generalizing s with
  | nil => exact h
  | cons c calls ih => exact ih (h.step hcap c) (hcap.of_settings (step_settings s c))

theorem tidy_new (settings : StateSettings) : (new settings).Tidy :=
  ⟨injectsModifiers_new settings, by simp [new], by simp [new]⟩

end KeyboardState

/-- In a run of the driver the records stay tidy, as long as the cap leaves room. -/
theorem KeyboardDriver.tidy_run {σ : Type} [KeySink σ] {d : KeyboardDriver σ} (h : d.state.Tidy)
    (hcap : d.state.Capped) (calls : List DriverCall) : (run step d calls).state.Tidy := by
  rw [run_state]
  exact h.run hcap _

end Ferrokey
