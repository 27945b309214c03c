import Mathlib.Data.Set.Insert
import Mathlib.Data.Set.Basic
import Mathlib.Tactic.Common

/-! # Key event streams

A stream of key events is read against the set of keys it has left down. A key
goes down only when it is up, and is released or repeated only when it is down.
-/

namespace Ferrokey.Machine

variable {κ : Type*}

inductive Stroke (κ : Type*) where
  | down (key : κ)
  | up (key : κ)
  | again (key : κ)
  deriving DecidableEq, Repr

namespace Stroke

/-- The event is possible while exactly the given keys are down. -/
def Legal (held : Set κ) : Stroke κ → Prop
  | down key => key ∉ held
  | up key => key ∈ held
  | again key => key ∈ held

def after (held : Set κ) : Stroke κ → Set κ
  | down key => insert key held
  | up key => held \ {key}
  | again _ => held

/-- The event presses or releases the key. -/
def Moves (key : κ) : Stroke κ → Prop
  | down key' => key' = key
  | up key' => key' = key
  | again _ => False

def map {κ' : Type*} (f : κ → κ') : Stroke κ → Stroke κ'
  | down key => down (f key)
  | up key => up (f key)
  | again key => again (f key)

variable {κ' : Type*} {f : κ → κ'} {held : Set κ} {held' : Set κ'}

/-- What was down before does not matter for a key that the event moves. -/
theorem mem_after_of_moves {held held' : Set κ} {key : κ} {e : Stroke κ} (h : e.Moves key) :
    key ∈ e.after held ↔ key ∈ e.after held' := by
  cases e with
  | down key' => exact iff_of_true (Or.inl h.symm) (Or.inl h.symm)
  | up key' => exact iff_of_false (fun hm => hm.2 h.symm) (fun hm => hm.2 h.symm)
  | again key' => exact h.elim

theorem mem_after_of_not_moves {held : Set κ} {key : κ} {e : Stroke κ} (h : ¬ e.Moves key) :
    key ∈ e.after held ↔ key ∈ held := by
  cases e with
  | down key' => exact or_iff_right fun he => h he.symm
  | up key' => exact and_iff_left fun he => h he.symm
  | again key' => exact Iff.rfl

theorem legal_map_iff (h : ∀ key, f key ∈ held' ↔ key ∈ held) (e : Stroke κ) :
    (e.map f).Legal held' ↔ e.Legal held := by
  cases e with
  | down key => exact not_congr (h key)
  | up key => exact h key
  | again key => exact h key

theorem mem_after_map_iff (hf : Function.Injective f) (h : ∀ key, f key ∈ held' ↔ key ∈ held)
    (e : Stroke κ) (key : κ) : f key ∈ (e.map f).after held' ↔ key ∈ e.after held := by
  cases e with
  | down key' => exact or_congr (hf.eq_iff) (h key)
  | up key' => exact and_congr (h key) (not_congr hf.eq_iff)
  | again key' => exact h key

end Stroke

/-- The keys a stream leaves down, starting from the given ones. -/
def leaves (held : Set κ) (es : List (Stroke κ)) : Set κ := es.foldl Stroke.after held

/-- Every event of the stream is possible where it stands. -/
def LegalFrom : Set κ → List (Stroke κ) → Prop
  | _, [] => True
  | held, e :: es => e.Legal held ∧ LegalFrom (e.after held) es

/-- A stream that starts with every key up and has only possible events. -/
def WellFormed (es : List (Stroke κ)) : Prop := LegalFrom ∅ es

/-- The keys left down by a stream that starts with every key up. -/
def leftDown (es : List (Stroke κ)) : Set κ := leaves ∅ es

@[simp] theorem leaves_nil (held : Set κ) : leaves held [] = held := rfl

@[simp] theorem leaves_cons (held : Set κ) (e : Stroke κ) (es : List (Stroke κ)) :
    leaves held (e :: es) = leaves (e.after held) es := rfl

theorem leaves_append (held : Set κ) (es fs : List (Stroke κ)) :
    leaves held (es ++ fs) = leaves (leaves held es) fs := by
  simp [leaves]

@[simp] theorem legalFrom_nil (held : Set κ) : LegalFrom held ([] : List (Stroke κ)) := trivial

@[simp] theorem legalFrom_cons (held : Set κ) (e : Stroke κ) (es : List (Stroke κ)) :
    LegalFrom held (e :: es) ↔ e.Legal held ∧ LegalFrom (e.after held) es := Iff.rfl

theorem legalFrom_append (held : Set κ) (es fs : List (Stroke κ)) :
    LegalFrom held (es ++ fs) ↔ LegalFrom held es ∧ LegalFrom (leaves held es) fs := by
  induction es generalizing held with
  | nil => simp
  | cons e es ih => simp [ih, and_assoc]

@[simp] theorem wellFormed_nil : WellFormed ([] : List (Stroke κ)) := trivial

@[simp] theorem leftDown_nil : leftDown ([] : List (Stroke κ)) = ∅ := rfl

/-- A stream stays well formed when it is continued by events that are possible after it. -/
theorem wellFormed_append_iff {es fs : List (Stroke κ)} :
    WellFormed (es ++ fs) ↔ WellFormed es ∧ LegalFrom (leftDown es) fs :=
  legalFrom_append ∅ es fs

theorem leftDown_append (es fs : List (Stroke κ)) :
    leftDown (es ++ fs) = leaves (leftDown es) fs :=
  leaves_append ∅ es fs

theorem leaves_agains (held : Set κ) (keys : List κ) : leaves held (keys.map .again) = held := by
  induction keys with
  | nil => rfl
  | cons key keys ih => exact ih

theorem agains_legal {held : Set κ} {keys : List κ} (h : ∀ key ∈ keys, key ∈ held) :
    LegalFrom held (keys.map .again) := by
  induction keys with
  | nil => exact trivial
  | cons key keys ih =>
    obtain ⟨hkey, hkeys⟩ := List.forall_mem_cons.mp h
    exact ⟨hkey, ih hkeys⟩

/-- A key that is down stays down unless it is released. -/
theorem mem_leaves {held : Set κ} {key : κ} {es : List (Stroke κ)} (h : key ∈ held)
    (hn : .up key ∉ es) : key ∈ leaves held es := by
  induction es generalizing held with
  | nil => exact h
  | cons e es ih =>
    obtain ⟨hne, hn⟩ := not_or.mp (mt List.mem_cons.mpr hn)
    refine ih ?_ hn
    cases e with
    | down key' => exact Or.inr h
    | up key' => exact ⟨h, fun he => hne (he ▸ rfl)⟩
    | again key' => exact h

/-- A key that is left down was down or is pressed. -/
theorem down_of_mem_leaves {held : Set κ} {key : κ} {es : List (Stroke κ)}
    (h : key ∈ leaves held es) : key ∈ held ∨ .down key ∈ es := by
  induction es generalizing held with
  | nil => exact Or.inl h
  | cons e es ih =>
    rcases ih h with hm | hm
    · cases e with
      | down key' =>
        rcases hm with rfl | hm
        · exact Or.inr List.mem_cons_self
        · exact Or.inl hm
      | up key' => exact Or.inl hm.1
      | again key' => exact Or.inl hm
    · exact Or.inr (List.mem_cons_of_mem e hm)

/-- Releases leave none of their keys down. -/
theorem not_mem_leaves_ups {held : Set κ} {key : κ} {keys : List κ}
    (h : key ∉ held ∨ key ∈ keys) : key ∉ leaves held (keys.map .up) := by
  induction keys generalizing held with
  | nil => exact h.resolve_right List.not_mem_nil
  | cons key' keys ih =>
    apply ih
    rcases h with h | h
    · exact Or.inl fun hm => h hm.1
    · rcases List.mem_cons.mp h with rfl | h
      · exact Or.inl fun hm => hm.2 rfl
      · exact Or.inr h

/-- Keys that are pressed and then released again leave nothing more down. -/
theorem leaves_chord_subset (held : Set κ) (keys : List κ) :
    leaves held (keys.map .down ++ keys.reverse.map .up) ⊆ held := by
  intro key h
  rw [leaves_append] at h
  have hkey : key ∉ keys := by
    intro hk
    exact not_mem_leaves_ups (Or.inr (List.mem_reverse.mpr hk)) h
  rcases down_of_mem_leaves h with h | h
  · rcases down_of_mem_leaves h with h | h
    · exact h
    · simp [hkey] at h
  · simp at h

/-- Pressing distinct keys that are up is possible and leaves exactly them down as well. -/
theorem downs_legal {held : Set κ} {keys : List κ} (hn : keys.Nodup)
    (hu : ∀ key ∈ keys, key ∉ held) :
    LegalFrom held (keys.map .down) ∧
      ∀ key, key ∈ leaves held (keys.map .down) ↔ key ∈ held ∨ key ∈ keys := by
  induction keys generalizing held with
  | nil => simp
  | cons key keys ih =>
    obtain ⟨hk, hn⟩ := List.nodup_cons.mp hn
    have hu' : ∀ key' ∈ keys, key' ∉ insert key held := by
      intro key' hm
      rw [Set.mem_insert_iff, not_or]
      exact ⟨fun he => hk (he ▸ hm), hu key' (List.mem_cons_of_mem _ hm)⟩
    obtain ⟨hl, hd⟩ := ih hn hu'
    refine ⟨⟨hu key List.mem_cons_self, hl⟩, fun key' => ?_⟩
    rw [List.map_cons, leaves_cons]
    change key' ∈ leaves (insert key held) _ ↔ _
    rw [hd key', Set.mem_insert_iff, List.mem_cons]
    tauto

/-- Releasing distinct keys that are down is possible and leaves exactly the others down. -/
theorem ups_legal {held : Set κ} {keys : List κ} (hn : keys.Nodup)
    (hd : ∀ key ∈ keys, key ∈ held) :
    LegalFrom held (keys.map .up) ∧
      ∀ key, key ∈ leaves held (keys.map .up) ↔ key ∈ held ∧ key ∉ keys := by
  induction keys generalizing held with
  | nil => simp
  | cons key keys ih =>
    obtain ⟨hk, hn⟩ := List.nodup_cons.mp hn
    have hd' : ∀ key' ∈ keys, key' ∈ held \ {key} := by
      intro key' hm
      exact ⟨hd key' (List.mem_cons_of_mem _ hm), fun he => hk (he ▸ hm)⟩
    obtain ⟨hl, hu⟩ := ih hn hd'
    refine ⟨⟨hd key List.mem_cons_self, hl⟩, fun key' => ?_⟩
    rw [List.map_cons, leaves_cons]
    change key' ∈ leaves (held \ {key}) _ ↔ _
    rw [hu key', Set.mem_sdiff, Set.mem_singleton_iff, List.mem_cons]
    tauto

/-- Releasing keys leaves exactly the others down. -/
theorem mem_leaves_ups {held : Set κ} {keys : List κ} {key : κ} :
    key ∈ leaves held (keys.map .up) ↔ key ∈ held ∧ key ∉ keys := by
  constructor
  · intro h
    constructor
    · by_contra hn
      exact not_mem_leaves_ups (Or.inl hn) h
    · intro hm
      exact not_mem_leaves_ups (Or.inr hm) h
  · rintro ⟨hk, hn⟩
    exact mem_leaves hk (by simpa using hn)

/-! ### Holders of keys -/

section Holders

variable {σ : Type*}

/-- The keys that some holder has. -/
def holdings (h : σ → Option κ) : Set κ := {key | ∃ s, h s = some key}

/-- A holder has the key and no other one does, if it has it at all. -/
def Alone (h : σ → Option κ) (s : σ) (key : κ) : Prop := ∀ s' ≠ s, h s' ≠ some key

variable {h h' : σ → Option κ}

/-- A holder that takes a key changes the holdings by that key alone, exactly when the key
it had is the same one or has another holder. -/
theorem insert_holdings_iff {s : σ} {key : κ} (hs : h' s = some key)
    (ho : ∀ s' ≠ s, h' s' = h s') :
    insert key (holdings h) = holdings h' ↔
      ∀ old, h s = some old → old ≠ key → ¬ Alone h s old := by
  constructor
  · intro he old hold hne halone
    have hmem : old ∈ holdings h' := he ▸ Set.mem_insert_of_mem key ⟨s, hold⟩
    obtain ⟨s', hs'⟩ := hmem
    by_cases hss : s' = s
    · subst hss
      exact hne (Option.some.inj (hs'.symm.trans hs))
    · exact halone s' hss ((ho s' hss).symm.trans hs')
  · intro hold
    ext k
    constructor
    · rintro (rfl | ⟨s', hs'⟩)
      · exact ⟨s, hs⟩
      · by_cases hss : s' = s
        · subst hss
          by_cases hk : k = key
          · exact ⟨s', hk ▸ hs⟩
          · obtain ⟨t, ht, hkt⟩ : ∃ t ≠ s', h t = some k := by
              simpa [Alone] using hold k hs' hk
            exact ⟨t, (ho t ht).trans hkt⟩
        · exact ⟨s', (ho s' hss).trans hs'⟩
    · rintro ⟨s', hs'⟩
      by_cases hss : s' = s
      · subst hss
        exact Or.inl (Option.some.inj (hs'.symm.trans hs))
      · exact Or.inr ⟨s', (ho s' hss).symm.trans hs'⟩

/-- Holders that let go take their keys out of the holdings exactly when no other holder
has one of them. -/
theorem sdiff_holdings_iff {S : Set σ} (hs : ∀ s ∈ S, h' s = none) (ho : ∀ s ∉ S, h' s = h s) :
    holdings h \ {key | ∃ s ∈ S, h s = some key} = holdings h' ↔
      ∀ s ∈ S, ∀ key, h s = some key → ∀ s' ∉ S, h s' ≠ some key := by
  constructor
  · intro he s hsS key hkey s' hs' hkey'
    have hmem : key ∈ holdings h' := ⟨s', (ho s' hs').trans hkey'⟩
    rw [← he] at hmem
    exact hmem.2 ⟨s, hsS, hkey⟩
  · intro hnone
    ext key
    constructor
    · rintro ⟨⟨s, hkey⟩, hout⟩
      have hsS : s ∉ S := fun hsS => hout ⟨s, hsS, hkey⟩
      exact ⟨s, (ho s hsS).trans hkey⟩
    · rintro ⟨s, hkey⟩
      have hsS : s ∉ S := by
        intro hsS
        rw [hs s hsS] at hkey
        cases hkey
      rw [ho s hsS] at hkey
      refine ⟨⟨s, hkey⟩, ?_⟩
      rintro ⟨t, htS, htkey⟩
      exact hnone t htS key htkey s hsS hkey

end Holders

end Ferrokey.Machine
