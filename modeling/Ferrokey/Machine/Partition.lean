import Mathlib.Data.Set.Basic
import Mathlib.Tactic.Common

/-! # A set shared among owners

A global set is partitioned among a list of owners: every element belongs to
exactly one of them. An owner may take elements nobody owns, give elements up,
or leave, and the global set follows.
-/

namespace Ferrokey.Machine

variable {κ : Type*}

/-- The set is the union of the owners' parts, and no two owners share an element. -/
structure Partition (L : Set κ) (parts : List (Set κ)) : Prop where
  mem_iff : ∀ x, x ∈ L ↔ ∃ h ∈ parts, x ∈ h
  disjoint : parts.Pairwise (fun h h' => ∀ x ∈ h, x ∉ h')

theorem Partition.empty : Partition (∅ : Set κ) [] := ⟨by simp, .nil⟩

/-- The place of an owner in the list, and what replacing or removing it leaves. -/
theorem getElem?_split {α : Type*} {l : List α} {i : ℕ} {a : α} (h : l[i]? = some a) :
    ∃ pre post, l = pre ++ a :: post ∧ (∀ b, l.set i b = pre ++ b :: post) ∧
      l.eraseIdx i = pre ++ post := by
  obtain ⟨hi, rfl⟩ := List.getElem?_eq_some_iff.mp h
  refine ⟨l.take i, l.drop (i + 1), ?_, fun b => ?_, List.eraseIdx_eq_take_drop_succ ..⟩
  · rw [← List.drop_eq_getElem_cons hi, List.take_append_drop]
  · exact List.set_eq_take_append_cons_drop.trans (if_pos hi)

section

variable {L L' h h' : Set κ} {pre post : List (Set κ)}

theorem Partition.not_mem_other (p : Partition L (pre ++ h :: post)) {x : κ} (hx : x ∈ h) :
    ∀ g ∈ pre ++ post, x ∉ g := by
  obtain ⟨_, hc, hpre⟩ := List.pairwise_append.mp p.disjoint
  intro g hg
  rcases List.mem_append.mp hg with hg | hg
  · exact fun hxg => hpre g hg h List.mem_cons_self x hxg hx
  · exact (List.pairwise_cons.mp hc).1 g hg x hx

theorem Partition.other_mem (_ : Partition L (pre ++ h :: post)) {g : Set κ}
    (hg : g ∈ pre ++ post) : g ∈ pre ++ h :: post :=
  ((List.sublist_cons_self h post).append_left pre).subset hg

theorem Partition.mem_of_owner {parts : List (Set κ)} (p : Partition L parts) (hh : h ∈ parts)
    {x : κ} (hx : x ∈ h) : x ∈ L :=
  (p.mem_iff x).mpr ⟨h, hh, hx⟩

/-- An owner may change its part as long as what it gains belonged to nobody. -/
theorem Partition.replace (p : Partition L (pre ++ h :: post))
    (hg : ∀ x ∈ h', x ∈ h ∨ x ∉ L) (hL : ∀ x, x ∈ L' ↔ x ∈ L ∧ x ∉ h ∨ x ∈ h') :
    Partition L' (pre ++ h' :: post) := by
  have hfree : ∀ x ∈ h', ∀ g ∈ pre ++ post, x ∉ g := by
    intro x hx g hgm hxg
    rcases hg x hx with hxh | hxL
    · exact p.not_mem_other hxh g hgm hxg
    · exact hxL (p.mem_of_owner (p.other_mem hgm) hxg)
  constructor
  · intro x
    rw [hL]
    constructor
    · rintro (⟨hx, hxh⟩ | hx)
      · obtain ⟨g, hgm, hxg⟩ := (p.mem_iff x).mp hx
        refine ⟨g, ?_, hxg⟩
        simp only [List.mem_append, List.mem_cons] at hgm ⊢
        rcases hgm with hm | rfl | hm
        · exact Or.inl hm
        · exact (hxh hxg).elim
        · exact Or.inr (Or.inr hm)
      · exact ⟨h', by simp, hx⟩
    · rintro ⟨g, hgm, hxg⟩
      simp only [List.mem_append, List.mem_cons] at hgm
      by_cases hx : x ∈ h'
      · exact Or.inr hx
      · have hgo : g ∈ pre ++ post := by
          rcases hgm with hm | rfl | hm
          · exact List.mem_append_left _ hm
          · exact (hx hxg).elim
          · exact List.mem_append_right _ hm
        exact Or.inl ⟨p.mem_of_owner (p.other_mem hgo) hxg,
          fun hxh => p.not_mem_other hxh g hgo hxg⟩
  · obtain ⟨hd, hc, hpre⟩ := List.pairwise_append.mp p.disjoint
    refine List.pairwise_append.mpr ⟨hd, List.pairwise_cons.mpr ⟨?_, (List.pairwise_cons.mp hc).2⟩,
      fun g hgm k hk => ?_⟩
    · exact fun g hgm x hx => hfree x hx g (List.mem_append_right _ hgm)
    · rcases List.mem_cons.mp hk with rfl | hk
      · exact fun x hxg hx => hfree x hx g (List.mem_append_left _ hgm) hxg
      · exact hpre g hgm k (List.mem_cons_of_mem _ hk)

/-- When an owner leaves, its part leaves the shared set. -/
theorem Partition.leave (p : Partition L (pre ++ h :: post))
    (hL : ∀ x, x ∈ L' ↔ x ∈ L ∧ x ∉ h) : Partition L' (pre ++ post) := by
  have hp : Partition L' (pre ++ ∅ :: post) := p.replace (by simp) (by simpa using hL)
  refine ⟨fun x => ?_, hp.disjoint.sublist (by simp)⟩
  rw [hp.mem_iff]
  constructor
  · rintro ⟨g, hg, hx⟩
    refine ⟨g, ?_, hx⟩
    simp only [List.mem_append, List.mem_cons] at hg ⊢
    rcases hg with hm | rfl | hm
    · exact Or.inl hm
    · exact hx.elim
    · exact Or.inr hm
  · rintro ⟨g, hg, hx⟩
    exact ⟨g, hp.other_mem hg, hx⟩

theorem Partition.join {parts : List (Set κ)} (p : Partition L parts) :
    Partition L (parts ++ [∅]) := by
  refine ⟨fun x => ?_, List.pairwise_append.mpr ⟨p.disjoint, by simp, by simp⟩⟩
  rw [p.mem_iff]
  simp [or_and_right, exists_or]

end

end Ferrokey.Machine
