import Mathlib.Data.List.Basic
import Mathlib.Data.List.Perm.Basic

/-! # The first match of an enumeration

A search that takes the first match of an unordered collection depends on the order in
which the collection is enumerated, unless at most one element matches.
-/

namespace Ferrokey.Collections

variable {α : Type*} {l l' : List α} {p : α → Bool}

/-- Any match is the first one of some enumeration. -/
theorem exists_perm_find? {a : α} (ha : a ∈ l) (hp : p a = true) :
    ∃ l' : List α, l'.Perm l ∧ l'.find? p = some a := by
  obtain ⟨s, t, rfl⟩ := List.append_of_mem ha
  exact ⟨a :: (s ++ t), List.perm_middle.symm, List.find?_cons_of_pos hp⟩

/-- Two enumerations have a match or none. -/
theorem find?_isSome_perm (h : l'.Perm l) : (l'.find? p).isSome = (l.find? p).isSome := by
  rw [Bool.eq_iff_iff, List.find?_isSome, List.find?_isSome]
  simp only [h.mem_iff]

/-- The first match is the same in every enumeration exactly if there is one match at most. -/
theorem find?_perm_iff : (∀ l' : List α, l'.Perm l → l'.find? p = l.find? p) ↔
    ∀ a ∈ l, ∀ b ∈ l, p a = true → p b = true → a = b := by
  constructor
  · intro h a ha b hb hpa hpb
    obtain ⟨la, hla, hfa⟩ := exists_perm_find? ha hpa
    obtain ⟨lb, hlb, hfb⟩ := exists_perm_find? hb hpb
    rw [h la hla] at hfa
    rw [h lb hlb] at hfb
    exact Option.some_inj.mp (hfa.symm.trans hfb)
  · intro h l' hperm
    have hsome := find?_isSome_perm (p := p) hperm
    cases hf : l.find? p with
    | none => simpa [hf] using hsome
    | some a =>
      rw [hf, Option.isSome_some, Option.isSome_iff_exists] at hsome
      obtain ⟨b, hfb⟩ := hsome
      have hb : b ∈ l := hperm.mem_iff.mp (List.mem_of_find?_eq_some hfb)
      rw [hfb, h b hb a (List.mem_of_find?_eq_some hf) (List.find?_some hfb) (List.find?_some hf)]

end Ferrokey.Collections
