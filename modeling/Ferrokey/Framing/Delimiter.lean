import Mathlib.Data.List.Basic
import Mathlib.Data.List.Infix
import Mathlib.Tactic.Common

/-! # Delimiters

A delimiter starts with a marker that does not occur again in it, so two occurrences
never overlap. A text that is closed with a delimiter can be read back exactly when
the delimiter does not occur in it.
-/

namespace Ferrokey.Framing

structure Delimiter (α : Type*) where
  mark : α
  rest : List α
  mark_not_mem : mark ∉ rest

namespace Delimiter

variable {α : Type*} (d : Delimiter α)

/-- The word a delimiter stands for. -/
def code : List α := d.mark :: d.rest

/-- The word occurs once, at the very end. -/
structure OnlyAtEnd (w : List α) : Prop where
  closed : d.code <:+ w
  last : ∀ before after, w = before ++ d.code ++ after → after = []

/-- What stands before the first occurrence, and what stands after it. -/
def split [BEq α] (w : List α) : Option (List α × List α) := w.dropInfix? d.code

variable {d} {a w : List α}

theorem code_ne_nil : d.code ≠ [] := List.cons_ne_nil _ _

theorem code_infix_append_iff {s : List α} (hs : d.mark ∉ s) :
    d.code <:+: s ++ a ↔ d.code <:+: a := by
  induction s with
  | nil => rfl
  | cons x s ih =>
    obtain ⟨hx, hs⟩ := not_or.mp (mt List.mem_cons.mpr hs)
    rw [List.cons_append, List.infix_cons_iff, ih hs]
    constructor
    · rintro (hp | hi)
      · exact absurd (List.cons_prefix_cons.mp hp).1 hx
      · exact hi
    · exact .inr

/-- An opening word of the same length makes no occurrence of its own. -/
theorem code_infix_code_append_iff {s : Delimiter α} (hmark : s.mark = d.mark)
    (hlen : s.rest.length = d.rest.length) (hne : s.rest ≠ d.rest) :
    d.code <:+: s.code ++ a ↔ d.code <:+: a := by
  change d.code <:+: s.mark :: (s.rest ++ a) ↔ _
  rw [List.infix_cons_iff]
  constructor
  · rintro (hp | hi)
    · obtain ⟨-, u, hu⟩ := List.cons_prefix_cons.mp hp
      exact absurd (List.append_inj hu hlen.symm).1 hne.symm
    · exact (code_infix_append_iff (hmark ▸ s.mark_not_mem)).mp hi
  · exact fun hi => .inr ((code_infix_append_iff (hmark ▸ s.mark_not_mem)).mpr hi)

/-- An occurrence in a closed text is in the text, or it is the closing one. -/
theorem occurrence_cases {before after : List α} (h : a ++ d.code = before ++ d.code ++ after) :
    d.code <:+: a ∨ after = [] := by
  rcases List.append_eq_append_iff.mp h with ⟨u, hu, hcode⟩ | ⟨u, ha, -⟩
  · rcases List.append_eq_append_iff.mp hu with ⟨v, ha, hcode'⟩ | ⟨v, -, rfl⟩
    · -- the two occurrences share `u`, so the marker would stand within the delimiter
      cases u with
      | nil => exact .inl ⟨before, [], by simp [ha, hcode']⟩
      | cons x u =>
        obtain ⟨rfl, hrest⟩ := List.cons_eq_cons.mp hcode
        cases v with
        | nil => exact .inr (by simpa using hcode.symm.trans hcode')
        | cons y v =>
          have hrest' : d.rest = v ++ d.mark :: u := (List.cons_eq_cons.mp hcode').2
          exact absurd (hrest' ▸ by simp) d.mark_not_mem
    · have hlen := congrArg List.length hcode
      simp only [List.length_append] at hlen
      exact .inr (List.eq_nil_of_length_eq_zero (by omega))
  · exact .inl ⟨before, u, ha.symm⟩

theorem onlyAtEnd_append_iff : d.OnlyAtEnd (a ++ d.code) ↔ ¬ d.code <:+: a := by
  constructor
  · rintro ⟨-, hlast⟩ ⟨before, after, h⟩
    have hnil := hlast before (after ++ d.code) (by simp [← h])
    exact code_ne_nil (List.append_eq_nil_iff.mp hnil).2
  · intro h
    exact ⟨List.suffix_append _ _, fun before after heq => (occurrence_cases heq).resolve_left h⟩

theorem split_append_iff [BEq α] [LawfulBEq α] :
    d.split (a ++ d.code) = some (a, []) ↔ ¬ d.code <:+: a := by
  have hpos : 0 < d.code.length := List.length_pos_iff.mpr code_ne_nil
  rw [split, List.dropInfix?_eq_some_iff]
  constructor
  · rintro ⟨-, hfirst⟩ ⟨before, after, h⟩
    have hle := hfirst before d.code (after ++ d.code) (by simp [← h]) (beq_self_eq_true _)
    have hlen := congrArg List.length h
    simp only [List.length_append] at hlen
    omega
  · intro h
    refine ⟨⟨d.code, by simp, beq_self_eq_true _⟩, ?_⟩
    intro before code' after heq hcode
    obtain rfl := eq_of_beq hcode
    obtain rfl := (occurrence_cases heq).resolve_left h
    have hlen := congrArg List.length heq
    simp only [List.length_append, List.length_nil] at hlen
    omega

end Delimiter

end Ferrokey.Framing
