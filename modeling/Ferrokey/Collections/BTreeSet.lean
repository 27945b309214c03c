import Mathlib.Data.List.Induction
import Mathlib.Data.List.Sort
import Mathlib.Tactic.Common

/-! # Ordered sets

The standard library's ordered set, as the ascending list of its elements. The
order of the list is the order of iteration, and no element occurs twice.
-/

namespace Ferrokey

instance linearOrderUInt16 : LinearOrder UInt16 where
  le_refl := UInt16.le_refl
  le_trans _ _ _ := UInt16.le_trans
  le_antisymm _ _ := UInt16.le_antisymm
  le_total := UInt16.le_total
  lt_iff_le_not_ge _ _ := Std.lt_iff_le_and_not_ge
  toDecidableLE := inferInstance

instance linearOrderUInt32 : LinearOrder UInt32 where
  le_refl := UInt32.le_refl
  le_trans _ _ _ := UInt32.le_trans
  le_antisymm _ _ := UInt32.le_antisymm
  le_total := UInt32.le_total
  lt_iff_le_not_ge _ _ := Std.lt_iff_le_and_not_ge
  toDecidableLE := inferInstance

/-- A set kept as the strictly ascending list of its elements. -/
structure BTreeSet (α : Type*) [LinearOrder α] where
  elems : List α
  ascending : elems.Pairwise (· < ·)

namespace BTreeSet

variable {α β : Type*} [LinearOrder α] [LinearOrder β]

instance : DecidableEq (BTreeSet α) := fun s t =>
  decidable_of_iff (s.elems = t.elems) (by cases s; cases t; simp)

instance : Membership α (BTreeSet α) := ⟨fun s x => x ∈ s.elems⟩

instance (x : α) (s : BTreeSet α) : Decidable (x ∈ s) := inferInstanceAs (Decidable (x ∈ s.elems))

theorem mem_def {x : α} {s : BTreeSet α} : x ∈ s ↔ x ∈ s.elems := Iff.rfl

theorem nodup (s : BTreeSet α) : s.elems.Nodup := s.ascending.imp ne_of_lt

def new : BTreeSet α := ⟨[], .nil⟩

def len (s : BTreeSet α) : ℕ := s.elems.length

/-- The smallest element. -/
def first (s : BTreeSet α) : Option α := s.elems.head?

def isEmpty (s : BTreeSet α) : Bool := s.elems.isEmpty

def contains (s : BTreeSet α) (x : α) : Bool := decide (x ∈ s)

/-- Add an element; adding one that is there changes nothing. -/
def insert (s : BTreeSet α) (x : α) : BTreeSet α :=
  if h : x ∈ s then s
  else
    ⟨s.elems.orderedInsert (· ≤ ·) x, by
      have hle : (s.elems.orderedInsert (· ≤ ·) x).Pairwise (· ≤ ·) :=
        List.Pairwise.orderedInsert _ _ (s.ascending.imp le_of_lt)
      have hnd : (s.elems.orderedInsert (· ≤ ·) x).Nodup :=
        (List.perm_orderedInsert _ _ _).nodup_iff.mpr (List.nodup_cons.mpr ⟨h, s.nodup⟩)
      exact hle.imp₂ (fun _ _ => lt_of_le_of_ne) hnd⟩

def remove (s : BTreeSet α) (x : α) : BTreeSet α :=
  ⟨s.elems.erase x, s.ascending.sublist List.erase_sublist⟩

@[simp] theorem contains_iff {s : BTreeSet α} {x : α} : s.contains x = true ↔ x ∈ s := by
  simp [contains]

@[simp] theorem contains_eq_false_iff {s : BTreeSet α} {x : α} : s.contains x = false ↔ x ∉ s := by
  simp [contains]

@[simp] theorem not_mem_new (x : α) : x ∉ (new : BTreeSet α) := List.not_mem_nil

@[simp] theorem len_new : (new : BTreeSet α).len = 0 := rfl

@[simp] theorem mem_insert {s : BTreeSet α} {x y : α} : y ∈ s.insert x ↔ y = x ∨ y ∈ s := by
  unfold insert
  split
  · next h =>
    constructor
    · exact Or.inr
    · rintro (rfl | h') <;> assumption
  · exact List.mem_orderedInsert _

@[simp] theorem mem_remove {s : BTreeSet α} {x y : α} : y ∈ s.remove x ↔ y ≠ x ∧ y ∈ s :=
  s.nodup.mem_erase_iff

theorem len_insert {s : BTreeSet α} {x : α} (h : x ∉ s) : (s.insert x).len = s.len + 1 := by
  simp only [insert, h, dite_false, len, List.orderedInsert_length]

theorem len_remove_le (s : BTreeSet α) (x : α) : (s.remove x).len ≤ s.len :=
  List.length_erase_le

theorem first_eq_some_iff {s : BTreeSet α} {x : α} :
    s.first = some x ↔ x ∈ s ∧ ∀ y ∈ s, x ≤ y := by
  obtain ⟨elems, ha⟩ := s
  rw [first, List.head?_eq_some_iff]
  constructor
  · rintro ⟨rest, rfl⟩
    refine ⟨List.mem_cons_self, fun y hy => ?_⟩
    rcases List.mem_cons.mp hy with rfl | hy
    · exact le_rfl
    · exact (List.rel_of_pairwise_cons ha hy).le
  · rintro ⟨hx, hle⟩
    cases elems with
    | nil => exact absurd hx List.not_mem_nil
    | cons y rest =>
      rcases List.mem_cons.mp hx with rfl | hx
      · exact ⟨rest, rfl⟩
      · exact absurd (List.rel_of_pairwise_cons ha hx) (hle y List.mem_cons_self).not_gt

theorem first_eq_none_iff {s : BTreeSet α} : s.first = none ↔ ∀ x, x ∉ s := by
  rw [first, List.head?_eq_none_iff, List.eq_nil_iff_forall_not_mem]
  rfl

theorem isEmpty_iff {s : BTreeSet α} : s.isEmpty = true ↔ ∀ x, x ∉ s := by
  rw [isEmpty, List.isEmpty_iff, List.eq_nil_iff_forall_not_mem]
  rfl

theorem len_remove_lt {s : BTreeSet α} {x : α} (h : x ∈ s) : (s.remove x).len < s.len := by
  have hpos : 0 < s.elems.length := List.length_pos_of_mem h
  rw [len, len, remove, List.length_erase_of_mem h]
  omega

theorem eq_new {s : BTreeSet α} (h : s.len = 0) : s = new := by
  obtain ⟨elems, ha⟩ := s
  obtain rfl : elems = [] := List.length_eq_zero_iff.mp h
  rfl

/-- Collect a list into a set. -/
def ofList (l : List α) : BTreeSet α := l.foldl insert new

theorem len_ofList {l : List α} (h : l.Nodup) : (ofList l).len = l.length := by
  suffices hs : (∀ x, x ∈ ofList l ↔ x ∈ l) ∧ (ofList l).len = l.length from hs.2
  induction l using List.reverseRecOn with
  | nil => exact ⟨fun x => Iff.rfl, rfl⟩
  | append_singleton l x ih =>
    obtain ⟨hn, -, hx⟩ := List.nodup_append.mp h
    obtain ⟨hm, hl⟩ := ih hn
    have hnew : x ∉ ofList l := fun hin => hx x ((hm x).mp hin) x List.mem_cons_self rfl
    have hins : ofList (l ++ [x]) = (ofList l).insert x := List.foldl_concat ..
    rw [hins, len_insert hnew, hl]
    refine ⟨fun y => ?_, by simp⟩
    simp [hm, or_comm]

end BTreeSet

end Ferrokey
