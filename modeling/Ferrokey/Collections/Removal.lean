import Mathlib.Data.List.Nodup
import Mathlib.Data.List.Sort
import Mathlib.Tactic.Common

/-! # Removal by position

A vector loses one element after another at given positions. Each removal shifts
what stands behind it, so the positions mean what they meant at the start only
when they come in descending order.
-/

namespace Ferrokey.Collections

variable {α : Type*}

/-- Remove the elements at the positions, one after another. A position past the end is
the end of the program. -/
def removeAll : List ℕ → List α → Option (List α)
  | [], l => some l
  | i :: is, l => if i < l.length then removeAll is (l.eraseIdx i) else none

/-- The elements whose position, counted from `k`, is not closed. -/
def keepFrom (closed : List ℕ) : ℕ → List α → List α
  | _, [] => []
  | k, a :: l => if k ∈ closed then keepFrom closed (k + 1) l else a :: keepFrom closed (k + 1) l

/-- The elements whose position is not closed, in their order. -/
def keep (closed : List ℕ) (l : List α) : List α := keepFrom closed 0 l

variable {closed is js : List ℕ} {l l' : List α} {k : ℕ}

theorem keepFrom_append (closed : List ℕ) (k : ℕ) (l m : List α) :
    keepFrom closed k (l ++ m) = keepFrom closed k l ++ keepFrom closed (k + l.length) m := by
  induction l generalizing k with
  | nil => rfl
  | cons a l ih =>
    have hk : k + (a :: l).length = k + 1 + l.length := by simp; omega
    simp only [List.cons_append, keepFrom, ih, hk]
    split <;> rfl

theorem keepFrom_congr {closed closed' : List ℕ}
    (h : ∀ i, k ≤ i → i < k + l.length → (i ∈ closed ↔ i ∈ closed')) :
    keepFrom closed k l = keepFrom closed' k l := by
  induction l generalizing k with
  | nil => rfl
  | cons a l ih =>
    have hk : k ∈ closed ↔ k ∈ closed' := h k le_rfl (by simp)
    have hl : keepFrom closed (k + 1) l = keepFrom closed' (k + 1) l := by
      refine ih fun i hi hj => h i (by omega) ?_
      simp only [List.length_cons]
      omega
    simp only [keepFrom, hk, hl]

theorem keepFrom_of_forall (h : ∀ i ∈ closed, i < k) : keepFrom closed k l = l := by
  induction l generalizing k with
  | nil => rfl
  | cons a l ih =>
    have hk : k ∉ closed := fun hm => Nat.lt_irrefl k (h k hm)
    rw [keepFrom, if_neg hk, ih fun i hi => (h i hi).trans (Nat.lt_succ_self k)]

theorem keepFrom_sublist (closed : List ℕ) (k : ℕ) (l : List α) :
    (keepFrom closed k l).Sublist l := by
  induction l generalizing k with
  | nil => exact List.Sublist.slnil
  | cons a l ih =>
    rw [keepFrom]
    split
    · exact (ih _).cons a
    · exact (ih _).cons_cons a

theorem length_keepFrom_lt {i : ℕ} (hi : i ∈ closed) (hk : k ≤ i) (hl : i < k + l.length) :
    (keepFrom closed k l).length < l.length := by
  induction l generalizing k with
  | nil => simp at hl; omega
  | cons a l ih =>
    have hle : (keepFrom closed (k + 1) l).length ≤ l.length :=
      (keepFrom_sublist ..).length_le
    rw [keepFrom]
    by_cases he : k = i
    · rw [if_pos (he ▸ hi), List.length_cons]
      omega
    · have hlt := ih (show k + 1 ≤ i by omega) (by simp at hl; omega)
      split <;> simp only [List.length_cons] <;> omega

theorem removeAll_append (is js : List ℕ) (l : List α) :
    removeAll (is ++ js) l = (removeAll is l).bind (removeAll js) := by
  induction is generalizing l with
  | nil => rfl
  | cons i is ih =>
    rw [List.cons_append, removeAll, removeAll]
    split
    · exact ih _
    · rfl

theorem removeAll_sublist (h : removeAll is l = some l') : l'.Sublist l := by
  induction is generalizing l with
  | nil => cases h; exact List.Sublist.refl _
  | cons i is ih =>
    rw [removeAll] at h
    split at h
    · exact (ih h).trans (List.eraseIdx_sublist ..)
    · cases h

theorem keep_split (closed : List ℕ) {n : ℕ} (hn : n ≤ l.length) :
    keep closed l = keepFrom closed 0 (l.take n) ++ keepFrom closed n (l.drop n) := by
  have h := keepFrom_append closed 0 (l.take n) (l.drop n)
  rwa [List.take_append_drop, Nat.zero_add, List.length_take_of_le hn] at h

/-- Closing a position behind all the others is erasing it first. -/
theorem keep_cons {i : ℕ} (hi : i < l.length) (h : ∀ j ∈ is, j < i) :
    keep (i :: is) l = keep is (l.eraseIdx i) := by
  have hlen : (l.take i).length = i := List.length_take_of_le hi.le
  have hfront : keepFrom (i :: is) 0 (l.take i) = keepFrom is 0 (l.take i) := by
    refine keepFrom_congr fun j _ hj => ?_
    rw [hlen] at hj
    simp only [List.mem_cons, or_iff_right_iff_imp]
    omega
  have hback : keepFrom (i :: is) (i + 1) (l.drop (i + 1)) = l.drop (i + 1) := by
    refine keepFrom_of_forall fun j hj => ?_
    rcases List.mem_cons.mp hj with rfl | hj
    · exact Nat.lt_succ_self j
    · exact (h j hj).trans (Nat.lt_succ_self i)
  have hback' : keepFrom is i (l.drop (i + 1)) = l.drop (i + 1) := keepFrom_of_forall h
  calc keep (i :: is) l
      = keepFrom (i :: is) 0 (l.take i) ++ keepFrom (i :: is) i (l[i] :: l.drop (i + 1)) := by
        rw [keep_split _ hi.le, List.drop_eq_getElem_cons hi]
    _ = keepFrom is 0 (l.take i) ++ l.drop (i + 1) := by
        rw [keepFrom, if_pos List.mem_cons_self, hback, hfront]
    _ = keep is (l.eraseIdx i) := by
        rw [keep, List.eraseIdx_eq_take_drop_succ, keepFrom_append, Nat.zero_add, hlen, hback']

/-- Positions in descending order are removed as they were meant. -/
theorem removeAll_of_descending (h : is.Pairwise (· > ·)) (hr : ∀ i ∈ is, i < l.length) :
    removeAll is l = some (keep is l) := by
  induction is generalizing l with
  | nil => rw [removeAll, keep, keepFrom_of_forall (by simp)]
  | cons i is ih =>
    obtain ⟨hi, h⟩ := List.pairwise_cons.mp h
    have hlt := hr i List.mem_cons_self
    rw [removeAll, if_pos hlt, keep_cons hlt hi]
    refine ih h fun j hj => ?_
    rw [List.length_eraseIdx_of_lt hlt]
    have := hi j hj
    omega

section Index

variable [DecidableEq α] {a : α} {i : ℕ}

/-- An element in front of the one that is erased stays where it is. -/
theorem idxOf_eraseIdx_of_lt (h : l.idxOf a < i) : (l.eraseIdx i).idxOf a = l.idxOf a := by
  induction l generalizing i with
  | nil => rfl
  | cons b l ih =>
    cases i with
    | zero => exact absurd h (Nat.not_lt_zero _)
    | succ i =>
      by_cases hb : b = a
      · simp [hb]
      · rw [List.idxOf_cons_ne l hb] at h ⊢
        rw [List.eraseIdx_cons_succ, List.idxOf_cons_ne _ hb, ih (by omega)]

/-- An element behind the one that is erased moves by one. -/
theorem idxOf_eraseIdx_of_gt (h : i < l.idxOf a) : (l.eraseIdx i).idxOf a = l.idxOf a - 1 := by
  induction l generalizing i with
  | nil => exact absurd h (Nat.not_lt_zero i)
  | cons b l ih =>
    have hb : b ≠ a := by
      rintro rfl
      simp at h
    rw [List.idxOf_cons_ne l hb] at h ⊢
    cases i with
    | zero => rfl
    | succ i =>
      rw [List.eraseIdx_cons_succ, List.idxOf_cons_ne _ hb, ih (by omega)]
      omega

theorem notMem_eraseIdx_idxOf (hn : l.Nodup) : a ∉ l.eraseIdx (l.idxOf a) := by
  rw [List.mem_eraseIdx_iff_getElem?]
  rintro ⟨i, hne, hi⟩
  obtain ⟨hlt, rfl⟩ := List.getElem?_eq_some_iff.mp hi
  exact hne (hn.idxOf_getElem i hlt).symm

end Index

/-- When a smaller position is closed, what is kept at a position stood behind it. -/
theorem mem_behind_of_getElem? {f s : ℕ} (hf : f ∈ closed) (hlt : f < s) {x : α}
    (hx : (keep closed l)[s]? = some x) : x ∈ keepFrom closed (s + 1) (l.drop (s + 1)) := by
  have hsl : s + 1 ≤ l.length :=
    (List.getElem?_eq_some_iff.mp hx).1.trans_le (keepFrom_sublist closed 0 l).length_le
  have htake : (l.take (s + 1)).length = s + 1 := List.length_take_of_le hsl
  have hshort : (keepFrom closed 0 (l.take (s + 1))).length ≤ s := by
    have := length_keepFrom_lt (l := l.take (s + 1)) hf (Nat.zero_le f) (by omega)
    omega
  rw [keep_split closed hsl, List.getElem?_append_right hshort] at hx
  exact List.mem_of_getElem? hx

/-- What is kept behind a position is still kept when more is closed in front of it. -/
theorem mem_keep_of_behind {s : ℕ} (hs : s < l.length) (hi : ∀ i ∈ is, i ≤ s) {x : α}
    (hx : x ∈ keepFrom closed (s + 1) (l.drop (s + 1))) : x ∈ keep (closed ++ is) l := by
  have hsame : keepFrom (closed ++ is) (s + 1) (l.drop (s + 1)) =
      keepFrom closed (s + 1) (l.drop (s + 1)) := by
    refine keepFrom_congr fun i hsi _ => ?_
    have hni : i ∉ is := fun hm => absurd (hi i hm) (Nat.not_le.mpr hsi)
    simp [hni]
  rw [keep_split _ hs, hsame]
  exact List.mem_append_right _ hx

/-- Once a smaller position has been removed, a larger one names an element behind the
one that was meant: the removal loses an element that should stay. -/
theorem removeAll_ne_of_smaller_first {s f : ℕ} {ss fs : List ℕ} (hn : l.Nodup)
    (hf : fs.Pairwise (· > ·)) (hr : ∀ i ∈ fs, i < l.length) (hs : ∀ i ∈ ss, i < s)
    (hfm : f ∈ fs) (hlt : f < s) :
    removeAll (fs ++ s :: ss) l ≠ some (keep (fs ++ s :: ss) l) := by
  intro h
  rw [removeAll_append, removeAll_of_descending hf hr, Option.bind_some, removeAll] at h
  split at h
  next hlen =>
    obtain ⟨x, hx⟩ : ∃ x, (keep fs l)[s]? = some x := ⟨_, List.getElem?_eq_getElem hlen⟩
    have hstay : x ∈ keep (fs ++ s :: ss) l := by
      apply mem_keep_of_behind (hlen.trans_le (keepFrom_sublist fs 0 l).length_le) _
        (mem_behind_of_getElem? hfm hlt hx)
      intro i hi
      rcases List.mem_cons.mp hi with rfl | hi
      · exact le_rfl
      · exact (hs i hi).le
    have hnd : (keep fs l).Nodup := hn.sublist (keepFrom_sublist ..)
    have hgone : x ∉ (keep fs l).eraseIdx s := by
      rw [List.mem_eraseIdx_iff_getElem?]
      rintro ⟨i, hne, hi⟩
      exact hne ((List.getElem?_inj hlen hnd).mp (hx.trans hi.symm)).symm
    exact hgone ((removeAll_sublist h).subset hstay)
  next => cases h

end Ferrokey.Collections
