import Mathlib.Data.List.Sort
import Mathlib.Tactic.Common

/-! # Segments of a list

What is inserted at one place of a list and removed at another moves the elements between
the two places and no others. The segment of those elements slides: as many elements enter
it at one end as leave it at the other.
-/

namespace Ferrokey.Collections

variable {α : Type*}

/-- The elements from one position up to another. -/
def segment (lo hi : ℕ) (l : List α) : List α := (l.take hi).drop lo

/-- Do something to the elements from one position up to another. -/
def onSegment (lo hi : ℕ) (f : List α → List α) (l : List α) : List α :=
  l.take lo ++ f (segment lo hi l) ++ l.drop hi

/-- An element enters in front, several times. -/
def slideDown (n : ℕ) (x : α) (s : List α) : List α := (List.replicate n x ++ s).take s.length

/-- An element enters at the end, several times. -/
def slideUp (n : ℕ) (x : α) (s : List α) : List α := (s ++ List.replicate n x).drop n

variable {f f' : List α → List α} {l s : List α} {x y : α} {lo hi n i : ℕ}

/-! ### Segments -/

theorem length_segment (hhi : hi ≤ l.length) : (segment lo hi l).length = hi - lo := by
  rw [segment, List.length_drop, List.length_take, min_eq_left hhi]

theorem getElem?_segment : (segment lo hi l)[i]? = if lo + i < hi then l[lo + i]? else none := by
  rw [segment, List.getElem?_drop, List.getElem?_take]

theorem onSegment_id (h : lo ≤ hi) : onSegment lo hi id l = l := by
  have htake : l.take lo = (l.take hi).take lo := by rw [List.take_take, min_eq_left h]
  rw [onSegment, id, segment, htake, List.take_append_drop, List.take_append_drop]

/-- What is done to a segment is seen in the segment. -/
theorem onSegment_inj : onSegment lo hi f l = onSegment lo hi f' l ↔
    f (segment lo hi l) = f' (segment lo hi l) := by
  rw [onSegment, onSegment, List.append_left_inj, List.append_right_inj]

theorem onSegment_eq_self_iff (h : lo ≤ hi) :
    onSegment lo hi f l = l ↔ f (segment lo hi l) = segment lo hi l := by
  have hid : onSegment lo hi f l = l ↔ onSegment lo hi f l = onSegment lo hi id l := by
    rw [onSegment_id h]
  exact hid.trans onSegment_inj

theorem length_onSegment (hf : ∀ s, (f s).length = s.length) (h : lo ≤ hi) (hhi : hi ≤ l.length) :
    (onSegment lo hi f l).length = l.length := by
  rw [onSegment, List.length_append, List.length_append, hf, length_segment hhi, List.length_take,
    List.length_drop]
  omega

theorem getElem?_onSegment (hf : ∀ s, (f s).length = s.length) (h : lo ≤ hi)
    (hhi : hi ≤ l.length) : (onSegment lo hi f l)[i]? =
      if lo ≤ i ∧ i < hi then (f (segment lo hi l))[i - lo]? else l[i]? := by
  have hlen : (f (segment lo hi l)).length = hi - lo := (hf _).trans (length_segment hhi)
  have htake : (l.take lo).length = lo := List.length_take_of_le (h.trans hhi)
  rw [onSegment, List.append_assoc, List.getElem?_append, htake, List.getElem?_append, hlen,
    List.getElem?_take, List.getElem?_drop]
  split_ifs <;> first | rfl | omega | (congr 1; omega)

/-- The elements outside a segment stay. -/
theorem getElem?_onSegment_of_not_mem (hf : ∀ s, (f s).length = s.length) (h : lo ≤ hi)
    (hhi : hi ≤ l.length) (hi' : i < lo ∨ hi ≤ i) : (onSegment lo hi f l)[i]? = l[i]? := by
  rw [getElem?_onSegment hf h hhi, if_neg]
  omega

theorem segment_onSegment (hf : ∀ s, (f s).length = s.length) (h : lo ≤ hi) (hhi : hi ≤ l.length) :
    segment lo hi (onSegment lo hi f l) = f (segment lo hi l) := by
  ext1 i
  rw [getElem?_segment, getElem?_onSegment hf h hhi]
  split_ifs with hlt hmem
  · rw [Nat.add_sub_cancel_left]
  · omega
  · rw [List.getElem?_eq_none]
    rw [hf, length_segment hhi]
    omega

theorem onSegment_onSegment (hf : ∀ s, (f s).length = s.length) (h : lo ≤ hi)
    (hhi : hi ≤ l.length) :
    onSegment lo hi f' (onSegment lo hi f l) = onSegment lo hi (fun s => f' (f s)) l := by
  have htake : (onSegment lo hi f l).take lo = l.take lo := by
    rw [onSegment, List.append_assoc,
      List.take_left' (List.length_take_of_le (h.trans hhi))]
  have hdrop : (onSegment lo hi f l).drop hi = l.drop hi := by
    rw [onSegment, List.drop_left']
    rw [List.length_append, hf, length_segment hhi, List.length_take_of_le (h.trans hhi)]
    omega
  rw [onSegment, htake, hdrop, segment_onSegment hf h hhi]
  rfl

/-! ### Sliding -/

@[simp] theorem length_slideDown : (slideDown n x s).length = s.length := by
  simp [slideDown]

@[simp] theorem length_slideUp : (slideUp n x s).length = s.length := by
  simp [slideUp]

@[simp] theorem slideDown_zero : slideDown 0 x s = s := by simp [slideDown]

@[simp] theorem slideUp_zero : slideUp 0 x s = s := by simp [slideUp]

theorem getElem?_slideDown : (slideDown n x s)[i]? =
    if i < s.length then (if i < n then some x else s[i - n]?) else none := by
  rw [slideDown, List.getElem?_take, List.getElem?_append, List.length_replicate,
    List.getElem?_replicate]
  split_ifs <;> rfl

theorem slideUp_eq_reverse : slideUp n x s = (slideDown n x s.reverse).reverse := by
  rw [slideUp, slideDown, List.reverse_take, List.reverse_append, List.reverse_reverse,
    List.reverse_replicate]
  congr 1
  simp

theorem getElem?_slideUp : (slideUp n x s)[i]? =
    if n + i < s.length then s[n + i]? else if i < s.length then some x else none := by
  rw [slideUp, List.getElem?_drop, List.getElem?_append, List.getElem?_replicate]
  split_ifs <;> first | rfl | omega

/-- An operation on segments that keeps their length, a number of times. -/
structure IsSlide (slide : ℕ → List α → List α) : Prop where
  zero : ∀ s, slide 0 s = s
  succ : ∀ n s, slide n (slide 1 s) = slide (n + 1) s
  length : ∀ n s, (slide n s).length = s.length

theorem isSlide_down (x : α) : IsSlide (slideDown · x) where
  zero _ := slideDown_zero
  succ n s := by
    ext1 i
    simp only [getElem?_slideDown, length_slideDown]
    split_ifs <;> first | rfl | omega
  length _ _ := length_slideDown

theorem isSlide_up (x : α) : IsSlide (slideUp · x) where
  zero _ := slideUp_zero
  succ n s := by
    ext1 i
    simp only [getElem?_slideUp, length_slideUp]
    split_ifs <;> first | rfl | omega | (congr 1; omega)
  length _ _ := length_slideUp

theorem slideDown_replicate (n k : ℕ) :
    slideDown n x (List.replicate k x) = List.replicate k x := by
  rw [slideDown, List.replicate_append_replicate, List.take_replicate, List.length_replicate]
  congr 1
  omega

/-- Sliding by some places changes nothing only where everything is what enters. -/
theorem slideDown_eq_self_iff : slideDown n x s = s ↔ n = 0 ∨ ∀ y ∈ s, y = x := by
  constructor
  · intro h
    refine or_iff_not_imp_left.mpr fun hn => ?_
    -- an element is what stood `n` places before it, down to those that entered
    have hall : ∀ i < s.length, s[i]? = some x := by
      intro i
      induction i using Nat.strongRecOn with
      | _ i ih =>
        intro hi
        rw [← h, getElem?_slideDown, if_pos hi]
        split_ifs with hlt
        · rfl
        · exact ih (i - n) (by omega) (by omega)
    intro y hy
    obtain ⟨i, hi, rfl⟩ := List.getElem_of_mem hy
    have := hall i hi
    rwa [List.getElem?_eq_getElem hi, Option.some_inj] at this
  · rintro (rfl | h)
    · exact slideDown_zero
    · obtain ⟨k, rfl⟩ : ∃ k, s = List.replicate k x := ⟨_, List.eq_replicate_of_mem h⟩
      exact slideDown_replicate n k

theorem slideUp_eq_self_iff : slideUp n x s = s ↔ n = 0 ∨ ∀ y ∈ s, y = x := by
  rw [slideUp_eq_reverse, List.reverse_eq_iff, slideDown_eq_self_iff]
  simp

theorem slideDown_one (h : s ≠ []) : slideDown 1 x s = x :: s.dropLast := by
  obtain ⟨y, s, rfl⟩ := List.exists_cons_of_ne_nil h
  rw [List.dropLast_eq_take]
  rfl

/-- Two elements that enter look like one exactly if the second meets only such as the first. -/
theorem slideDown_twice_iff (h : s ≠ []) {z : α} :
    slideDown 1 y (slideDown 1 x s) = slideDown 1 z s ↔ y = z ∧ ∀ w ∈ s.dropLast, w = x := by
  have hne : slideDown 1 x s ≠ [] := by
    rw [slideDown_one h]
    exact List.cons_ne_nil _ _
  have hlast : (slideDown 1 x s).dropLast = slideDown 1 x s.dropLast := by
    ext1 i
    simp only [List.getElem?_dropLast, getElem?_slideDown, length_slideDown, List.length_dropLast]
    split_ifs <;> first | rfl | omega
  rw [slideDown_one (x := y) hne, slideDown_one (x := z) h, List.cons_eq_cons, hlast,
    slideDown_eq_self_iff]
  simp

/-- The element that has entered a segment is replaced. -/
theorem onSegment_slideDown_set (h : lo < hi) (hhi : hi ≤ l.length) :
    (onSegment lo hi (slideDown 1 x) l).set lo y = onSegment lo hi (slideDown 1 y) l := by
  ext1 i
  rw [List.getElem?_set, length_onSegment (fun _ => length_slideDown) h.le hhi,
    getElem?_onSegment (fun _ => length_slideDown) h.le hhi,
    getElem?_onSegment (fun _ => length_slideDown) h.le hhi, getElem?_slideDown, getElem?_slideDown,
    length_segment hhi]
  split_ifs <;> first | rfl | omega

theorem dropLast_segment (h : lo ≤ hi) (hhi : hi < l.length) :
    (segment lo (hi + 1) l).dropLast = segment lo hi l := by
  ext1 i
  rw [List.getElem?_dropLast, length_segment hhi, getElem?_segment, getElem?_segment]
  split_ifs <;> first | rfl | omega

/-! ### Insertion and removal -/

theorem insertIdx_eraseIdx_of_le {a b : ℕ} (h : a ≤ b) (hb : b < l.length) :
    (l.eraseIdx a).insertIdx b x = onSegment a (b + 1) (slideUp 1 x) l := by
  ext1 i
  rw [getElem?_onSegment (fun _ => length_slideUp) (by omega) hb, getElem?_slideUp,
    length_segment hb, getElem?_segment, List.getElem?_insertIdx,
    List.length_eraseIdx_of_lt (h.trans_lt hb)]
  simp only [List.getElem?_eraseIdx]
  split_ifs <;> first | rfl | omega | (congr 1; omega)

theorem insertIdx_eraseIdx_of_lt {a b : ℕ} (h : b < a) (ha : a < l.length) :
    (l.eraseIdx a).insertIdx b x = onSegment b (a + 1) (slideDown 1 x) l := by
  ext1 i
  rw [getElem?_onSegment (fun _ => length_slideDown) (by omega) ha, getElem?_slideDown,
    length_segment ha, getElem?_segment, List.getElem?_insertIdx, List.length_eraseIdx_of_lt ha]
  simp only [List.getElem?_eraseIdx]
  split_ifs <;> first | rfl | omega | (congr 1; omega)

theorem eraseIdx_insertIdx_of_le {a b : ℕ} (h : a ≤ b) (hb : b < l.length) :
    (l.insertIdx a x).eraseIdx (b + 1) = onSegment a (b + 1) (slideDown 1 x) l := by
  ext1 i
  rw [getElem?_onSegment (fun _ => length_slideDown) (by omega) hb, getElem?_slideDown,
    length_segment hb, getElem?_segment, List.getElem?_eraseIdx]
  simp only [List.getElem?_insertIdx]
  split_ifs <;> first | rfl | omega | (congr 1; omega)

theorem eraseIdx_insertIdx_of_lt {a b : ℕ} (h : b < a) (ha : a ≤ l.length) :
    (l.insertIdx a x).eraseIdx (b + 1) = onSegment (b + 1) a (slideUp 1 x) l := by
  ext1 i
  rw [getElem?_onSegment (fun _ => length_slideUp) (by omega) ha, getElem?_slideUp,
    length_segment ha, getElem?_segment, List.getElem?_eraseIdx]
  simp only [List.getElem?_insertIdx]
  split_ifs <;> first | rfl | omega | (congr 1; omega)

end Ferrokey.Collections
