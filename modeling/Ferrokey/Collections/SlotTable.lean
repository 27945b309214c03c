import Mathlib.Data.List.Sort
import Mathlib.Tactic.Common

/-! # Fixed-capacity slot tables

An array of optional entries and a length: the entries stand at the front and
every later slot is empty. Removal and insertion shift the slots in loops over
the whole array. The invariant is a field of the table, so the operations are
read off the list of its entries.
-/

namespace Ferrokey.Collections

variable {α : Type*} {N : ℕ}

/-- The slots of an array of a given capacity with the entries at its front. -/
def pack (N : ℕ) (entries : List α) : List (Option α) :=
  entries.map some ++ List.replicate (N - entries.length) none

theorem getElem?_pack {l : List α} (h : l.length ≤ N) (i : ℕ) :
    (pack N l)[i]? = if i < N then some l[i]? else none := by
  unfold pack
  by_cases hi : i < l.length
  · rw [List.getElem?_append_left (by simpa using hi), if_pos (by omega)]
    simp [hi]
  · rw [List.getElem?_append_right (by simpa using hi), List.length_map, List.getElem?_replicate]
    by_cases hN : i < N
    · rw [if_pos (by omega), if_pos hN, List.getElem?_eq_none (by omega)]
    · rw [if_neg (by omega), if_neg hN]

theorem length_pack {l : List α} (h : l.length ≤ N) : (pack N l).length = N := by
  simp only [pack, List.length_append, List.length_map, List.length_replicate]
  omega

theorem eq_pack {slots : List (Option α)} {l : List α} (h : l.length ≤ N)
    (hs : slots.length = N) (hi : ∀ i < N, slots[i]? = some l[i]?) : slots = pack N l := by
  refine List.ext_getElem? fun i => ?_
  rw [getElem?_pack h]
  by_cases hN : i < N
  · rw [if_pos hN, hi i hN]
  · rw [if_neg hN, List.getElem?_eq_none (by omega)]

theorem filterMap_pack (N : ℕ) (l : List α) : (pack N l).filterMap id = l := by
  have hrep : ∀ n, (List.replicate n (none : Option α)).filterMap id = [] := by
    intro n
    induction n with
    | zero => rfl
    | succ n ih => rw [List.replicate_succ, List.filterMap_cons_none rfl, ih]
  rw [pack, List.filterMap_append, hrep, List.append_nil, List.filterMap_map]
  exact List.filterMap_some

/-- Move the slots behind a position one to the left, in ascending order. -/
def shiftLeft (N pos len : ℕ) (slots : List (Option α)) : List (Option α) :=
  (List.range N).foldl
    (fun a j => if pos ≤ j ∧ j + 1 < len then a.set j (a.getD (j + 1) none) else a) slots

/-- Move the slots from a position on one to the right, in descending order. -/
def shiftRight (N pos len : ℕ) (slots : List (Option α)) : List (Option α) :=
  (List.range N).foldl
    (fun a k =>
      let j := N - 1 - k
      if pos < j ∧ j ≤ len then a.set j (a.getD (j - 1) none) else a) slots

section Shifts

variable {slots : List (Option α)} {pos len : ℕ}

theorem length_foldl {turn : List (Option α) → ℕ → List (Option α)}
    (h : ∀ a j, (turn a j).length = a.length) (js : List ℕ) :
    (js.foldl turn slots).length = slots.length := by
  induction js generalizing slots with
  | nil => rfl
  | cons j js ih => exact ih.trans (h slots j)

theorem length_ite_set {c : Prop} [Decidable c] (a : List (Option α)) (j : ℕ) (o : Option α) :
    (if c then a.set j o else a).length = a.length := by
  split
  · exact List.length_set
  · rfl

theorem length_shiftLeft : (shiftLeft N pos len slots).length = slots.length :=
  length_foldl (fun a j => length_ite_set a j _) _

theorem length_shiftRight : (shiftRight N pos len slots).length = slots.length :=
  length_foldl (fun a k => length_ite_set a (N - 1 - k) _) _

/-- After `n` turns of the left shift, the slots below `n` have moved. -/
theorem getElem?_shiftLeft_turns (hlen : len ≤ slots.length) (n i : ℕ) :
    ((List.range n).foldl
      (fun a j => if pos ≤ j ∧ j + 1 < len then a.set j (a.getD (j + 1) none) else a) slots)[i]? =
      if pos ≤ i ∧ i < n ∧ i + 1 < len then slots[i + 1]? else slots[i]? := by
  induction n generalizing i with
  | zero => simp
  | succ n ih =>
    rw [List.range_succ, List.foldl_append, List.foldl_cons, List.foldl_nil]
    set a := (List.range n).foldl
      (fun a j => if pos ≤ j ∧ j + 1 < len then a.set j (a.getD (j + 1) none) else a) slots
    by_cases hc : pos ≤ n ∧ n + 1 < len
    · have hnext : a.getD (n + 1) none = slots.getD (n + 1) none := by
        rw [List.getD_eq_getElem?_getD, ih, if_neg (by omega), List.getD_eq_getElem?_getD]
      rw [if_pos hc, List.getElem?_set, hnext]
      by_cases hi : n = i
      · subst hi
        have hn : n < a.length := by
          have hl : a.length = slots.length := length_foldl (fun a j => length_ite_set a j _) _
          omega
        rw [if_pos rfl, if_pos hn, if_pos (by omega), List.getD_eq_getElem?_getD,
          List.getElem?_eq_getElem (by omega), Option.getD_some]
      · rw [if_neg hi, ih]
        exact if_congr (by omega) rfl rfl
    · rw [if_neg hc, ih]
      exact if_congr (by omega) rfl rfl

/-- After `n` turns of the right shift, the `n` last slots have moved. -/
theorem getElem?_shiftRight_turns (hN : slots.length = N) (n i : ℕ) (hn : n ≤ N) :
    ((List.range n).foldl
      (fun a k =>
        let j := N - 1 - k
        if pos < j ∧ j ≤ len then a.set j (a.getD (j - 1) none) else a) slots)[i]? =
      if N - n ≤ i ∧ i < N ∧ pos < i ∧ i ≤ len then slots[i - 1]? else slots[i]? := by
  induction n generalizing i with
  | zero =>
    rw [if_neg (by omega)]
    rfl
  | succ n ih =>
    rw [List.range_succ, List.foldl_append, List.foldl_cons, List.foldl_nil]
    set a := (List.range n).foldl
      (fun a k =>
        let j := N - 1 - k
        if pos < j ∧ j ≤ len then a.set j (a.getD (j - 1) none) else a) slots
    dsimp only
    by_cases hc : pos < N - 1 - n ∧ N - 1 - n ≤ len
    · have hprev : a.getD (N - 1 - n - 1) none = slots.getD (N - 1 - n - 1) none := by
        rw [List.getD_eq_getElem?_getD, ih _ (by omega), if_neg (by omega),
          List.getD_eq_getElem?_getD]
      rw [if_pos hc, List.getElem?_set, hprev]
      by_cases hi : N - 1 - n = i
      · subst hi
        have hj : N - 1 - n < a.length := by
          have hl : a.length = slots.length :=
            length_foldl (fun a k => length_ite_set a (N - 1 - k) _) _
          omega
        rw [if_pos rfl, if_pos hj, if_pos (by omega), List.getD_eq_getElem?_getD,
          List.getElem?_eq_getElem (by omega), Option.getD_some]
      · rw [if_neg hi, ih _ (by omega)]
        exact if_congr (by omega) rfl rfl
    · rw [if_neg hc, ih _ (by omega)]
      exact if_congr (by omega) rfl rfl

end Shifts

section Packed

variable {l : List α}

theorem set_pack (h : l.length < N) (a : α) :
    (pack N l).set l.length (some a) = pack N (l ++ [a]) := by
  refine eq_pack (by simp; omega) (by rw [List.length_set, length_pack h.le]) fun i hi => ?_
  rw [List.getElem?_set, getElem?_pack h.le, if_pos hi, length_pack h.le]
  by_cases he : l.length = i
  · rw [if_pos he, if_pos (by omega), ← he]
    simp
  · rw [if_neg he]
    by_cases hlt : i < l.length
    · rw [List.getElem?_append_left hlt]
    · rw [List.getElem?_eq_none (by omega), List.getElem?_eq_none (by simp; omega)]

/-- Shifting left from an entry and clearing the vacated slot removes the entry. -/
theorem shiftLeft_pack (h : l.length ≤ N) {pos : ℕ} (hpos : pos < l.length) :
    (shiftLeft N pos l.length (pack N l)).set (l.length - 1) none = pack N (l.eraseIdx pos) := by
  have hlen : (l.eraseIdx pos).length = l.length - 1 := List.length_eraseIdx_of_lt hpos
  refine eq_pack (by omega) (by rw [List.length_set, length_shiftLeft, length_pack h]) fun i hi => ?_
  rw [List.getElem?_set, length_shiftLeft, length_pack h, shiftLeft,
    getElem?_shiftLeft_turns (by rw [length_pack h]; exact h), getElem?_pack h, getElem?_pack h,
    List.getElem?_eraseIdx, if_pos hi]
  by_cases he : l.length - 1 = i
  · rw [if_pos he, if_pos (by omega), if_neg (by omega), List.getElem?_eq_none (by omega)]
  · rw [if_neg he]
    by_cases hlt : i < pos
    · rw [if_neg (by omega), if_pos hlt]
    · rw [if_neg hlt]
      by_cases hin : i + 1 < l.length
      · rw [if_pos (by omega), if_pos (by omega)]
      · rw [if_neg (by omega), List.getElem?_eq_none (by omega), List.getElem?_eq_none (by omega)]

/-- Shifting right from a position and writing there inserts an entry. -/
theorem shiftRight_pack (h : l.length < N) {pos : ℕ} (hpos : pos ≤ l.length) (a : α) :
    (shiftRight N pos l.length (pack N l)).set pos (some a) = pack N (l.insertIdx pos a) := by
  have hlen : (l.insertIdx pos a).length = l.length + 1 := List.length_insertIdx_of_le_length hpos a
  have hp := length_pack h.le
  refine eq_pack (by omega) (by rw [List.length_set, length_shiftRight, hp]) fun i hi => ?_
  rw [List.getElem?_set, length_shiftRight, hp, shiftRight,
    getElem?_shiftRight_turns hp N i le_rfl, getElem?_pack h.le, getElem?_pack h.le,
    List.getElem?_insertIdx, if_pos hi]
  by_cases he : pos = i
  · subst he
    rw [if_pos rfl, if_pos hi, if_neg (by omega), if_pos rfl, if_pos hpos]
  · rw [if_neg he]
    by_cases hlt : i < pos
    · rw [if_neg (by omega), if_pos hlt]
    · rw [if_neg hlt, if_neg (Ne.symm he)]
      by_cases hin : i ≤ l.length
      · rw [if_pos (by omega), if_pos (by omega)]
      · rw [if_neg (by omega), List.getElem?_eq_none (by omega), List.getElem?_eq_none (by omega)]

end Packed

/-- The place of a new element in a sorted list: before the first greater one. -/
def sortedPos [LinearOrder α] (x : α) (l : List α) : ℕ :=
  (l.findIdx? (fun y => decide (x < y))).getD l.length

section Sorted

variable [LinearOrder α] {l : List α} {x : α}

theorem sortedPos_le : sortedPos x l ≤ l.length := by
  unfold sortedPos
  cases h : l.findIdx? (fun y => decide (x < y)) with
  | none => exact le_rfl
  | some i => exact (List.findIdx?_eq_some_iff_getElem.mp h).1.le

theorem sortedPos_cons_of_lt {y : α} (h : x < y) : sortedPos x (y :: l) = 0 := by
  simp [sortedPos, List.findIdx?_cons, h]

theorem sortedPos_cons_of_not_lt {y : α} (h : ¬ x < y) :
    sortedPos x (y :: l) = sortedPos x l + 1 := by
  simp only [sortedPos, List.findIdx?_cons, decide_eq_false h, List.length_cons]
  cases l.findIdx? (fun y => decide (x < y)) <;> simp

/-- Inserting an absent element at its place keeps a list strictly sorted. -/
theorem pairwise_insertIdx_sortedPos (hs : l.Pairwise (· < ·)) (hn : x ∉ l) :
    (l.insertIdx (sortedPos x l) x).Pairwise (· < ·) := by
  induction l with
  | nil => simp [sortedPos]
  | cons y l ih =>
    obtain ⟨hy, hl⟩ := List.pairwise_cons.mp hs
    obtain ⟨hne, hn⟩ := not_or.mp (mt List.mem_cons.mpr hn)
    by_cases hlt : x < y
    · rw [sortedPos_cons_of_lt hlt, List.insertIdx_zero]
      refine List.pairwise_cons.mpr ⟨fun z hz => ?_, hs⟩
      rcases List.mem_cons.mp hz with rfl | hz
      · exact hlt
      · exact hlt.trans (hy z hz)
    · rw [sortedPos_cons_of_not_lt hlt, List.insertIdx_succ_cons]
      refine List.pairwise_cons.mpr ⟨fun z hz => ?_, ih hl hn⟩
      rcases (List.mem_insertIdx sortedPos_le).mp hz with rfl | hz
      · exact lt_of_le_of_ne (not_lt.mp hlt) (Ne.symm hne)
      · exact hy z hz

end Sorted

/-- A table of a fixed capacity: its slots and the number of entries at their front. -/
structure SlotTable (α : Type*) (N : ℕ) where
  slots : List (Option α)
  len : ℕ
  packed : ∃ l : List α, slots = pack N l ∧ l.length = len ∧ len ≤ N

namespace SlotTable

def entries (t : SlotTable α N) : List α := t.slots.filterMap id

theorem slots_eq (t : SlotTable α N) : t.slots = pack N t.entries := by
  obtain ⟨l, hs, -, -⟩ := t.packed
  rw [entries, hs, filterMap_pack]

@[simp] theorem length_entries (t : SlotTable α N) : t.entries.length = t.len := by
  obtain ⟨l, hs, hl, -⟩ := t.packed
  rw [entries, hs, filterMap_pack, hl]

theorem len_le (t : SlotTable α N) : t.len ≤ N := t.packed.choose_spec.2.2

def ofEntries (slots : List (Option α)) (len : ℕ) {l : List α} (hs : slots = pack N l)
    (hl : l.length = len) (hN : len ≤ N) : SlotTable α N := ⟨slots, len, l, hs, hl, hN⟩

@[simp] theorem entries_ofEntries {slots : List (Option α)} {len : ℕ} {l : List α}
    (hs : slots = pack N l) (hl : l.length = len) (hN : len ≤ N) :
    (ofEntries slots len hs hl hN).entries = l := by
  subst hs
  exact filterMap_pack N l

def new : SlotTable α N :=
  ofEntries (List.replicate N none) 0 (l := []) (by simp [pack]) rfl (Nat.zero_le N)

@[simp] theorem entries_new : (new : SlotTable α N).entries = [] := entries_ofEntries ..

/-- The first slot with an entry that has a property. -/
def position (t : SlotTable α N) (p : α → Bool) : Option ℕ := t.slots.findIdx? (fun o => o.any p)

theorem position_eq (t : SlotTable α N) (p : α → Bool) : t.position p = t.entries.findIdx? p := by
  rw [position, slots_eq, pack, List.findIdx?_append, List.findIdx?_map]
  have hnone : (List.replicate (N - t.entries.length) (none : Option α)).findIdx?
      (fun o => o.any p) = none := by
    rw [List.findIdx?_eq_none_iff]
    intro o ho
    rw [List.eq_of_mem_replicate ho]
    rfl
  rw [hnone]
  simp [Function.comp_def]

/-- Append an entry; a full table drops it. -/
def push (t : SlotTable α N) (a : α) : SlotTable α N :=
  if h : t.len < N then
    ofEntries (t.slots.set t.len (some a)) (t.len + 1) (l := t.entries ++ [a])
      (by rw [slots_eq, ← length_entries, set_pack (by simpa using h)]) (by simp) h
  else t

/-- Remove the entry at a position: the tail is shifted left and the vacated slot cleared. -/
def removeAt (t : SlotTable α N) (pos : ℕ) : SlotTable α N :=
  if h : pos < t.len then
    ofEntries ((shiftLeft N pos t.len t.slots).set (t.len - 1) none) (t.len - 1)
      (l := t.entries.eraseIdx pos)
      (by
        have hp := shiftLeft_pack (N := N) (l := t.entries) (by simpa using t.len_le)
          (by simpa using h)
        rwa [length_entries, ← slots_eq] at hp)
      (by rw [List.length_eraseIdx_of_lt (by simpa using h), length_entries])
      ((Nat.sub_le _ _).trans t.len_le)
  else t

theorem entries_removeAt {t : SlotTable α N} {pos : ℕ} (h : pos < t.len) :
    (t.removeAt pos).entries = t.entries.eraseIdx pos := by
  rw [removeAt, dif_pos h, entries_ofEntries]

/-- Insert an entry at a position: the tail is shifted right first. -/
def insertAt (t : SlotTable α N) (pos : ℕ) (a : α) : SlotTable α N :=
  if h : pos ≤ t.len ∧ t.len < N then
    ofEntries ((shiftRight N pos t.len t.slots).set pos (some a)) (t.len + 1)
      (l := t.entries.insertIdx pos a)
      (by
        have hp := shiftRight_pack (N := N) (l := t.entries) (by simpa using h.2)
          (by simpa using h.1) a
        rwa [length_entries, ← slots_eq] at hp)
      (by rw [List.length_insertIdx_of_le_length (by simpa using h.1), length_entries])
      h.2
  else t

theorem entries_insertAt {t : SlotTable α N} {pos : ℕ} (hpos : pos ≤ t.len) (h : t.len < N)
    (a : α) : (t.insertAt pos a).entries = t.entries.insertIdx pos a := by
  rw [insertAt, dif_pos ⟨hpos, h⟩, entries_ofEntries]

def update (t : SlotTable α N) (f : α → α) : SlotTable α N :=
  ofEntries (t.slots.map (Option.map f)) t.len (l := t.entries.map f)
    (by rw [slots_eq, pack, pack]; simp) (by simp) t.len_le

@[simp] theorem entries_update (t : SlotTable α N) (f : α → α) :
    (t.update f).entries = t.entries.map f := entries_ofEntries ..

theorem entries_push (t : SlotTable α N) (a : α) :
    (t.push a).entries = if t.len < N then t.entries ++ [a] else t.entries := by
  unfold push
  split <;> simp

end SlotTable

end Ferrokey.Collections
