import Ferrokey.Collections.Deque
import Ferrokey.Collections.SlotTable
import Ferrokey.Machine.Runs

/-! # Iterators over a slot table

An iterator has two cursors. It goes through the slots of a table from the front and from
the back, past the slots that are empty. As long as its back cursor is not past the entries,
it behaves like a queue with two ends that has the entries between the cursors.
-/

namespace Ferrokey.Collections

open Machine

variable {α : Type*} {N : ℕ}

/-- Slots, and the two cursors between which the entries are still to come. -/
structure SlotIter (α : Type*) where
  slots : List (Option α)
  front : ℕ
  back : ℕ

inductive IterCall where
  | next
  | nextBack
  deriving DecidableEq, Repr

/-- The call of a queue with two ends for one of an iterator. -/
def IterCall.pop : IterCall → DequeCall α
  | next => .popOldest
  | nextBack => .popNewest

namespace SlotIter

/-- Go on from the front cursor to an entry, in as many turns as there are slots left. -/
def nextLoop : ℕ → SlotIter α → SlotIter α × Option α
  | 0, it => (it, none)
  | turns + 1, it =>
    if it.back ≤ it.front then (it, none)
    else
      match it.slots.getD it.front none with
      | some a => ({ it with front := it.front + 1 }, some a)
      | none => nextLoop turns { it with front := it.front + 1 }

/-- Go on from the back cursor to an entry, in as many turns as there are slots before it. -/
def nextBackLoop : ℕ → SlotIter α → SlotIter α × Option α
  | 0, it => (it, none)
  | turns + 1, it =>
    if it.back ≤ it.front then (it, none)
    else
      match it.slots.getD (it.back - 1) none with
      | some a => ({ it with back := it.back - 1 }, some a)
      | none => nextBackLoop turns { it with back := it.back - 1 }

variable (N) in
def next (it : SlotIter α) : SlotIter α × Option α := nextLoop (N - it.front) it

def nextBack (it : SlotIter α) : SlotIter α × Option α := nextBackLoop it.back it

variable (N) in
/-- One call, with the entry it gives. -/
def call (it : SlotIter α) : IterCall → SlotIter α × DequeAnswer α
  | .next => ((it.next N).1, .popped (it.next N).2)
  | .nextBack => (it.nextBack.1, .popped it.nextBack.2)

/-- The iterator is on the slots of some entries, with its back cursor not past them, and the queue
has those between the cursors. -/
structure Covers (l : List α) (it : SlotIter α) (q : Deque α N) : Prop where
  slots : it.slots = pack N l
  length_le : l.length ≤ N
  back_le : it.back ≤ l.length
  entries : q.entries = (l.take it.back).drop it.front

variable {l : List α} {it : SlotIter α} {q : Deque α N}

theorem Covers.slot (h : Covers l it q) {i : ℕ} (hi : i < it.back) :
    it.slots.getD i none = l[i]? := by
  have hlt : i < N := Nat.lt_of_lt_of_le hi (h.back_le.trans h.length_le)
  rw [List.getD_eq_getElem?_getD, h.slots, getElem?_pack h.length_le, if_pos hlt]
  rfl

theorem Covers.shrink (h : Covers l it q) {front back : ℕ} {entries : List α}
    (hback : back ≤ it.back) (heq : entries = (l.take back).drop front)
    (hsub : entries.Sublist q.entries) :
    Covers l { it with front, back } (q.shrink hsub) where
  slots := h.slots
  length_le := h.length_le
  back_le := hback.trans h.back_le
  entries := heq

/-- There is nothing between cursors that have met. -/
theorem Covers.entries_of_met (h : Covers l it q) (hmet : it.back ≤ it.front) :
    q.entries = [] := by
  rw [h.entries, List.drop_eq_nil_iff, List.length_take]
  exact (Nat.min_le_left _ _).trans hmet

theorem nextLoop_of_met (hmet : it.back ≤ it.front) (turns : ℕ) :
    nextLoop turns it = (it, none) := by
  cases turns with
  | zero => rfl
  | succ turns => rw [nextLoop, if_pos hmet]

theorem nextBackLoop_of_met (hmet : it.back ≤ it.front) (turns : ℕ) :
    nextBackLoop turns it = (it, none) := by
  cases turns with
  | zero => rfl
  | succ turns => rw [nextBackLoop, if_pos hmet]

/-- The slot of an entry is not empty, so that the first turn of the loop gives the entry. -/
theorem Covers.next_eq (h : Covers l it q) (hfree : it.front < it.back) :
    it.next N = ({ it with front := it.front + 1 }, q.entries.head?) := by
  have hlt : it.front < l.length := hfree.trans_le h.back_le
  have hturns : N - it.front = (N - it.front - 1) + 1 := by
    have hle := h.length_le
    omega
  have hslot : it.slots.getD it.front none = some l[it.front] :=
    (h.slot hfree).trans (List.getElem?_eq_getElem hlt)
  have hhead : q.entries.head? = some l[it.front] := by
    rw [h.entries, List.head?_drop, List.getElem?_take_of_lt hfree]
    exact List.getElem?_eq_getElem hlt
  rw [next, hturns, nextLoop, if_neg (Nat.not_le.mpr hfree), hslot, hhead]

theorem Covers.nextBack_eq (h : Covers l it q) (hfree : it.front < it.back) :
    it.nextBack = ({ it with back := it.back - 1 }, q.entries.getLast?) := by
  have hlast : it.back - 1 < it.back := Nat.sub_one_lt_of_lt hfree
  have hlt : it.back - 1 < l.length := hlast.trans_le h.back_le
  have hslot : it.slots.getD (it.back - 1) none = some l[it.back - 1] :=
    (h.slot hlast).trans (List.getElem?_eq_getElem hlt)
  have hend : q.entries.getLast? = some l[it.back - 1] := by
    have hlen : ¬ (l.take it.back).length ≤ it.front := by
      rw [List.length_take, Nat.min_eq_left h.back_le]
      exact Nat.not_le.mpr hfree
    rw [h.entries, List.getLast?_drop, if_neg hlen, List.getLast?_take,
      if_neg (Nat.ne_zero_of_lt hfree), List.getElem?_eq_getElem hlt]
    rfl
  obtain ⟨turns, hturns⟩ : ∃ turns, it.back = turns + 1 :=
    Nat.exists_eq_succ_of_ne_zero (Nat.ne_zero_of_lt hfree)
  have hloop : it.nextBack = nextBackLoop (turns + 1) it :=
    congrArg (nextBackLoop · it) hturns
  rw [hloop, nextBackLoop, if_neg (Nat.not_le.mpr hfree), hslot, hend]

theorem Covers.tail_eq (h : Covers l it q) :
    q.entries.tail = (l.take it.back).drop (it.front + 1) := by
  rw [h.entries, List.tail_drop]

theorem Covers.dropLast_eq (h : Covers l it q) (hfree : it.front < it.back) :
    q.entries.dropLast = (l.take (it.back - 1)).drop it.front := by
  have hcount : it.front + (it.back - it.front - 1) = it.back - 1 := by omega
  rw [h.entries, List.dropLast_eq_take, List.length_drop, List.length_take,
    Nat.min_eq_left h.back_le, List.take_drop, hcount, List.take_take,
    Nat.min_eq_left (Nat.sub_le _ _)]

/-- One call is answered alike by the iterator and by the queue. -/
theorem Covers.call (h : Covers l it q) (c : IterCall) :
    (q.call c.pop).2 = (it.call N c).2 ∧ Covers l (it.call N c).1 (q.call c.pop).1 := by
  by_cases hmet : it.back ≤ it.front
  · have hnil := h.entries_of_met hmet
    have hsame {entries : List α} (hsub : entries.Sublist q.entries) :
        Covers l it (q.shrink hsub) := by
      have hentries : entries = q.entries := by
        rw [hnil] at hsub ⊢
        exact List.sublist_nil.mp hsub
      exact h.shrink le_rfl (hentries.trans h.entries) hsub
    cases c with
    | next =>
      rw [SlotIter.call, SlotIter.next, nextLoop_of_met hmet]
      have hanswer : DequeAnswer.popped q.entries.head? = .popped none := by
        rw [hnil, List.head?_nil]
      exact ⟨hanswer, hsame (List.tail_sublist _)⟩
    | nextBack =>
      rw [SlotIter.call, SlotIter.nextBack, nextBackLoop_of_met hmet]
      have hanswer : DequeAnswer.popped q.entries.getLast? = .popped none := by
        rw [hnil, List.getLast?_nil]
      exact ⟨hanswer, hsame (List.dropLast_sublist _)⟩
  · have hfree := Nat.not_le.mp hmet
    cases c with
    | next =>
      rw [SlotIter.call, h.next_eq hfree]
      exact ⟨rfl, h.shrink le_rfl h.tail_eq (List.tail_sublist _)⟩
    | nextBack =>
      rw [SlotIter.call, h.nextBack_eq hfree]
      exact ⟨rfl, h.shrink (Nat.sub_le _ _) (h.dropLast_eq hfree) (List.dropLast_sublist _)⟩

end SlotIter

namespace SlotTable

variable (t : SlotTable α N)

/-- An iterator over all the entries. -/
def iter : SlotIter α := ⟨t.slots, 0, t.len⟩

/-- The entries as a queue. -/
def queue : Deque α N := ⟨t.entries, t.length_entries.trans_le t.len_le⟩

theorem iter_covers : SlotIter.Covers t.entries t.iter t.queue where
  slots := t.slots_eq
  length_le := t.length_entries.trans_le t.len_le
  back_le := t.length_entries.ge
  entries := (List.take_of_length_le t.length_entries.le).symm

/-- An iterator over a table answers any calls as a queue does that has its entries. -/
theorem outputs_iter (calls : List IterCall) :
    outputs (SlotIter.call N) t.iter calls = outputs Deque.call t.queue (calls.map IterCall.pop) :=
  (run_related (SlotIter.Covers t.entries) (fun _ _ c h => h.call c) t.iter_covers calls).1.symm

end SlotTable

end Ferrokey.Collections
