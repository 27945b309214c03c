import Ferrokey.Machine.Runs
import Mathlib.Data.List.DropRight

/-! # Capped queues with two ends

A queue keeps the newest of the entries that were put into it, as many as its capacity
allows. Entries can be taken from both of its ends. It can be indexed from its oldest
and from its newest entry.
-/

namespace Ferrokey.Collections

open Machine

variable {α β : Type*} {cap : ℕ}

/-- The entries, the oldest first. -/
structure Deque (α : Type*) (cap : ℕ) where
  entries : List α
  length_le : entries.length ≤ cap

/-- A call at one of the ends, or at both. -/
inductive DequeCall (α : Type*) where
  | push (a : α)
  | popNewest
  | popOldest
  | drainOldest (n : ℕ)
  | clear
  deriving DecidableEq, Repr

/-- What a call gives back. -/
inductive DequeAnswer (α : Type*) where
  | evicted (full : Bool)
  | popped (a : Option α)
  | done
  deriving DecidableEq, Repr

def DequeCall.map (f : α → β) : DequeCall α → DequeCall β
  | push a => push (f a)
  | popNewest => popNewest
  | popOldest => popOldest
  | drainOldest n => drainOldest n
  | clear => clear

namespace Deque

theorem length_rtake_le (l : List α) (n : ℕ) : (l.rtake n).length ≤ n := by
  simp only [List.rtake, List.length_drop]
  omega

def empty (cap : ℕ) : Deque α cap := ⟨[], Nat.zero_le cap⟩

variable (q : Deque α cap)

/-- The queue is full. -/
def Full : Prop := q.entries.length = cap

instance : Decidable q.Full := inferInstanceAs (Decidable (_ = _))

/-- Put in an entry, and keep the newest ones for which there is room. -/
def push (a : α) : Deque α cap := ⟨(q.entries ++ [a]).rtake cap, length_rtake_le _ cap⟩

/-- Leave out an entry, or several, wherever they stand. -/
def shrink {l : List α} (h : l.Sublist q.entries) : Deque α cap where
  entries := l
  length_le := h.length_le.trans q.length_le

/-- One call, with what it gives back. -/
def call : DequeCall α → Deque α cap × DequeAnswer α
  | .push a => (q.push a, .evicted (decide q.Full))
  | .popNewest => (q.shrink (List.dropLast_sublist _), .popped q.entries.getLast?)
  | .popOldest => (q.shrink (List.tail_sublist _), .popped q.entries.head?)
  | .drainOldest n => (q.shrink (List.drop_sublist n _), .done)
  | .clear => (empty cap, .done)

/-- The entry at an index from the oldest one. -/
def fromOldest (i : ℕ) : Option α := q.entries[i]?

/-- The entry at an index from the newest one. -/
def fromNewest (i : ℕ) : Option α := q.entries.reverse[i]?

variable {q}

/-- A full queue gives up its oldest entry for a new one. -/
theorem entries_push_of_full (h : q.Full) (hpos : 0 < cap) (a : α) :
    (q.push a).entries = q.entries.tail ++ [a] := by
  obtain ⟨oldest, rest, hentries⟩ : ∃ oldest rest, q.entries = oldest :: rest :=
    List.exists_cons_of_length_pos (hpos.trans_eq h.symm)
  have hlen : rest.length + 1 = cap := by
    simpa [Full, hentries] using h
  simp [push, List.rtake, hentries, ← hlen]

theorem entries_push_of_room (h : ¬ q.Full) (a : α) : (q.push a).entries = q.entries ++ [a] := by
  have hle := q.length_le
  have hroom : (q.entries ++ [a]).length - cap = 0 := by
    simp only [Full, List.length_append, List.length_singleton] at h ⊢
    omega
  simp only [push, List.rtake, hroom, List.drop_zero]

/-- An entry has an index from either end. -/
theorem fromNewest_sub {i : ℕ} (hi : i < q.entries.length) :
    q.fromNewest (q.entries.length - 1 - i) = q.fromOldest i := by
  have hback : q.entries.length - 1 - (q.entries.length - 1 - i) = i := by omega
  rw [fromNewest, List.getElem?_reverse (by omega), hback, fromOldest]

/-- Taken out at the old end, the entries come in their order, and then there are no more. -/
theorem outputs_popOldest (q : Deque α cap) (n : ℕ) :
    outputs call q (List.replicate n .popOldest) =
      (List.range n).map fun i => .popped q.entries[i]? := by
  induction n generalizing q with
  | zero => rfl
  | succ n ih =>
    rw [List.replicate_succ, outputs, ih, List.range_succ_eq_map, List.map_cons, List.map_map]
    refine congrArg₂ List.cons (congrArg DequeAnswer.popped List.head?_eq_getElem?) ?_
    simp [call, shrink, Function.comp_def]

/-- Taken out at the new end, they come in the other order. -/
theorem outputs_popNewest (q : Deque α cap) (n : ℕ) :
    outputs call q (List.replicate n .popNewest) =
      (List.range n).map fun i => .popped q.entries.reverse[i]? := by
  induction n generalizing q with
  | zero => rfl
  | succ n ih =>
    rw [List.replicate_succ, outputs, ih, List.range_succ_eq_map, List.map_cons, List.map_map]
    refine congrArg₂ List.cons (congrArg DequeAnswer.popped ?_) ?_
    · rw [← List.head?_reverse, List.head?_eq_getElem?]
    · simp [call, shrink, Function.comp_def, ← List.tail_reverse]

end Deque

end Ferrokey.Collections
