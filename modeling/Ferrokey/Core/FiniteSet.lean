import Ferrokey.Collections.SlotIter
import Ferrokey.Core.KeySet
import Mathlib.Data.Finset.Sort

/-! # The held-key set as a finite set

The array of keys stands for a finite set that takes no more keys when it has as many as
there are slots. Every call on the array does what the call does on the set, and all that
is read from the array, in either direction, is read from the set.
-/

namespace Ferrokey

open Collections Machine

/-- A call that changes a set. -/
inductive SetCall (α : Type*) where
  | insert (a : α)
  | remove (a : α)
  | clear
  deriving DecidableEq, Repr

/-- What a call does to a finite set that takes no more elements when it has so many, and whether an
element was removed. -/
def SetCall.onFinset {α : Type*} [DecidableEq α] (cap : ℕ) (S : Finset α) :
    SetCall α → Finset α × Option Bool
  | .insert a => (if S.card < cap then Insert.insert a S else S, none)
  | .remove a => (S.erase a, some (decide (a ∈ S)))
  | .clear => (∅, none)

namespace KeySet

/-- How many times a key is in the slots. -/
def countOf (s : KeySet) (key : PhysicalKey) : ℕ := s.table.slots.count (some key)

/-- Ascending iteration from the front, and descending from the back. -/
def iter (s : KeySet) : SlotIter PhysicalKey := s.table.iter

def call (s : KeySet) : SetCall PhysicalKey → KeySet × Option Bool
  | .insert key => (s.insert key, none)
  | .remove key => ((s.remove key).1, some (s.remove key).2)
  | .clear => (s.clear, none)

def toFinset (s : KeySet) : Finset PhysicalKey := s.keys.toFinset

variable {s : KeySet} {key : PhysicalKey}

@[simp] theorem mem_toFinset : key ∈ s.toFinset ↔ key ∈ s := List.mem_toFinset

@[simp] theorem card_toFinset (s : KeySet) : s.toFinset.card = s.len :=
  (List.toFinset_card_of_nodup s.nodup).trans s.length_keys

/-- The keys stand in the array as the set is sorted. -/
theorem sort_toFinset (s : KeySet) : s.toFinset.sort = s.keys :=
  (List.toFinset_sort (· ≤ ·) s.nodup).mpr (s.sorted.imp fun hlt => hlt.le)

theorem countOf_eq (s : KeySet) (key : PhysicalKey) :
    s.countOf key = if key ∈ s.toFinset then 1 else 0 := by
  have hkeys : s.countOf key = s.keys.count key := by
    rw [countOf, SlotTable.slots_eq, pack, List.count_append, List.count_replicate,
      List.count_map_of_injective _ _ (Option.some_injective _)]
    rfl
  rw [hkeys, s.nodup.count]
  exact if_congr mem_toFinset.symm rfl rfl

/-- One call does to the array what it does to the set. -/
theorem call_toFinset (s : KeySet) (c : SetCall PhysicalKey) :
    (c.onFinset maxHeldKeys s.toFinset).2 = (s.call c).2 ∧
      (s.call c).1.toFinset = (c.onFinset maxHeldKeys s.toFinset).1 := by
  cases c with
  | insert key =>
    refine ⟨rfl, ?_⟩
    rw [SetCall.onFinset, card_toFinset, call]
    split
    next hroom =>
      ext key'
      rw [mem_toFinset, mem_insert hroom, Finset.mem_insert, mem_toFinset]
    next hfull => rw [insert_full (Nat.not_lt.mp hfull)]
  | remove key =>
    constructor
    · refine congrArg some ?_
      rw [Bool.eq_iff_iff, decide_eq_true_iff, mem_toFinset]
      exact remove_snd.symm
    · ext key'
      exact mem_toFinset.trans (mem_remove.trans (by simp [SetCall.onFinset]))
  | clear => exact ⟨rfl, rfl⟩

/-- All that is read from the array is what the set is: its slots, what is copied from it, and its
iteration from the front, from the back and from both ends in turn. -/
structure Agrees (S : Finset PhysicalKey) (s : KeySet) : Prop where
  length : s.table.slots.length = maxHeldKeys
  keys : ∀ i < s.len, ∃ key, s.table.slots[i]? = some (some key) ∧ S.sort[i]? = some key
  ascending : ∀ (i j : ℕ) (key key' : PhysicalKey), i < j →
    s.table.slots[i]? = some (some key) → s.table.slots[j]? = some (some key') → key < key'
  later : ∀ i, s.len ≤ i → i < maxHeldKeys → s.table.slots[i]? = some none
  len : s.len = S.card
  contains : ∀ key, s.contains key = decide (key ∈ S)
  countOf : ∀ key, s.countOf key = if key ∈ S then 1 else 0
  copyInto : ∀ buf, buf.length = maxHeldKeys →
    s.copyInto buf = (S.sort ++ buf.drop S.card, S.card)
  iter : ∀ n, outputs (SlotIter.call maxHeldKeys) s.iter (List.replicate n .next) =
    (List.range n).map fun i => .popped S.sort[i]?
  iterRev : ∀ n, outputs (SlotIter.call maxHeldKeys) s.iter (List.replicate n .nextBack) =
    (List.range n).map fun i => .popped S.sort.reverse[i]?
  bothEnds : ∃ q : Deque PhysicalKey maxHeldKeys, q.entries = S.sort ∧ ∀ calls,
    outputs (SlotIter.call maxHeldKeys) s.iter calls =
      outputs Deque.call q (calls.map IterCall.pop)

theorem slot_eq (s : KeySet) (i : ℕ) :
    s.table.slots[i]? = if i < maxHeldKeys then some s.keys[i]? else none := by
  rw [s.table.slots_eq, getElem?_pack (s.table.length_entries.trans_le s.len_le)]
  rfl

theorem slot_some_iff {i : ℕ} :
    s.table.slots[i]? = some (some key) ↔ s.keys[i]? = some key := by
  rw [slot_eq]
  constructor
  · intro h
    split at h
    · exact Option.some.inj h
    · cases h
  · intro h
    have hi : i < s.keys.length := (List.getElem?_eq_some_iff.mp h).1
    rw [if_pos (hi.trans_le (s.length_keys.trans_le s.len_le)), h]

theorem agrees_toFinset (s : KeySet) : s.Agrees s.toFinset := by
  have hqueue (calls : List IterCall) := s.table.outputs_iter calls
  constructor
  · rw [s.table.slots_eq]
    exact length_pack (s.table.length_entries.trans_le s.len_le)
  · intro i hi
    have hkey := List.getElem?_eq_getElem (hi.trans_eq s.length_keys.symm)
    exact ⟨_, slot_some_iff.mpr hkey, by rw [sort_toFinset, hkey]⟩
  · intro i j key key' hij hi hj
    obtain ⟨_, hi⟩ := List.getElem?_eq_some_iff.mp (slot_some_iff.mp hi)
    obtain ⟨_, hj⟩ := List.getElem?_eq_some_iff.mp (slot_some_iff.mp hj)
    rw [← hi, ← hj]
    exact List.pairwise_iff_getElem.mp s.sorted i j _ _ hij
  · intro i hi hmax
    rw [slot_eq, if_pos hmax, List.getElem?_eq_none (s.length_keys.trans_le hi)]
  · exact s.card_toFinset.symm
  · intro key
    rw [Bool.eq_iff_iff, contains_iff, decide_eq_true_iff, mem_toFinset]
  · exact s.countOf_eq
  · intro buf hbuf
    rw [sort_toFinset, card_toFinset]
    exact copyInto_eq (s.len_le.trans_eq hbuf.symm)
  · intro n
    have hforward := hqueue (List.replicate n .next)
    rw [List.map_replicate] at hforward
    rw [sort_toFinset]
    exact hforward.trans (s.table.queue.outputs_popOldest n)
  · intro n
    have hbackward := hqueue (List.replicate n .nextBack)
    rw [List.map_replicate] at hbackward
    rw [sort_toFinset]
    exact hbackward.trans (s.table.queue.outputs_popNewest n)
  · exact ⟨s.table.queue, s.sort_toFinset.symm, hqueue⟩

/-- The array refines the finite set. -/
theorem run_agrees (calls : List (SetCall PhysicalKey)) :
    outputs call new calls = outputs (SetCall.onFinset maxHeldKeys) ∅ calls ∧
      (run call new calls).Agrees (run (SetCall.onFinset maxHeldKeys) ∅ calls) := by
  have hstep : ∀ (s : KeySet) (S : Finset PhysicalKey) (c : SetCall PhysicalKey),
      s.toFinset = S → (SetCall.onFinset maxHeldKeys S (id c)).2 = (s.call c).2 ∧
        (s.call c).1.toFinset = (SetCall.onFinset maxHeldKeys S (id c)).1 := by
    rintro s S c rfl
    exact s.call_toFinset c
  have hnew : new.toFinset = ∅ := rfl
  obtain ⟨hanswers, hset⟩ := run_related (fun (s : KeySet) S => s.toFinset = S) hstep hnew calls
  rw [List.map_id] at hanswers hset
  refine ⟨hanswers.symm, ?_⟩
  rw [← hset]
  exact agrees_toFinset _

end KeySet

end Ferrokey
