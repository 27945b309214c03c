import Ferrokey.Collections.SlotTable
import Ferrokey.Core.Key

/-! # The held-key set

A sorted set of physical keys in a slot table of capacity 32. An insertion at
capacity is dropped.
-/

namespace Ferrokey

open Collections

def maxHeldKeys : ℕ := 32

/-- A sorted set of physical keys with a fixed capacity. -/
structure KeySet where
  table : SlotTable PhysicalKey maxHeldKeys
  sorted : table.entries.Pairwise (· < ·)

namespace KeySet

def new : KeySet := ⟨.new, by simp⟩

def len (s : KeySet) : ℕ := s.table.len

def contains (s : KeySet) (key : PhysicalKey) : Bool := s.table.slots.any (· == some key)

/-- The present keys, ascending, as they are copied into a buffer. -/
def keys (s : KeySet) : List PhysicalKey := s.table.entries

instance : Membership PhysicalKey KeySet := ⟨fun s key => key ∈ s.keys⟩

theorem mem_def {s : KeySet} {key : PhysicalKey} : key ∈ s ↔ key ∈ s.keys := Iff.rfl

@[simp] theorem contains_iff {s : KeySet} {key : PhysicalKey} :
    s.contains key = true ↔ key ∈ s := by
  rw [contains, mem_def, keys, SlotTable.entries, List.any_eq_true]
  simp [List.mem_filterMap]

theorem contains_eq_false_iff {s : KeySet} {key : PhysicalKey} :
    s.contains key = false ↔ key ∉ s := by
  rw [Bool.eq_false_iff, Ne, contains_iff]

instance (s : KeySet) (key : PhysicalKey) : Decidable (key ∈ s) :=
  decidable_of_iff _ contains_iff

@[simp] theorem length_keys (s : KeySet) : s.keys.length = s.len := s.table.length_entries

theorem nodup (s : KeySet) : s.keys.Nodup := s.sorted.imp fun h => h.ne

theorem len_le (s : KeySet) : s.len ≤ maxHeldKeys := s.table.len_le

/-- The sorted position of a key: the first slot with a greater one. -/
def insertPos (s : KeySet) (key : PhysicalKey) : ℕ :=
  (s.table.position (fun key' => decide (key < key'))).getD s.len

theorem insertPos_eq (s : KeySet) (key : PhysicalKey) : s.insertPos key = sortedPos key s.keys := by
  rw [insertPos, SlotTable.position_eq, sortedPos, length_keys]
  rfl

theorem entries_insertAt {s : KeySet} (h : s.len < maxHeldKeys) (key : PhysicalKey) :
    (s.table.insertAt (s.insertPos key) key).entries =
      s.keys.insertIdx (sortedPos key s.keys) key := by
  have hpos : s.insertPos key ≤ s.table.len := by
    rw [insertPos_eq]
    exact sortedPos_le.trans_eq s.length_keys
  rw [SlotTable.entries_insertAt hpos h, insertPos_eq]
  rfl

/-- Insert keeping the set sorted. A duplicate is a no-op, and so is an insertion at
capacity. -/
def insert (s : KeySet) (key : PhysicalKey) : KeySet :=
  if h : maxHeldKeys ≤ s.len ∨ s.contains key = true then s
  else
    ⟨s.table.insertAt (s.insertPos key) key, by
      obtain ⟨hl, hc⟩ := not_or.mp h
      rw [entries_insertAt (Nat.lt_of_not_le hl)]
      exact pairwise_insertIdx_sortedPos s.sorted (mt contains_iff.mpr hc)⟩

/-- Remove a key; the answer tells whether it was present. -/
def remove (s : KeySet) (key : PhysicalKey) : KeySet × Bool :=
  match s.table.position (· == key) with
  | none => (s, false)
  | some pos =>
    (⟨s.table.removeAt pos, by
      by_cases h : pos < s.table.len
      · rw [SlotTable.entries_removeAt h]
        exact s.sorted.sublist (List.eraseIdx_sublist ..)
      · rw [SlotTable.removeAt, dif_neg h]
        exact s.sorted⟩, true)

def clear (_ : KeySet) : KeySet := new

section

variable {s : KeySet} {key key' : PhysicalKey}

@[simp] theorem mem_new : key ∉ new := by simp [mem_def, keys, new]

theorem keys_insert (h : s.len < maxHeldKeys) (hk : key ∉ s) :
    (s.insert key).keys = s.keys.insertIdx (sortedPos key s.keys) key := by
  rw [insert, dif_neg (by simp [Nat.not_le.mpr h, hk])]
  exact entries_insertAt h key

/-- Below capacity an insertion adds exactly its key. -/
theorem mem_insert (h : s.len < maxHeldKeys) : key' ∈ s.insert key ↔ key' = key ∨ key' ∈ s := by
  by_cases hk : key ∈ s
  · rw [insert, dif_pos (Or.inr (contains_iff.mpr hk))]
    exact ⟨Or.inr, fun ho => ho.elim (fun he => he ▸ hk) id⟩
  · rw [mem_def, keys_insert h hk, List.mem_insertIdx sortedPos_le]
    rfl

theorem insert_full (h : maxHeldKeys ≤ s.len) : s.insert key = s := by
  rw [insert, dif_pos (Or.inl h)]

theorem len_insert (h : s.len < maxHeldKeys) (hk : key ∉ s) : (s.insert key).len = s.len + 1 := by
  rw [← length_keys, keys_insert h hk, List.length_insertIdx_of_le_length sortedPos_le, length_keys]

theorem position_of_mem (h : key ∈ s) :
    ∃ pos, s.table.position (· == key) = some pos ∧ pos < s.table.len ∧
      s.keys.eraseIdx pos = s.keys.erase key := by
  refine ⟨s.keys.idxOf key, ?_, ?_, (List.erase_eq_eraseIdx_of_idxOf rfl).symm⟩
  · rw [SlotTable.position_eq]
    exact List.findIdx?_eq_some_of_exists ⟨key, h, beq_self_eq_true key⟩
  · rw [← SlotTable.length_entries]
    exact List.idxOf_lt_length_of_mem h

theorem position_of_not_mem (h : key ∉ s) : s.table.position (· == key) = none := by
  rw [SlotTable.position_eq, List.findIdx?_eq_none_iff]
  intro key' hm
  simpa using fun he : key' = key => h (he ▸ hm)

theorem keys_remove : (s.remove key).1.keys = s.keys.erase key := by
  by_cases h : key ∈ s
  · obtain ⟨pos, hp, hlt, he⟩ := position_of_mem h
    unfold remove
    rw [hp]
    exact (SlotTable.entries_removeAt hlt).trans he
  · unfold remove
    rw [position_of_not_mem h, List.erase_of_not_mem h]

theorem mem_remove : key' ∈ (s.remove key).1 ↔ key' ≠ key ∧ key' ∈ s := by
  rw [mem_def, keys_remove, s.nodup.mem_erase_iff]
  rfl

theorem remove_snd : (s.remove key).2 = true ↔ key ∈ s := by
  by_cases h : key ∈ s
  · obtain ⟨pos, hp, -, -⟩ := position_of_mem h
    unfold remove
    rw [hp]
    exact iff_of_true rfl h
  · unfold remove
    rw [position_of_not_mem h]
    exact iff_of_false Bool.false_ne_true h

theorem len_remove_le : (s.remove key).1.len ≤ s.len := by
  rw [← length_keys, ← length_keys, keys_remove]
  exact List.length_erase_le

end

section Copy

/-- One slot of the copy: a present key goes to the next place of the buffer. -/
def copySlot (acc : List PhysicalKey × ℕ) : Option PhysicalKey → List PhysicalKey × ℕ
  | some key => (acc.1.set acc.2 key, acc.2 + 1)
  | none => acc

/-- Copy the present keys to the front of a buffer; the answer is how many they are. -/
def copyInto (s : KeySet) (buf : List PhysicalKey) : List PhysicalKey × ℕ :=
  s.table.slots.foldl copySlot (buf, 0)

theorem foldl_copySlot_none (acc : List PhysicalKey × ℕ) (n : ℕ) :
    (List.replicate n none).foldl copySlot acc = acc := by
  induction n with
  | zero => rfl
  | succ n ih => exact ih

theorem foldl_copySlot (keys done rest : List PhysicalKey) (h : keys.length ≤ rest.length) :
    (keys.map some).foldl copySlot (done ++ rest, done.length) =
      (done ++ keys ++ rest.drop keys.length, done.length + keys.length) := by
  induction keys generalizing done rest with
  | nil => simp
  | cons key keys ih =>
    cases rest with
    | nil => simp at h
    | cons first rest =>
      have hset : (done ++ first :: rest).set done.length key = (done ++ [key]) ++ rest := by simp
      have hlen : done.length + 1 = (done ++ [key]).length := by simp
      rw [List.map_cons, List.foldl_cons, copySlot, hset, hlen,
        ih (done ++ [key]) rest (by simpa using h)]
      simp [Nat.add_comm, Nat.add_left_comm]

/-- The keys replace the front of a buffer that is long enough for them. -/
theorem copyInto_eq {s : KeySet} {buf : List PhysicalKey} (h : s.len ≤ buf.length) :
    s.copyInto buf = (s.keys ++ buf.drop s.len, s.len) := by
  have hcopy := foldl_copySlot s.keys [] buf (by simpa using h)
  have hslots : s.table.slots = s.keys.map some ++ List.replicate (maxHeldKeys - s.len) none := by
    rw [s.table.slots_eq, pack, SlotTable.length_entries]
    rfl
  rw [copyInto, hslots, List.foldl_append, foldl_copySlot_none]
  simpa using hcopy

end Copy

end KeySet

end Ferrokey
