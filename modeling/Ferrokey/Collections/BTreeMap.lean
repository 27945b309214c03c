import Ferrokey.Collections.BTreeSet

/-! # Ordered maps

The standard library's ordered map, as the list of its entries in ascending
order of their keys. No key occurs twice.
-/

namespace Ferrokey

/-- A map kept as the list of its entries, their keys strictly ascending. -/
structure BTreeMap (α β : Type*) [LinearOrder α] where
  entries : List (α × β)
  ascending : entries.Pairwise (fun e e' => e.1 < e'.1)

namespace BTreeMap

variable {α β : Type*} [LinearOrder α]

def new : BTreeMap α β := ⟨[], .nil⟩

def get (m : BTreeMap α β) (k : α) : Option β := (m.entries.find? (·.1 == k)).map Prod.snd

def values (m : BTreeMap α β) : List β := m.entries.map Prod.snd

/-- Set the value of a key; a value it had is replaced. -/
def insert (m : BTreeMap α β) (k : α) (v : β) : BTreeMap α β :=
  ⟨m.entries.filter (fun e => decide (e.1 < k)) ++
      (k, v) :: m.entries.filter (fun e => decide (k < e.1)), by
    refine List.pairwise_append.mpr ⟨m.ascending.filter _, ?_, ?_⟩
    · refine List.pairwise_cons.mpr ⟨fun e he => ?_, m.ascending.filter _⟩
      exact of_decide_eq_true (List.mem_filter.mp he).2
    · intro e he e' he'
      have hlt : e.1 < k := of_decide_eq_true (List.mem_filter.mp he).2
      rcases List.mem_cons.mp he' with rfl | he'
      · exact hlt
      · exact hlt.trans (of_decide_eq_true (List.mem_filter.mp he').2)⟩

def remove (m : BTreeMap α β) (k : α) : BTreeMap α β :=
  ⟨m.entries.filter (fun e => decide (e.1 ≠ k)), m.ascending.filter _⟩

variable {m : BTreeMap α β} {k k' : α} {v v' : β}

theorem eq_of_mem_entries (h : (k, v) ∈ m.entries) (h' : (k, v') ∈ m.entries) : v = v' := by
  have hn : (m.entries.map Prod.fst).Nodup :=
    List.pairwise_map.mpr (m.ascending.imp ne_of_lt)
  have he := List.inj_on_of_nodup_map hn h h' rfl
  exact congrArg Prod.snd he

theorem get_eq_some_iff : m.get k = some v ↔ (k, v) ∈ m.entries := by
  rw [get, Option.map_eq_some_iff]
  constructor
  · rintro ⟨⟨k', v'⟩, hf, rfl⟩
    obtain rfl : k' = k := by simpa using List.find?_some hf
    exact List.mem_of_find?_eq_some hf
  · intro h
    have hs : (m.entries.find? (·.1 == k)).isSome := List.find?_isSome.mpr ⟨_, h, by simp⟩
    obtain ⟨⟨k', v'⟩, hf⟩ := Option.isSome_iff_exists.mp hs
    obtain rfl : k' = k := by simpa using List.find?_some hf
    exact ⟨_, hf, eq_of_mem_entries (List.mem_of_find?_eq_some hf) h⟩

theorem mem_entries_insert :
    (k', v') ∈ (m.insert k v).entries ↔ (k' = k ∧ v' = v) ∨ (k' ≠ k ∧ (k', v') ∈ m.entries) := by
  simp only [insert, List.mem_append, List.mem_cons, List.mem_filter, decide_eq_true_eq,
    Prod.mk.injEq, ne_iff_lt_or_gt]
  tauto

@[simp] theorem get_new : (new : BTreeMap α β).get k = none := rfl

theorem get_insert : (m.insert k v).get k' = if k' = k then some v else m.get k' := by
  ext w
  rw [get_eq_some_iff, mem_entries_insert]
  split
  next h => simp [h, eq_comm]
  next h => simp [h, get_eq_some_iff]

theorem get_remove : (m.remove k).get k' = if k' = k then none else m.get k' := by
  ext w
  rw [get_eq_some_iff]
  split
  next h => simp [remove, h]
  next h => simp [remove, h, get_eq_some_iff]

theorem mem_values : v ∈ m.values ↔ ∃ k, m.get k = some v := by
  simp [values, get_eq_some_iff]

end BTreeMap

end Ferrokey
