import Ferrokey.Core.State

/-! # Key repeat

The repeat engine tracks the held repeatable keys in a slot table, each with the
moment its next repeat is due. A tick answers with the due keys. It knows nothing
of the keyboard state machine: which keys are tracked depends on the calls alone.
-/

namespace Ferrokey

open Collections

/-- A moment in milliseconds, moved on by a duration in nanoseconds; it saturates. -/
def addDuration (now duration : ℕ) : ℕ :=
  min (now + duration / 1000000 % UInt64.size) (UInt64.size - 1)

/-- The repeat timing; the durations are in nanoseconds. -/
structure RepeatSettings where
  enabled : Bool
  delay : ℕ
  cadence : ℕ
  deriving DecidableEq, Repr

structure RepeatState where
  nextRepeatAt : ℕ
  repeating : Bool
  deriving DecidableEq, Repr

structure RepeatEngine where
  settings : RepeatSettings
  held : SlotTable (PhysicalKey × RepeatState) maxHeldKeys

namespace RepeatEngine

def new (settings : RepeatSettings) : RepeatEngine := ⟨settings, .new⟩

/-- Stop tracking a key. -/
def keyUp (r : RepeatEngine) (key : PhysicalKey) : RepeatEngine :=
  { r with held := (KeyboardState.takeEntry r.held key).1 }

/-- Start tracking a repeatable key afresh; an entry it had is replaced. With repeats
disabled the entry is due in 24 hours. -/
def keyDown (r : RepeatEngine) (key : PhysicalKey) (now : ℕ) (repeatable : Bool) : RepeatEngine :=
  let r := r.keyUp key
  if !repeatable then r
  else
    let next := addDuration now (if r.settings.enabled then r.settings.delay else 86400000000000)
    { r with held := r.held.push (key, ⟨next, false⟩) }

/-- The keys that are due now; each is due again after the cadence. -/
def tick (r : RepeatEngine) (now : ℕ) : RepeatEngine × List PhysicalKey :=
  if !r.settings.enabled then (r, [])
  else
    let due := fun entry : PhysicalKey × RepeatState => decide (entry.2.nextRepeatAt ≤ now)
    ({ r with held := r.held.update fun entry =>
        if due entry then (entry.1, ⟨addDuration now r.settings.cadence, true⟩) else entry },
      (r.held.entries.filter due).map Prod.fst)

def releaseAll (r : RepeatEngine) : RepeatEngine := { r with held := .new }

/-- The tracked keys. -/
def heldKeys (r : RepeatEngine) : List PhysicalKey := r.held.entries.map Prod.fst

section

variable {r : RepeatEngine} {key : PhysicalKey} {now : ℕ}

@[simp] theorem heldKeys_new (settings : RepeatSettings) : (new settings).heldKeys = [] := by
  simp [heldKeys, new]

@[simp] theorem heldKeys_releaseAll : r.releaseAll.heldKeys = [] := by
  simp [heldKeys, releaseAll]

theorem entries_takeEntry {β : Type} (t : SlotTable (PhysicalKey × β) maxHeldKeys)
    (key : PhysicalKey) :
    (KeyboardState.takeEntry t key).1.entries = t.entries.eraseP (·.1 == key) := by
  rw [List.eraseP_eq_eraseIdx, KeyboardState.takeEntry, t.position_eq]
  cases hp : t.entries.findIdx? (·.1 == key) with
  | none => rfl
  | some pos =>
    have hlt := (List.findIdx?_eq_some_iff_getElem.mp hp).1
    rw [SlotTable.length_entries] at hlt
    exact SlotTable.entries_removeAt hlt

theorem heldKeys_keyUp : (r.keyUp key).heldKeys = r.heldKeys.erase key := by
  rw [heldKeys, keyUp, entries_takeEntry, List.erase_eq_eraseP', heldKeys, List.eraseP_map]
  rfl

/-- A press drops the entry of its key and adds at most a fresh one. -/
theorem heldKeys_keyDown (r : RepeatEngine) (key : PhysicalKey) (now : ℕ) (repeatable : Bool) :
    (r.keyDown key now repeatable).heldKeys = r.heldKeys.erase key ∨
      (r.keyDown key now repeatable).heldKeys = r.heldKeys.erase key ++ [key] := by
  unfold keyDown
  dsimp only
  split
  · exact Or.inl heldKeys_keyUp
  · rw [← heldKeys_keyUp, heldKeys, SlotTable.entries_push]
    split
    · exact Or.inr (List.map_append ..)
    · exact Or.inl rfl

theorem mem_heldKeys_keyDown {repeatable : Bool} {key' : PhysicalKey}
    (h : key' ∈ (r.keyDown key now repeatable).heldKeys) : key' = key ∨ key' ∈ r.heldKeys := by
  rcases heldKeys_keyDown r key now repeatable with he | he
  · exact Or.inr (List.mem_of_mem_erase (he ▸ h))
  · rcases List.mem_append.mp (he ▸ h) with hm | hm
    · exact Or.inr (List.mem_of_mem_erase hm)
    · exact Or.inl (List.mem_singleton.mp hm)

theorem nodup_keyDown (h : r.heldKeys.Nodup) (repeatable : Bool) :
    (r.keyDown key now repeatable).heldKeys.Nodup := by
  rcases heldKeys_keyDown r key now repeatable with he | he
  · rw [he]
    exact h.erase key
  · rw [he, ← List.concat_eq_append]
    exact (h.erase key).concat h.not_mem_erase

@[simp] theorem heldKeys_tick : (r.tick now).1.heldKeys = r.heldKeys := by
  unfold tick
  split
  · rfl
  · simp only [heldKeys, SlotTable.entries_update, List.map_map]
    refine List.map_congr_left fun entry _ => ?_
    simp only [Function.comp_apply]
    split <;> rfl

theorem mem_of_mem_tick (h : key ∈ (r.tick now).2) : key ∈ r.heldKeys := by
  unfold tick at h
  split at h
  · exact absurd h List.not_mem_nil
  · obtain ⟨entry, hm, rfl⟩ := List.mem_map.mp h
    exact List.mem_map.mpr ⟨entry, (List.mem_filter.mp hm).1, rfl⟩

end

end RepeatEngine

end Ferrokey
