import Ferrokey.Core.Driver

/-! # Releasing everything

The release of everything copies the held keys into a buffer and scans the buffer twice
from its end, for the keys that are no modifiers and then for the modifiers. Between them
the scans find every held key once, and nothing is left for a second release.
-/

namespace Ferrokey

open Collections Machine

namespace KeyboardState

/-- The modifiers come last. -/
theorem releasedKeys_ordered (s : KeyboardState) : s.releasedKeys.Pairwise fun key key' =>
    key.isModifier = true → key'.isModifier = true := by
  refine List.pairwise_append.mpr ⟨?_, ?_, ?_⟩
  · refine List.pairwise_of_forall_mem_list fun key hkey key' _ hmod => ?_
    simp [hmod] at hkey
  · exact List.pairwise_of_forall_mem_list fun _ _ key' hkey' _ => (List.mem_filter.mp hkey').2
  · exact fun _ _ key' hkey' _ => (List.mem_filter.mp hkey').2

/-- After a release of everything there is nothing to release. -/
theorem releaseAll_quiet (s : KeyboardState) : s.releaseAll.1.releaseAll.2 = [] ∧
    ∀ key now, (s.releaseAll.1.release key now).2 = .ok [] := by
  have hup : ∀ key, key ∉ s.releaseAll.1.depressed := fun _ => KeySet.mem_new
  constructor
  · rw [releaseAll_snd, List.map_eq_nil_iff, List.eq_nil_iff_forall_not_mem]
    exact fun key hkey => hup key (mem_releasedKeys.mp hkey)
  · intro key now
    simp [release, KeySet.contains_eq_false_iff.mpr (hup key)]

/-- A release of everything lets each held key go once and nothing else, the modifiers last.
It forgets latches, taps and injections, leaves the locks and has nothing to do twice. -/
theorem releaseAll_once (settings : StateSettings) (calls : List Call) :
    let s := run KeyboardState.step (new settings) calls
    (∃ keys : List PhysicalKey, s.releaseAll.2 = keys.map .up ∧ keys.Nodup ∧
      (∀ key, key ∈ keys ↔ key ∈ s.depressed) ∧
      keys.Pairwise fun key key' => key.isModifier = true → key'.isModifier = true) ∧
    (s.releaseAll.1.depressed.keys = [] ∧ s.releaseAll.1.latched = .empty ∧
      s.releaseAll.1.tapTrack.entries = [] ∧ s.releaseAll.1.injectedMods.entries = []) ∧
    (s.releaseAll.1.capsLock = s.capsLock ∧ s.releaseAll.1.numLock = s.numLock ∧
      s.releaseAll.1.locked = s.locked) ∧
    s.releaseAll.1.releaseAll.2 = [] ∧ ∀ key now, (s.releaseAll.1.release key now).2 = .ok [] := by
  intro s
  refine ⟨⟨s.releasedKeys, releaseAll_snd s, nodup_releasedKeys s, fun _ => mem_releasedKeys,
    releasedKeys_ordered s⟩, ⟨?_, rfl, ?_, ?_⟩, ⟨rfl, rfl, rfl⟩, releaseAll_quiet s⟩
  · exact SlotTable.entries_new
  · exact SlotTable.entries_new
  · exact SlotTable.entries_new

end KeyboardState

end Ferrokey
