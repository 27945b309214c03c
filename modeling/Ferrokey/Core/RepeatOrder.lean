import Ferrokey.Core.Repeating

/-! # The order in which keys repeat

The table of tracked keys is in the order of their last presses, whatever was released and
pressed again in between, and a tick goes through it from the front. The keys of a tick
are therefore ascending only if they were pressed in that order.
-/

namespace Ferrokey

open Collections Machine

/-- Whether a call presses a key. -/
def RepeatCall.presses (key : PhysicalKey) : RepeatCall → Bool
  | .keyDown key' _ _ => key' == key
  | _ => false

/-- A key was pressed since the last press of another one. -/
def PressedBefore (calls : List RepeatCall) (key key' : PhysicalKey) : Prop :=
  ∃ since, since <:+ calls ∧ (∀ c ∈ since, c.presses key = false) ∧
    ∃ c ∈ since, c.presses key' = true

section

variable {calls : List RepeatCall} {key key' : PhysicalKey} {c : RepeatCall}

/-- Of two suffixes of the calls one is in the other, and a key is pressed in both or in none. -/
theorem PressedBefore.asymm (h : PressedBefore calls key key') :
    ¬ PressedBefore calls key' key := by
  rintro ⟨since', hsuffix', hnot', c', hc', hpress'⟩
  obtain ⟨since, hsuffix, hnot, c, hc, hpress⟩ := h
  rcases List.suffix_or_suffix_of_suffix hsuffix hsuffix' with hsub | hsub
  · rw [hnot' c (hsub.subset hc)] at hpress
    cases hpress
  · rw [hnot c' (hsub.subset hc')] at hpress'
    cases hpress'

theorem PressedBefore.concat (h : PressedBefore calls key key') (hc : c.presses key = false) :
    PressedBefore (calls ++ [c]) key key' := by
  obtain ⟨since, ⟨before, rfl⟩, hnot, c', hc', hpress⟩ := h
  refine ⟨since ++ [c], ⟨before, (List.append_assoc ..).symm⟩, ?_, c',
    List.mem_append_left _ hc', hpress⟩
  intro c' hc'
  rcases List.mem_append.mp hc' with hc' | hc'
  · exact hnot c' hc'
  · rwa [List.mem_singleton.mp hc']

theorem pressedBefore_last (hkey : c.presses key = false) (hkey' : c.presses key' = true) :
    PressedBefore (calls ++ [c]) key key' :=
  ⟨[c], List.suffix_append _ _, List.forall_mem_singleton.mpr hkey, c, List.mem_singleton_self c,
    hkey'⟩

end

namespace RepeatEngine

variable {calls : List RepeatCall} {r : RepeatEngine} {key : PhysicalKey}

/-- No key is tracked twice, and the keys stand in the order of their last presses. -/
structure InPressOrder (calls : List RepeatCall) (r : RepeatEngine) : Prop where
  nodup : r.heldKeys.Nodup
  ordered : r.heldKeys.Pairwise (PressedBefore calls)

/-- A call that presses nothing leaves the order of the keys that are still tracked. -/
theorem InPressOrder.sublist (h : InPressOrder calls r) {r' : RepeatEngine} {c : RepeatCall}
    (hc : ∀ key ∈ r'.heldKeys, c.presses key = false) (hsub : r'.heldKeys.Sublist r.heldKeys) :
    InPressOrder (calls ++ [c]) r' where
  nodup := h.nodup.sublist hsub
  ordered := (h.ordered.sublist hsub).imp_of_mem fun hkey _ hbefore => hbefore.concat (hc _ hkey)

theorem InPressOrder.keyDown (h : InPressOrder calls r) (key : PhysicalKey) (now : ℕ)
    (repeatable : Bool) : InPressOrder (calls ++ [.keyDown key now repeatable])
      (r.keyDown key now repeatable) := by
  have hothers : ∀ key' ∈ r.heldKeys.erase key,
      (RepeatCall.keyDown key now repeatable).presses key' = false := by
    intro key' hmem
    have hne : key' ≠ key := (h.nodup.mem_erase_iff.mp hmem).1
    simp [RepeatCall.presses, hne.symm]
  have hself : (RepeatCall.keyDown key now repeatable).presses key = true :=
    beq_self_eq_true key
  rcases heldKeys_keyDown r key now repeatable with hkeys | hkeys
  · exact h.sublist (hkeys ▸ hothers) (hkeys ▸ List.erase_sublist)
  · refine ⟨nodup_keyDown h.nodup repeatable, ?_⟩
    rw [hkeys, List.pairwise_append]
    refine ⟨?_, List.pairwise_singleton .., ?_⟩
    · exact (h.ordered.sublist List.erase_sublist).imp_of_mem
        fun hkey _ hbefore => hbefore.concat (hothers _ hkey)
    · intro key' hmem last hlast
      rw [List.mem_singleton.mp hlast]
      exact pressedBefore_last (hothers key' hmem) hself

theorem InPressOrder.step (h : InPressOrder calls r) (c : RepeatCall) :
    InPressOrder (calls ++ [c]) (r.step c).1 := by
  cases c with
  | keyDown key now repeatable => exact h.keyDown key now repeatable
  | keyUp key => exact h.sublist (fun _ _ => rfl) (heldKeys_keyUp ▸ List.erase_sublist)
  | releaseAll => exact h.sublist (fun _ _ => rfl) (heldKeys_releaseAll ▸ List.nil_sublist _)
  | tick now =>
    apply h.sublist fun _ _ => rfl
    rw [RepeatEngine.step, heldKeys_tick]

theorem inPressOrder_run (settings : RepeatSettings) (calls : List RepeatCall) :
    InPressOrder calls (run step (new settings) calls) := by
  induction calls using List.reverseRecOn with
  | nil => exact ⟨by simp, by simp⟩
  | append_singleton calls c ih =>
    rw [run_append]
    exact ih.step c

/-- A key is tracked, and its repeat is due. -/
def Due (r : RepeatEngine) (now : ℕ) (key : PhysicalKey) : Prop :=
  r.settings.enabled = true ∧ ∃ state, (key, state) ∈ r.held.entries ∧ state.nextRepeatAt ≤ now

theorem mem_tick_iff_due {now : ℕ} : key ∈ (r.tick now).2 ↔ r.Due now key := by
  cases hon : r.settings.enabled with
  | false => simp [tick, Due, hon]
  | true =>
    rw [mem_tick_iff hon, Due, hon]
    exact (and_iff_right rfl).symm

/-- A tick goes through the table from its front. -/
theorem tick_sublist (r : RepeatEngine) (now : ℕ) : (r.tick now).2.Sublist r.heldKeys := by
  unfold tick
  split
  · exact List.nil_sublist _
  · exact List.filter_sublist.map Prod.fst

/-- A tick returns the keys that are due, and no others, in ascending order. -/
def TicksAscending (r : RepeatEngine) (now : ℕ) : Prop :=
  (∀ key, key ∈ (r.tick now).2 ↔ r.Due now key) ∧ (r.tick now).2.Pairwise (· < ·)

/-- Of the keys that are due, the lower one of any two was pressed before the other one. -/
def DueInKeyOrder (calls : List RepeatCall) (r : RepeatEngine) (now : ℕ) : Prop :=
  ∀ key key', r.Due now key → r.Due now key' → key < key' → PressedBefore calls key key'

theorem InPressOrder.ticksAscending_iff (h : InPressOrder calls r) (now : ℕ) :
    r.TicksAscending now ↔ DueInKeyOrder calls r now := by
  have hordered := h.ordered.sublist (r.tick_sublist now)
  have hnodup := h.nodup.sublist (r.tick_sublist now)
  constructor
  · rintro ⟨hdue, hascending⟩ key key' hkey hkey' hlt
    -- the two keys stand in the tick either way around, and it is ascending
    obtain ⟨i, hi, rfl⟩ := List.getElem_of_mem ((hdue key).mpr hkey)
    obtain ⟨j, hj, rfl⟩ := List.getElem_of_mem ((hdue key').mpr hkey')
    rcases lt_trichotomy i j with hij | rfl | hji
    · exact List.pairwise_iff_getElem.mp hordered i j hi hj hij
    · exact absurd hlt (lt_irrefl _)
    · exact absurd (List.pairwise_iff_getElem.mp hascending j i hj hi hji) hlt.asymm
  · intro hkeys
    refine ⟨fun key => mem_tick_iff_due, ?_⟩
    refine (hordered.and hnodup).imp_of_mem ?_
    rintro key key' hkey hkey' ⟨hbefore, hne⟩
    rcases lt_or_gt_of_ne hne with hlt | hgt
    · exact hlt
    · have hback := hkeys key' key (mem_tick_iff_due.mp hkey') (mem_tick_iff_due.mp hkey) hgt
      exact absurd hback hbefore.asymm

/-- After any calls, a tick returns the due keys in ascending order exactly if of any two of them
the lower one was pressed before the other one. -/
theorem tick_ascending_iff (settings : RepeatSettings) (calls : List RepeatCall) (now : ℕ) :
    (run step (new settings) calls).TicksAscending now ↔
      DueInKeyOrder calls (run step (new settings) calls) now :=
  (inPressOrder_run settings calls).ticksAscending_iff now

/-- A key that is pressed before a lower one repeats before it. -/
theorem spaceBeforeA_not_ascending : ¬ ∀ settings calls now,
    (run step (new settings) calls).TicksAscending now := by
  intro h
  have hticks := (h ⟨true, 500000000, 30000000⟩ [.keyDown .space 0 true, .keyDown .a 0 true] 500).2
  have hkeys : ((run step (new ⟨true, 500000000, 30000000⟩)
      [.keyDown .space 0 true, .keyDown .a 0 true]).tick 500).2 = [.space, .a] := by decide
  rw [hkeys] at hticks
  revert hticks
  decide

end RepeatEngine

end Ferrokey
