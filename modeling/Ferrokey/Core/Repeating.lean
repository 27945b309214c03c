import Ferrokey.Core.Repeat

/-! # When keys repeat

A tracked key is due after the delay from its press and after the cadence from each time
it was returned. The engine keeps no history; here the history of a run says when an entry
of the table was made and when it last moved, and the entry keeps to it however the
compaction of the table has moved the entry itself.
-/

namespace Ferrokey

open Collections Machine

/-- A call of the repeat engine. -/
inductive RepeatCall where
  | keyDown (key : PhysicalKey) (now : ℕ) (repeatable : Bool)
  | keyUp (key : PhysicalKey)
  | releaseAll
  | tick (now : ℕ)
  deriving DecidableEq, Repr

/-- Whether a call starts or ends the tracking of a key. -/
def RepeatCall.concerns (key : PhysicalKey) : RepeatCall → Bool
  | .keyDown key' _ _ => key' == key
  | .keyUp key' => key' == key
  | .releaseAll => true
  | .tick _ => false

namespace RepeatEngine

/-- A call and the keys that it returns. -/
def step (r : RepeatEngine) : RepeatCall → RepeatEngine × List PhysicalKey
  | .keyDown key now repeatable => (r.keyDown key now repeatable, [])
  | .keyUp key => (r.keyUp key, [])
  | .releaseAll => (r.releaseAll, [])
  | .tick now => r.tick now

/-- The calls of a run, each with the keys it returned. -/
def history (r : RepeatEngine) (calls : List RepeatCall) : List (RepeatCall × List PhysicalKey) :=
  calls.zip (outputs step r calls)

theorem history_concat (r : RepeatEngine) (calls : List RepeatCall) (c : RepeatCall) :
    r.history (calls ++ [c]) = r.history calls ++ [(c, ((run step r calls).step c).2)] := by
  rw [history, outputs_concat, List.zip_append (by rw [length_outputs])]
  rfl

/-- The moment after a press from which a key is due. -/
def firstDue (settings : RepeatSettings) (now : ℕ) : ℕ :=
  addDuration now (if settings.enabled then settings.delay else 86400000000000)

/-- By the history a key is due at a moment: it went down and was returned since, or not. -/
inductive Scheduled (settings : RepeatSettings) (key : PhysicalKey) :
    List (RepeatCall × List PhysicalKey) → ℕ → Prop where
  | pressed (hist : List (RepeatCall × List PhysicalKey)) (now : ℕ) :
      Scheduled settings key (hist ++ [(.keyDown key now true, [])]) (firstDue settings now)
  | returned {hist : List (RepeatCall × List PhysicalKey)} {due : ℕ} (now : ℕ)
      {keys : List PhysicalKey} : Scheduled settings key hist due → key ∈ keys →
      Scheduled settings key (hist ++ [(.tick now, keys)]) (addDuration now settings.cadence)
  | idle {hist : List (RepeatCall × List PhysicalKey)} {due : ℕ} {c : RepeatCall}
      {keys : List PhysicalKey} : Scheduled settings key hist due → c.concerns key = false →
      key ∉ keys → Scheduled settings key (hist ++ [(c, keys)]) due

/-- Every entry of the table is due when the history says, and no key has two. -/
structure OnSchedule (settings : RepeatSettings) (hist : List (RepeatCall × List PhysicalKey))
    (r : RepeatEngine) : Prop where
  settings_eq : r.settings = settings
  nodup : r.heldKeys.Nodup
  scheduled : ∀ entry ∈ r.held.entries, Scheduled settings entry.1 hist entry.2.nextRepeatAt

variable {settings : RepeatSettings} {hist : List (RepeatCall × List PhysicalKey)}
  {r : RepeatEngine} {key : PhysicalKey} {now : ℕ}

theorem entries_keyUp : (r.keyUp key).held.entries = r.held.entries.eraseP (·.1 == key) :=
  entries_takeEntry r.held key

/-- What is left after a key is dropped is about other keys. -/
theorem mem_entries_keyUp (h : r.heldKeys.Nodup) {entry : PhysicalKey × RepeatState}
    (hm : entry ∈ (r.keyUp key).held.entries) : entry ∈ r.held.entries ∧ entry.1 ≠ key := by
  have hkeys : entry.1 ∈ (r.keyUp key).heldKeys := List.mem_map_of_mem hm
  rw [heldKeys_keyUp, h.mem_erase_iff] at hkeys
  rw [entries_keyUp] at hm
  exact ⟨List.mem_of_mem_eraseP hm, hkeys.1⟩

/-! ### What a call does to the schedule -/

theorem onSchedule_new (settings : RepeatSettings) : OnSchedule settings [] (new settings) := by
  refine ⟨rfl, by simp, fun entry hm => ?_⟩
  simp [new] at hm

theorem OnSchedule.keyUp (h : OnSchedule settings hist r) (key : PhysicalKey) :
    OnSchedule settings (hist ++ [(.keyUp key, [])]) (r.keyUp key) := by
  refine ⟨h.settings_eq, heldKeys_keyUp ▸ h.nodup.erase key, fun entry hm => ?_⟩
  obtain ⟨hm, hne⟩ := mem_entries_keyUp h.nodup hm
  exact .idle (h.scheduled entry hm) (by simp [RepeatCall.concerns, hne.symm]) List.not_mem_nil

theorem OnSchedule.keyDown (h : OnSchedule settings hist r) (key : PhysicalKey) (now : ℕ)
    (repeatable : Bool) : OnSchedule settings (hist ++ [(.keyDown key now repeatable, [])])
      (r.keyDown key now repeatable) := by
  have hothers : ∀ entry ∈ (r.keyUp key).held.entries, Scheduled settings entry.1
      (hist ++ [(.keyDown key now repeatable, [])]) entry.2.nextRepeatAt := by
    intro entry hm
    obtain ⟨hm, hne⟩ := mem_entries_keyUp h.nodup hm
    exact .idle (h.scheduled entry hm) (by simp [RepeatCall.concerns, hne.symm]) List.not_mem_nil
  have hsettings : (r.keyUp key).settings = settings := h.settings_eq
  have hnodup : (r.keyDown key now repeatable).heldKeys.Nodup := nodup_keyDown h.nodup repeatable
  refine ⟨?_, hnodup, fun entry hm => ?_⟩
  · cases repeatable <;> exact hsettings
  · cases repeatable with
    | false => exact hothers entry hm
    | true =>
      simp only [RepeatEngine.keyDown, Bool.not_true, Bool.false_eq_true, if_false, hsettings,
        SlotTable.entries_push] at hm
      split at hm
      · rcases List.mem_append.mp hm with hm | hm
        · exact hothers entry hm
        · rw [List.mem_singleton.mp hm]
          exact .pressed hist now
      · exact hothers entry hm

theorem OnSchedule.releaseAll (h : OnSchedule settings hist r) :
    OnSchedule settings (hist ++ [(.releaseAll, [])]) r.releaseAll := by
  refine ⟨h.settings_eq, by simp, fun entry hm => ?_⟩
  simp [RepeatEngine.releaseAll] at hm

/-- A key is returned exactly if it has an entry that is due. -/
theorem mem_tick_iff (h : r.settings.enabled = true) : key ∈ (r.tick now).2 ↔
    ∃ state, (key, state) ∈ r.held.entries ∧ state.nextRepeatAt ≤ now := by
  simp [tick, h]

theorem eq_of_mem_entries (h : r.heldKeys.Nodup) {entry entry' : PhysicalKey × RepeatState}
    (hm : entry ∈ r.held.entries) (hm' : entry' ∈ r.held.entries) (heq : entry.1 = entry'.1) :
    entry = entry' := List.inj_on_of_nodup_map h hm hm' heq

theorem OnSchedule.tick (h : OnSchedule settings hist r) (now : ℕ) :
    OnSchedule settings (hist ++ [(.tick now, (r.tick now).2)]) (r.tick now).1 := by
  cases hon : r.settings.enabled with
  | false =>
    have hout : r.tick now = (r, []) := by simp [RepeatEngine.tick, hon]
    rw [hout]
    exact ⟨h.settings_eq, h.nodup, fun entry hm =>
      .idle (h.scheduled entry hm) rfl List.not_mem_nil⟩
  | true =>
    refine ⟨?_, by simpa using h.nodup, fun entry hm => ?_⟩
    · simpa [RepeatEngine.tick, hon] using h.settings_eq
    · simp only [RepeatEngine.tick, hon, Bool.not_true, Bool.false_eq_true, if_false,
        SlotTable.entries_update, List.mem_map] at hm
      obtain ⟨old, hold, hentry⟩ := hm
      have hreturned : old.1 ∈ (r.tick now).2 ↔ old.2.nextRepeatAt ≤ now := by
        rw [mem_tick_iff hon]
        constructor
        · rintro ⟨state, hstate, hdue⟩
          rwa [← eq_of_mem_entries h.nodup hstate hold rfl]
        · exact fun hdue => ⟨old.2, hold, hdue⟩
      split at hentry
      next hdue =>
        rw [← hentry, ← h.settings_eq]
        exact h.settings_eq ▸ .returned now (h.scheduled old hold)
          (hreturned.mpr (of_decide_eq_true hdue))
      next hdue =>
        rw [← hentry]
        exact .idle (h.scheduled old hold) rfl
          (mt hreturned.mp (mt decide_eq_true hdue))

theorem OnSchedule.step (h : OnSchedule settings hist r) (c : RepeatCall) :
    OnSchedule settings (hist ++ [(c, (r.step c).2)]) (r.step c).1 := by
  cases c with
  | keyDown key now repeatable => exact h.keyDown key now repeatable
  | keyUp key => exact h.keyUp key
  | releaseAll => exact h.releaseAll
  | tick now => exact h.tick now

theorem onSchedule_run (settings : RepeatSettings) (calls : List RepeatCall) :
    OnSchedule settings ((new settings).history calls) (run step (new settings) calls) := by
  induction calls using List.reverseRecOn with
  | nil => exact onSchedule_new settings
  | append_singleton calls c ih =>
    rw [history_concat, run_append]
    exact ih.step c

/-! ### The law of repeats -/

/-- The calls since the latest press of a key, which nothing has ended. -/
structure Tracked (key : PhysicalKey) (hist : List (RepeatCall × List PhysicalKey)) (down : ℕ)
    (since : List (RepeatCall × List PhysicalKey)) : Prop where
  pressed : ∃ before, hist = before ++ (.keyDown key down true, []) :: since
  unended : ∀ entry ∈ since, entry.1.concerns key = false

/-- The latest of the given calls that returned a key was a tick at a moment. -/
def LastReturned (key : PhysicalKey) (since : List (RepeatCall × List PhysicalKey)) (now : ℕ) :
    Prop :=
  ∃ earlier keys later, since = earlier ++ (.tick now, keys) :: later ∧ key ∈ keys ∧
    ∀ entry ∈ later, key ∉ entry.2

/-- A key may be returned at a moment: it is tracked, the delay has gone by since its press
if it was not returned yet, and the cadence since it was returned last. -/
def MayRepeat (settings : RepeatSettings) (hist : List (RepeatCall × List PhysicalKey))
    (key : PhysicalKey) (now : ℕ) : Prop :=
  ∃ down since, Tracked key hist down since ∧
    ((∀ entry ∈ since, key ∉ entry.2) → addDuration down settings.delay ≤ now) ∧
    ∀ last, LastReturned key since last → addDuration last settings.cadence ≤ now

/-- The latest return in a history that goes on with a call. -/
theorem lastReturned_concat {since : List (RepeatCall × List PhysicalKey)} {c : RepeatCall}
    {keys : List PhysicalKey} {last : ℕ} (h : LastReturned key (since ++ [(c, keys)]) last) :
    (key ∈ keys ∧ c = .tick last) ∨ (key ∉ keys ∧ LastReturned key since last) := by
  obtain ⟨earlier, keys', later, hsince, hkey, hlater⟩ := h
  rcases List.eq_nil_or_concat' later with rfl | ⟨later, entry, rfl⟩
  · obtain ⟨-, heq⟩ := List.append_inj' hsince rfl
    cases heq
    exact .inl ⟨hkey, rfl⟩
  · rw [← List.cons_append, ← List.append_assoc] at hsince
    obtain ⟨rfl, heq⟩ := List.append_inj' hsince rfl
    cases heq
    exact .inr ⟨hlater (c, keys) (by simp), earlier, keys', later, rfl, hkey,
      fun entry hm => hlater entry (by simp [hm])⟩

theorem Tracked.concat {down : ℕ} {since : List (RepeatCall × List PhysicalKey)}
    (h : Tracked key hist down since) {c : RepeatCall} (hc : c.concerns key = false)
    (keys : List PhysicalKey) : Tracked key (hist ++ [(c, keys)]) down (since ++ [(c, keys)]) := by
  obtain ⟨⟨before, rfl⟩, hunended⟩ := h
  refine ⟨⟨before, by simp⟩, fun entry hm => ?_⟩
  rcases List.mem_append.mp hm with hm | hm
  · exact hunended entry hm
  · rw [List.mem_singleton.mp hm]
    exact hc

/-- When a key is due, by its latest press and its latest return. -/
theorem Scheduled.tracked {due : ℕ} (h : Scheduled settings key hist due) :
    ∃ down since, Tracked key hist down since ∧
      ((∀ entry ∈ since, key ∉ entry.2) → due = firstDue settings down) ∧
      ∀ last, LastReturned key since last → due = addDuration last settings.cadence := by
  induction h with
  | pressed hist now =>
    refine ⟨now, [], ⟨⟨hist, rfl⟩, by simp⟩, fun _ => rfl, ?_⟩
    rintro last ⟨earlier, keys, later, hsince, -⟩
    simp at hsince
  | @returned hist due now keys _ hkey ih =>
    obtain ⟨down, since, htracked, -⟩ := ih
    refine ⟨down, _, htracked.concat rfl keys, ?_, ?_⟩
    · intro hnever
      exact absurd hkey (hnever (.tick now, keys) (by simp))
    · intro last hlast
      rcases lastReturned_concat hlast with ⟨-, heq⟩ | ⟨hno, -⟩
      · cases heq
        rfl
      · exact absurd hkey hno
  | @idle hist due c keys _ hc hkey ih =>
    obtain ⟨down, since, htracked, hfirst, hnext⟩ := ih
    refine ⟨down, _, htracked.concat hc keys, ?_, ?_⟩
    · exact fun hnever => hfirst fun entry hm => hnever entry (by simp [hm])
    · intro last hlast
      rcases lastReturned_concat hlast with ⟨hyes, -⟩ | ⟨-, hlast⟩
      · exact absurd hyes hkey
      · exact hnext last hlast

theorem enabled_of_mem_tick (hkey : key ∈ (r.tick now).2) : r.settings.enabled = true := by
  cases hon : r.settings.enabled with
  | true => rfl
  | false => simp [RepeatEngine.tick, hon] at hkey

theorem OnSchedule.mayRepeat (h : OnSchedule settings hist r) (hkey : key ∈ (r.tick now).2) :
    MayRepeat settings hist key now := by
  have hon := enabled_of_mem_tick hkey
  obtain ⟨state, hm, hdue⟩ := (mem_tick_iff hon).mp hkey
  obtain ⟨down, since, htracked, hfirst, hnext⟩ := (h.scheduled _ hm).tracked
  refine ⟨down, since, htracked, ?_, ?_⟩
  · intro hnever
    have heq : state.nextRepeatAt = addDuration down settings.delay := by
      rw [hfirst hnever, firstDue, ← h.settings_eq, hon, if_pos rfl]
    exact heq ▸ hdue
  · intro last hlast
    exact hnext last hlast ▸ hdue

theorem OnSchedule.nodup_tick (h : OnSchedule settings hist r) (now : ℕ) :
    (r.tick now).2.Nodup := by
  unfold RepeatEngine.tick
  split
  · exact .nil
  · exact h.nodup.sublist (List.filter_sublist.map _)

/-- After any calls the table is a prefix of entries with different keys, and a tick returns
each key once at most, and only while repeats are enabled a tracked one whose delay or cadence has
gone by. -/
theorem tick_timing (settings : RepeatSettings) (calls : List RepeatCall) (now : ℕ) :
    let r := run step (new settings) calls
    (r.held.slots = pack maxHeldKeys r.held.entries ∧ r.held.entries.length = r.held.len ∧
      r.heldKeys.Nodup) ∧
    (r.tick now).2.Nodup ∧
    ∀ key ∈ (r.tick now).2, settings.enabled = true ∧
      MayRepeat settings ((new settings).history calls) key now := by
  intro r
  have hrun := onSchedule_run settings calls
  exact ⟨⟨r.held.slots_eq, r.held.length_entries, hrun.nodup⟩, hrun.nodup_tick now,
    fun key hkey => ⟨hrun.settings_eq ▸ enabled_of_mem_tick hkey, hrun.mayRepeat hkey⟩⟩

/-- The law with the exact durations, and with the cadence between any two returns. -/
structure ExactLaw (settings : RepeatSettings) (hist : List (RepeatCall × List PhysicalKey))
    (key : PhysicalKey) (now : ℕ) : Prop where
  first : ∀ down since, Tracked key hist down since → (∀ entry ∈ since, key ∉ entry.2) →
    settings.delay ≤ saturatingDurationSince now down
  next : ∀ last, LastReturned key hist last →
    settings.cadence ≤ saturatingDurationSince now last

/-- A delay of a millisecond and a half is over after one, and a second press starts the
delay over, which may be shorter than the cadence. -/
theorem exactLaw_fails :
    (.a ∈ ((run step (new ⟨true, 1500000, 30000000⟩) [.keyDown .a 0 true]).tick 1).2 ∧
      ¬ ExactLaw ⟨true, 1500000, 30000000⟩
        ((new ⟨true, 1500000, 30000000⟩).history [.keyDown .a 0 true]) .a 1) ∧
    let calls : List RepeatCall := [.keyDown .a 0 true, .tick 10, .keyUp .a, .keyDown .a 10 true]
    .a ∈ ((run step (new ⟨true, 10000000, 30000000⟩) calls).tick 20).2 ∧
      ¬ ExactLaw ⟨true, 10000000, 30000000⟩
        ((new ⟨true, 10000000, 30000000⟩).history calls) .a 20 := by
  refine ⟨⟨by decide, fun h => ?_⟩, by decide, fun h => ?_⟩
  · have hlong := h.first 0 [] ⟨⟨[], rfl⟩, by simp⟩ (by simp)
    revert hlong
    decide
  · have hlong := h.next 10 ⟨[(.keyDown .a 0 true, [])], [.a],
      [(.keyUp .a, []), (.keyDown .a 10 true, [])], by decide, by decide, by decide⟩
    revert hlong
    decide

end RepeatEngine

end Ferrokey
