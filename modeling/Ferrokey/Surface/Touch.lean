import Ferrokey.Collections.BTreeMap
import Ferrokey.Machine.KeyStream
import Ferrokey.Machine.Runs

/-! # Touch tracking

The single-pointer fallback for touch screens: of all the touches that are down,
the tracker forwards the one with the smallest id. It is compared with the touch
that has been down longest, which is known from the order of the calls alone.
-/

namespace Ferrokey.Surface

open Machine

inductive PointerButton where
  | left | middle | right
  deriving DecidableEq, Repr

instance pointerButtonOrder : LinearOrder PointerButton :=
  LinearOrder.lift' PointerButton.ctorIdx fun b b' h => by
    cases b <;> cases b' <;> first | rfl | cases h

/-- What a surface reports, with its coordinates in a type of the backend. -/
inductive SurfaceEvent (α : Type) where
  | pointerMoved (x y : α)
  | pointerPressed (x y : α) (button : PointerButton)
  | pointerReleased (x y : α) (button : PointerButton)
  | pointerLeft
  | touchPressed (x y : α)
  | touchMoved (x y : α)
  | touchReleased (x y : α)
  | touchCancelled
  | resized (width height : UInt32)
  | closeRequested
  deriving DecidableEq, Repr

/-- The active touches, and the last known position of each touch id. -/
structure TouchTracker (α : Type) where
  active : BTreeSet UInt32
  positions : BTreeMap UInt32 (α × α)

variable {α : Type}

namespace TouchTracker

def new : TouchTracker α := ⟨.new, .new⟩

def down (t : TouchTracker α) (id : UInt32) (x y : α) : TouchTracker α × Option (SurfaceEvent α) :=
  (⟨t.active.insert id, t.positions.insert id (x, y)⟩,
    if t.active.isEmpty then some (.touchPressed x y) else none)

def moveTo (t : TouchTracker α) (id : UInt32) (x y : α) :
    TouchTracker α × Option (SurfaceEvent α) :=
  (⟨t.active, t.positions.insert id (x, y)⟩,
    if t.active.first = some id then some (.touchMoved x y) else none)

/-- Lift a touch. An active one is reported as released, and the first of the remaining
touches takes over with a press at its last position. -/
def up (t : TouchTracker α) (id : UInt32) (x y : α) : TouchTracker α × List (SurfaceEvent α) :=
  let positions := t.positions.remove id
  if !t.active.contains id then (⟨t.active, positions⟩, [])
  else
    let active := t.active.remove id
    let next := active.first.bind positions.get
    (⟨active, positions⟩,
      .touchReleased x y :: (next.map fun p => .touchPressed p.1 p.2).toList)

end TouchTracker

inductive TouchCall (α : Type) where
  | down (id : UInt32) (x y : α)
  | moveTo (id : UInt32) (x y : α)
  | up (id : UInt32) (x y : α)
  deriving DecidableEq, Repr

def TouchTracker.step (t : TouchTracker α) : TouchCall α → TouchTracker α × List (SurfaceEvent α)
  | .down id x y => let r := t.down id x y; (r.1, r.2.toList)
  | .moveTo id x y => let r := t.moveTo id x y; (r.1, r.2.toList)
  | .up id x y => t.up id x y

/-- One call of a run: the touch that had been down longest, and what was emitted. -/
structure TouchRecord (α : Type) where
  oldest : Option UInt32
  call : TouchCall α
  events : List (SurfaceEvent α)
  deriving DecidableEq, Repr

/-- A tracker with its past: the touches that are down in the order they went down, and a
record of every call. -/
structure TouchRun (α : Type) where
  tracker : TouchTracker α
  arrived : List UInt32
  history : List (TouchRecord α)

namespace TouchRun

def new : TouchRun α := ⟨.new, [], []⟩

def arrive (arrived : List UInt32) : TouchCall α → List UInt32
  | .down id _ _ => arrived ++ [id]
  | .moveTo _ _ _ => arrived
  | .up id _ _ => arrived.erase id

def step (o : TouchRun α) (c : TouchCall α) : TouchRun α × List (SurfaceEvent α) :=
  let r := o.tracker.step c
  (⟨r.1, arrive o.arrived c, o.history ++ [⟨o.arrived.head?, c, r.2⟩]⟩, r.2)

/-- Every id is down at most once at a time. -/
def Separate (o : TouchRun α) : TouchCall α → Prop
  | .down id _ _ => id ∉ o.arrived
  | _ => True

end TouchRun

/-- Presses and releases of the emulated pointer, as strokes of one key. -/
def contact : SurfaceEvent α → Option (Stroke Unit)
  | .touchPressed _ _ => some (.down ())
  | .touchReleased _ _ => some (.up ())
  | _ => none

namespace TouchRun

def contacts (o : TouchRun α) : List (Stroke Unit) :=
  (o.history.flatMap TouchRecord.events).filterMap contact

/-- The touch that has been down longest is the forwarded one: only its moves and its lift
are reported, and presses and releases alternate. -/
structure ForwardsOldest (o : TouchRun α) : Prop where
  active : ∀ id, id ∈ o.tracker.active ↔ id ∈ o.arrived
  forwarded : o.tracker.active.first = o.arrived.head?
  alternate : WellFormed o.contacts
  moved : ∀ r ∈ o.history, ∀ x y, .touchMoved x y ∈ r.events →
    ∃ id, r.oldest = some id ∧ r.call = .moveTo id x y
  released : ∀ r ∈ o.history, ∀ x y, .touchReleased x y ∈ r.events →
    ∃ id, r.oldest = some id ∧ r.call = .up id x y

/-- Ids grow with time as far as it matters: a touch that joins has a larger id than the
longest-down one; only the longest-down touch lifts, and the next one has the smallest of
the remaining ids. -/
def InOrder (o : TouchRun α) : TouchCall α → Prop
  | .down id _ _ => ∀ oldest ∈ o.arrived.head?, oldest < id
  | .moveTo _ _ _ => True
  | .up id _ _ => id ∈ o.arrived → o.arrived.head? = some id ∧
      ∀ next ∈ o.arrived.tail.head?, ∀ other ∈ o.arrived.tail, next ≤ other

section

variable {o : TouchRun α} {c : TouchCall α} {id : UInt32} {x y : α}

/-- The smallest element of a set is the first one of a list of its elements exactly when
that one is a lower bound of the list. -/
theorem first_eq_head?_iff {s : BTreeSet UInt32} {l : List UInt32} (h : ∀ id, id ∈ s ↔ id ∈ l) :
    s.first = l.head? ↔ ∀ m ∈ l.head?, ∀ id ∈ l, m ≤ id := by
  cases l with
  | nil => simp [BTreeSet.first_eq_none_iff, h]
  | cons m l =>
    rw [List.head?_cons, BTreeSet.first_eq_some_iff]
    simp [h]

@[simp] theorem contacts_step :
    (o.step c).1.contacts = o.contacts ++ (o.step c).2.filterMap contact := by
  simp [contacts, step]

theorem mem_history_step {r : TouchRecord α} :
    r ∈ (o.step c).1.history ↔ r ∈ o.history ∨ r = ⟨o.arrived.head?, c, (o.step c).2⟩ := by
  simp [step]

theorem mem_step_up {e : SurfaceEvent α} (h : e ∈ (o.step (.up id x y)).2) :
    id ∈ o.tracker.active ∧ (e = .touchReleased x y ∨ ∃ x' y', e = .touchPressed x' y') := by
  simp only [step, TouchTracker.step, TouchTracker.up] at h
  split at h
  next => exact absurd h List.not_mem_nil
  next hc =>
    refine ⟨by simpa using hc, ?_⟩
    rcases List.mem_cons.mp h with rfl | h
    · exact Or.inl rfl
    · obtain ⟨p, -, rfl⟩ := Option.map_eq_some_iff.mp (Option.mem_toList.mp h)
      exact Or.inr ⟨p.1, p.2, rfl⟩

theorem touchMoved_mem_step (h : .touchMoved x y ∈ (o.step c).2) :
    ∃ id, o.tracker.active.first = some id ∧ c = .moveTo id x y := by
  cases c with
  | down id x' y' =>
    simp only [step, TouchTracker.step, TouchTracker.down] at h
    split at h <;> simp at h
  | moveTo id x' y' =>
    simp only [step, TouchTracker.step, TouchTracker.moveTo] at h
    split at h
    next hf => exact ⟨id, hf, by simpa [eq_comm] using h⟩
    next => simp at h
  | up id x' y' => simpa using (mem_step_up h).2

theorem touchReleased_mem_step (h : .touchReleased x y ∈ (o.step c).2) :
    ∃ id ∈ o.tracker.active, c = .up id x y := by
  cases c with
  | down id x' y' =>
    simp only [step, TouchTracker.step, TouchTracker.down] at h
    split at h <;> simp at h
  | moveTo id x' y' =>
    simp only [step, TouchTracker.step, TouchTracker.moveTo] at h
    split at h <;> simp at h
  | up id x' y' =>
    obtain ⟨hm, he⟩ := mem_step_up h
    exact ⟨id, hm, by simpa [eq_comm] using he⟩

theorem step_up_mem (h : id ∈ o.tracker.active) :
    .touchReleased x y ∈ (o.step (.up id x y)).2 := by
  simp [step, TouchTracker.step, TouchTracker.up, h]

end

/-- The run is as it should be, every touch that is down has a position, and the emulated
pointer is down exactly while a touch is. -/
structure Inv (o : TouchRun α) : Prop extends ForwardsOldest o where
  nodup : o.arrived.Nodup
  located : ∀ id ∈ o.arrived, (o.tracker.positions.get id).isSome
  pressed : leftDown o.contacts = {_u | o.arrived ≠ []}

namespace Inv

variable {o : TouchRun α} {c : TouchCall α}

theorem new : Inv (new : TouchRun α) where
  active _ := iff_of_false (BTreeSet.not_mem_new _) List.not_mem_nil
  forwarded := rfl
  alternate := trivial
  moved _ h := absurd h List.not_mem_nil
  released _ h := absurd h List.not_mem_nil
  nodup := .nil
  located _ h := absurd h List.not_mem_nil
  pressed := by simp [contacts, TouchRun.new]

theorem mem_active_step (h : Inv o) (id : UInt32) :
    id ∈ (o.step c).1.tracker.active ↔ id ∈ (o.step c).1.arrived := by
  cases c with
  | down id' x y =>
    simp [step, TouchTracker.step, TouchTracker.down, arrive, h.active, or_comm]
  | moveTo id' x y => exact h.active id
  | up id' x y =>
    simp only [step, TouchTracker.step, TouchTracker.up, arrive]
    rw [h.nodup.mem_erase_iff]
    split
    next hc =>
      have hne : id ∈ o.tracker.active → id ≠ id' := by
        rintro hm rfl
        simp [hm] at hc
      rw [← h.active]
      exact ⟨fun hm => ⟨hne hm, hm⟩, And.right⟩
    next => rw [BTreeSet.mem_remove, h.active]

theorem nodup_step (h : Inv o) (hw : o.Separate c) : (o.step c).1.arrived.Nodup := by
  cases c with
  | down id x y =>
    have hn : (o.arrived.concat id).Nodup := List.Nodup.concat hw h.nodup
    rwa [List.concat_eq_append] at hn
  | moveTo id x y => exact h.nodup
  | up id x y => exact h.nodup.erase id

theorem located_step (h : Inv o) :
    ∀ id ∈ (o.step c).1.arrived, ((o.step c).1.tracker.positions.get id).isSome := by
  intro id hm
  cases c with
  | down id' x y =>
    simp only [step, TouchTracker.step, TouchTracker.down, BTreeMap.get_insert]
    split
    next => rfl
    next hne =>
      rcases List.mem_append.mp hm with hm | hm
      · exact h.located id hm
      · exact absurd (List.mem_singleton.mp hm) hne
  | moveTo id' x y =>
    simp only [step, TouchTracker.step, TouchTracker.moveTo, BTreeMap.get_insert]
    split
    next => rfl
    next => exact h.located id hm
  | up id' x y =>
    obtain ⟨hne, hm⟩ := h.nodup.mem_erase_iff.mp hm
    have hpos : (o.step (.up id' x y)).1.tracker.positions = o.tracker.positions.remove id' := by
      simp only [step, TouchTracker.step, TouchTracker.up]
      split <;> rfl
    rw [hpos, BTreeMap.get_remove, if_neg hne]
    exact h.located id hm

/-- In order, the longest-down touch keeps the smallest id. -/
theorem forwarded_step_iff (h : Inv o) (hw : o.Separate c)
    (hr : ∀ id x y, c = .up id x y → id ∈ o.arrived → o.arrived.head? = some id) :
    (o.step c).1.tracker.active.first = (o.step c).1.arrived.head? ↔ o.InOrder c := by
  have hold := (first_eq_head?_iff h.active).mp h.forwarded
  rw [first_eq_head?_iff h.mem_active_step]
  cases c with
  | down id x y =>
    change (∀ m ∈ (o.arrived ++ [id]).head?, ∀ id' ∈ o.arrived ++ [id], m ≤ id') ↔ _
    rw [InOrder]
    cases hl : o.arrived with
    | nil => simp
    | cons m l =>
      have hne : m ≠ id := by
        rintro rfl
        exact hw (hl ▸ List.mem_cons_self)
      simp [hl] at hold
      simp only [List.cons_append, List.head?_cons, Option.mem_def, Option.some.injEq,
        forall_eq', List.mem_cons, List.mem_append, List.not_mem_nil, or_false]
      constructor
      · intro hall
        exact lt_of_le_of_ne (hall id (by simp)) hne
      · rintro hlt id' (rfl | hm | rfl)
        · exact le_rfl
        · exact hold id' hm
        · exact hlt.le
  | moveTo id x y => exact iff_of_true hold trivial
  | up id x y =>
    change (∀ m ∈ (o.arrived.erase id).head?, ∀ id' ∈ o.arrived.erase id, m ≤ id') ↔ _
    by_cases hm : id ∈ o.arrived
    · obtain ⟨l, hl⟩ := List.head?_eq_some_iff.mp (hr id x y rfl hm)
      simp [InOrder, hl]
    · rw [List.erase_of_not_mem hm]
      exact iff_of_true hold fun hm' => absurd hm' hm

theorem isEmpty_active_iff (h : Inv o) : o.tracker.active.isEmpty = true ↔ o.arrived = [] := by
  rw [BTreeSet.isEmpty_iff, List.eq_nil_iff_forall_not_mem]
  simp only [h.active]

/-- A lift of the longest-down touch hands over to the next one, if there is one. -/
theorem contacts_up (h : Inv o) {id : UInt32} {x y : α} {rest : List UInt32}
    (hl : o.arrived = id :: rest) (hc : o.InOrder (.up id x y)) :
    (o.step (.up id x y)).2.filterMap contact =
      .up () :: if rest = [] then [] else [.down ()] := by
  have hm : id ∈ o.arrived := hl ▸ List.mem_cons_self
  have hact : id ∈ o.tracker.active := (h.active id).mpr hm
  have hfirst : (o.tracker.active.remove id).first = rest.head? := by
    have hf := (h.forwarded_step_iff (c := .up id x y) trivial
      (by rintro _ _ _ ⟨⟩ -; exact (hc hm).1)).mpr hc
    simpa [step, TouchTracker.step, TouchTracker.up, hact, arrive, hl] using hf
  simp only [step, TouchTracker.step, TouchTracker.up, BTreeSet.contains_iff.mpr hact, hfirst]
  cases rest with
  | nil => rfl
  | cons next rest =>
    have hne : next ≠ id := by
      rintro rfl
      have hn := h.nodup
      simp [hl] at hn
    obtain ⟨p, hp⟩ := Option.isSome_iff_exists.mp (h.located next (by simp [hl]))
    simp [BTreeMap.get_remove, hne, hp, contact]

theorem contacts_step (h : Inv o) (hc : o.InOrder c) :
    LegalFrom {_u : Unit | o.arrived ≠ []} ((o.step c).2.filterMap contact) ∧
      leaves {_u | o.arrived ≠ []} ((o.step c).2.filterMap contact) =
        {_u | (o.step c).1.arrived ≠ []} := by
  cases c with
  | down id x y =>
    have hnew : (o.step (.down id x y)).1.arrived ≠ [] :=
      List.append_ne_nil_of_right_ne_nil _ (List.cons_ne_nil _ _)
    by_cases he : o.arrived = []
    · have hev : (o.step (.down id x y)).2 = [.touchPressed x y] := by
        simp [step, TouchTracker.step, TouchTracker.down, h.isEmpty_active_iff.mpr he]
      simp [hev, contact, he, hnew, Stroke.Legal, Stroke.after, Set.ext_iff]
    · have hev : (o.step (.down id x y)).2 = [] := by
        simp [step, TouchTracker.step, TouchTracker.down, mt h.isEmpty_active_iff.mp he]
      simp [hev, he, hnew]
  | moveTo id x y =>
    have hev : (o.step (.moveTo id x y)).2.filterMap contact = [] := by
      simp only [step, TouchTracker.step, TouchTracker.moveTo]
      split <;> rfl
    rw [hev]
    exact ⟨trivial, rfl⟩
  | up id x y =>
    by_cases hm : id ∈ o.arrived
    · obtain ⟨rest, hl⟩ := List.head?_eq_some_iff.mp (hc hm).1
      have harr : (o.step (.up id x y)).1.arrived = rest := by simp [step, arrive, hl]
      rw [h.contacts_up hl hc, harr]
      cases rest <;> simp [hl, Stroke.Legal, Stroke.after, Set.ext_iff]
    · have hev : (o.step (.up id x y)).2 = [] := by
        simp [step, TouchTracker.step, TouchTracker.up, mt (h.active id).mp hm]
      have harr : (o.step (.up id x y)).1.arrived = o.arrived := List.erase_of_not_mem hm
      rw [hev, harr]
      exact ⟨trivial, rfl⟩

theorem step (h : Inv o) (hw : o.Separate c) (hc : o.InOrder c) : Inv (o.step c).1 := by
  obtain ⟨hlegal, hleaves⟩ := h.contacts_step hc
  refine ⟨⟨h.mem_active_step, ?_, ?_, ?_, ?_⟩, h.nodup_step hw, h.located_step, ?_⟩
  · refine (h.forwarded_step_iff hw ?_).mpr hc
    rintro id x y rfl hm
    exact (hc hm).1
  · rw [TouchRun.contacts_step, wellFormed_append_iff, h.pressed]
    exact ⟨h.alternate, hlegal⟩
  · rintro r hr x y hmv
    rcases mem_history_step.mp hr with hr | rfl
    · exact h.moved r hr x y hmv
    · obtain ⟨id, hf, rfl⟩ := touchMoved_mem_step hmv
      exact ⟨id, h.forwarded.symm.trans hf, rfl⟩
  · rintro r hr x y hrel
    rcases mem_history_step.mp hr with hr | rfl
    · exact h.released r hr x y hrel
    · obtain ⟨id, hm, rfl⟩ := touchReleased_mem_step hrel
      exact ⟨id, (hc ((h.active id).mp hm)).1, rfl⟩
  · rw [TouchRun.contacts_step, leftDown_append, h.pressed, hleaves]

/-- Only a call in order leaves the longest-down touch the forwarded one. -/
theorem inOrder_of_step (h : Inv o) (hw : o.Separate c) (hp : (o.step c).1.ForwardsOldest) :
    o.InOrder c := by
  refine (h.forwarded_step_iff hw ?_).mp hp.forwarded
  rintro id x y rfl hm
  have hrel := step_up_mem (x := x) (y := y) ((h.active id).mpr hm)
  obtain ⟨id', ho, he⟩ := hp.released _ (mem_history_step.mpr (Or.inr rfl)) x y hrel
  cases he
  exact ho

end Inv

/-- As long as every id is down at most once at a time, the longest-down touch is forwarded
throughout a run exactly when the calls come in the order of the ids. -/
theorem always_forwards_oldest_iff {calls : List (TouchCall α)}
    (hw : Steps step Separate (new : TouchRun α) calls) :
    Always step ForwardsOldest new calls ↔ Steps step InOrder new calls :=
  always_iff_steps_within Inv Inv.new (fun _ h => h.toForwardsOldest)
    (fun _ _ h hw hc => h.step hw hc)
    (fun _ _ h hw hc hp => hc (h.inOrder_of_step hw hp)) hw

/-- Two thumbs in turn: the second takes over when the first lifts. -/
def handOver : List (TouchCall ℕ) := [.down 0 10 20, .down 1 100 200, .up 0 16 26, .up 1 100 200]

theorem handOver_forwards_oldest :
    Steps step Separate (new : TouchRun ℕ) handOver ∧
      (Always step ForwardsOldest new handOver ↔ Steps step InOrder new handOver) :=
  have hw : Steps step Separate (new : TouchRun ℕ) handOver := by
    simp [handOver, Separate, step, arrive, new]
  ⟨hw, always_forwards_oldest_iff hw⟩

/-- The second thumb lifts first: a release is reported although the forwarded touch is
still down. -/
theorem secondLiftsFirst_releases :
    Steps step Separate (new : TouchRun ℕ) [.down 0 10 20, .down 1 100 200, .up 1 100 200] ∧
      ¬ Always step ForwardsOldest (new : TouchRun ℕ)
        [.down 0 10 20, .down 1 100 200, .up 1 100 200] := by
  refine ⟨by simp [Separate, step, arrive, new], fun h => ?_⟩
  have hmem : ⟨some 0, .up 1 100 200, [.touchReleased 100 200, .touchPressed 10 20]⟩ ∈
      (run step (new : TouchRun ℕ)
        [.down 0 10 20, .down 1 100 200, .up 1 100 200]).history := List.mem_append_right _ (by decide)
  obtain ⟨id, ho, he⟩ := (h _ List.prefix_rfl).released _ hmem 100 200 List.mem_cons_self
  cases ho
  cases he

end TouchRun

end Ferrokey.Surface
