import Ferrokey.Collections.Deque
import Ferrokey.Machine.Runs
import Ferrokey.Terminal.Reached

/-! # The history as a capped queue

The ring of history lines behaves like a queue with two ends that keeps the newest lines
for which it has room: whatever is called on it, it has the lines of the queue, cut or
padded to its width, and it answers as the queue does.
-/

set_option linter.dupNamespace false

namespace Ferrokey.Terminal

open Collections Machine

namespace Scrollback

variable {s : Scrollback} {maxLines cols : ℕ}

/-- One call on the ring, with what it gives back. -/
def call (s : Scrollback) : DequeCall Line → Scrollback × DequeAnswer Line
  | .push line => ((s.push line).1, .evicted (s.push line).2)
  | .popNewest => (s.popNewest.1, .popped s.popNewest.2)
  | .popOldest => (s.popOldest.1, .popped s.popOldest.2)
  | .drainOldest n => (s.drainOldest n, .done)
  | .clear => (s.clear, .done)

/-- The drained lines are a prefix, or all there are. -/
theorem drainOldest_eq (s : Scrollback) (n : ℕ) :
    s.drainOldest n = { s with lines := s.lines.drop n } := by
  have hpops : ∀ k, (fun s : Scrollback => s.popOldest.1)^[k] s =
      { s with lines := s.lines.drop k } := by
    intro k
    induction k with
    | zero => rfl
    | succ k ih =>
      rw [Function.iterate_succ_apply', ih]
      simp [popOldest, List.tail_drop]
  rw [drainOldest, hpops, ← List.drop_eq_drop_min]

/-- The ring has the capacity and the width it was made with, and the lines of the queue. -/
structure Stores (cols : ℕ) (s : Scrollback) (q : Deque Line maxLines) : Prop where
  fits : s.Fits maxLines
  capacity : 0 < maxLines
  cols_eq : s.cols = cols
  lines : s.lines = q.entries

variable {q : Deque Line maxLines}

/-- Lines left out of a ring leave it as it was otherwise. -/
theorem Stores.shrink (h : s.Stores cols q) {lines entries : List Line} (heq : lines = entries)
    (hsub : entries.Sublist q.entries) :
    ({ s with lines } : Scrollback).Stores cols (q.shrink hsub) where
  fits := by
    apply h.fits.sublist
    rwa [heq, h.lines]
  capacity := h.capacity
  cols_eq := h.cols_eq
  lines := heq

/-- Exactly a full ring evicts its oldest line. -/
theorem Stores.push_snd (h : s.Stores cols q) (line : Line) : (s.push line).2 = decide q.Full := by
  rw [Scrollback.push, h.lines, h.fits.maxLines_eq]
  rfl

theorem Stores.push (h : s.Stores cols q) (line : Line) :
    (s.push line).1.Stores cols (q.push (normalise cols line)) where
  fits := h.fits.push h.capacity line
  capacity := h.capacity
  cols_eq := h.cols_eq
  lines := by
    have hpush : (s.push line).1.lines =
        (if (s.push line).2 then s.lines.tail else s.lines) ++ [normalise s.cols line] := rfl
    rw [hpush, h.push_snd, h.lines, h.cols_eq]
    by_cases hfull : q.Full
    · simp [hfull, Deque.entries_push_of_full hfull h.capacity]
    · simp [hfull, Deque.entries_push_of_room hfull]

/-- One call is answered alike by the ring and by the queue, and it keeps them alike. -/
theorem Stores.call (h : s.Stores cols q) (c : DequeCall Line) :
    (q.call (c.map (normalise cols))).2 = (s.call c).2 ∧
      (s.call c).1.Stores cols (q.call (c.map (normalise cols))).1 := by
  cases c with
  | push line => exact ⟨congrArg _ (h.push_snd line).symm, h.push line⟩
  | popNewest =>
    constructor
    · exact congrArg (fun lines => DequeAnswer.popped lines.getLast?) h.lines.symm
    · exact h.shrink (congrArg _ h.lines) (List.dropLast_sublist _)
  | popOldest =>
    constructor
    · exact congrArg (fun lines => DequeAnswer.popped lines.head?) h.lines.symm
    · exact h.shrink (congrArg _ h.lines) (List.tail_sublist _)
  | drainOldest n =>
    constructor
    · rfl
    · rw [Scrollback.call, drainOldest_eq]
      exact h.shrink (congrArg _ h.lines) (List.drop_sublist n _)
  | clear => exact ⟨rfl, h.shrink rfl (List.nil_sublist _)⟩

theorem new_stores {s₀ : Scrollback} (h : Scrollback.new maxLines cols = .ok s₀) :
    s₀.Stores cols (Deque.empty maxLines) := by
  unfold Scrollback.new at h
  split at h
  · cases h
  next hcap =>
    split at h
    · cases h
    next hcols =>
      cases h
      have hmin : 0 < maxLines := Nat.lt_of_lt_of_le (by decide) (not_not.mp hcap).1
      exact ⟨.empty maxLines (Nat.pos_of_ne_zero hcols), hmin, rfl, rfl⟩

/-- The ring and the queue have the same lines at every index from either end. -/
theorem Stores.fromTop (h : s.Stores cols q) (i : ℕ) : s.fromTop i = q.fromOldest i := by
  rw [Scrollback.fromTop, h.lines]
  rfl

theorem Stores.fromBottom (h : s.Stores cols q) (i : ℕ) : s.fromBottom i = q.fromNewest i := by
  rw [Scrollback.fromBottom, h.lines, Deque.fromNewest]
  split
  next hle => exact (List.getElem?_eq_none (by rwa [List.length_reverse])).symm
  next hlt => exact (List.getElem?_reverse (not_le.mp hlt)).symm

/-- The queue after the calls on a ring of a width. -/
def queueAfter (maxLines cols : ℕ) (calls : List (DequeCall Line)) : Deque Line maxLines :=
  run Deque.call (Deque.empty maxLines) (calls.map (·.map (normalise cols)))

/-- Some calls leave a ring with the lines of the queue, all of them of its width, and have been
answered as by the queue. The next line evicts another one exactly if the ring is full, and both
indexes lead to the same lines. -/
structure ActsAs (maxLines cols : ℕ) (s₀ : Scrollback) (calls : List (DequeCall Line)) : Prop where
  lines : (run call s₀ calls).lines = (queueAfter maxLines cols calls).entries
  width : ∀ line ∈ (run call s₀ calls).lines, line.length = cols
  answers : outputs call s₀ calls =
    outputs Deque.call (Deque.empty maxLines) (calls.map (·.map (normalise cols)))
  evicts : ∀ line, ((run call s₀ calls).push line).2 = true ↔ (run call s₀ calls).len = maxLines
  fromTop : ∀ i, (run call s₀ calls).fromTop i = (queueAfter maxLines cols calls).fromOldest i
  fromBottom : ∀ i,
    (run call s₀ calls).fromBottom i = (queueAfter maxLines cols calls).fromNewest i
  indexes : ∀ i < (run call s₀ calls).len, ∃ line, (run call s₀ calls).fromTop i = some line ∧
    (run call s₀ calls).fromBottom ((run call s₀ calls).len - 1 - i) = some line

theorem Stores.indexes (h : s.Stores cols q) {i : ℕ} (hi : i < s.len) :
    ∃ line, s.fromTop i = some line ∧ s.fromBottom (s.len - 1 - i) = some line := by
  have hlen : s.len = q.entries.length := congrArg List.length h.lines
  refine ⟨s.lines[i], List.getElem?_eq_getElem hi, ?_⟩
  rw [h.fromBottom, hlen, Deque.fromNewest_sub (hlen ▸ hi), ← h.fromTop]
  exact List.getElem?_eq_getElem hi

/-- The ring refines the capped queue. -/
theorem run_actsAs {s₀ : Scrollback} (h : Scrollback.new maxLines cols = .ok s₀)
    (calls : List (DequeCall Line)) : s₀.ActsAs maxLines cols calls := by
  obtain ⟨hanswers, hs⟩ :=
    run_related (Stores cols) (fun _ _ c hs => hs.call c) (new_stores h) calls
  constructor
  · exact hs.lines
  · intro line hmem
    exact (hs.fits.cols line hmem).trans hs.cols_eq
  · exact hanswers.symm
  · intro line
    rw [hs.push_snd, decide_eq_true_iff, Deque.Full, ← hs.lines]
    rfl
  · exact hs.fromTop
  · exact hs.fromBottom
  · exact fun _ hi => hs.indexes hi

/-- One line more than a ring of two columns has room for evicts the oldest one. Then lines are
taken from both of its ends. -/
theorem overfull_actsAs :
    (outputs call ⟨[], 100, 2⟩ (.replicate 101 (.push [])))[100]? = some (.evicted true) ∧
      ActsAs 100 2 ⟨[], 100, 2⟩ (.replicate 101 (.push []) ++
        [.popNewest, .popOldest, .push [{ Cell.default with ch := 'a' }], .drainOldest 3,
          .popNewest, .clear]) :=
  ⟨by decide +kernel, run_actsAs rfl _⟩

end Scrollback

end Ferrokey.Terminal
