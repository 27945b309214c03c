import Ferrokey.Terminal.Safety

/-! # The read budget of a poll

A poll reads until the program has nothing more to say or a budget of bytes is used up.
The loop looks for a budget of exactly zero, and the sizes of the reads are up to the
program, so a read may be larger than what is left. How the loop goes on is a matter of
the sizes alone; its turns are those of the loop that feeds the terminal.
-/

set_option linter.dupNamespace false

namespace Ferrokey.Terminal

/-- The loop before a turn, with the budget that is left and the bytes processed so far, or
how it has come to an end. -/
inductive ReadState where
  | reading (budget processed : ℕ)
  | ended (processed : ℕ)
  | underflow
  deriving DecidableEq

/-- The bytes of an answer; an answer without bytes ends the loop. -/
def ReadAnswer.size : ReadAnswer → ℕ
  | .bytes chunk => chunk.length
  | .ended => 0

/-- One turn of the loop. -/
def readTurn (s : ReadState) (answer : ReadAnswer) : ReadState :=
  match s with
  | .reading budget processed =>
    if budget = 0 then .ended processed
    else if answer.size = 0 then .ended processed
    else
      match Checked.sub budget answer.size with
      | some budget => .reading budget (processed + answer.size)
      | none => .underflow
  | .ended processed => .ended processed
  | .underflow => .underflow

def readRun (s : ReadState) (reads : List ReadAnswer) : ReadState := reads.foldl readTurn s

section

variable {answers : ℕ → ReadAnswer} {answer : ReadAnswer} {k budget processed : ℕ}

theorem readTurn_of_fits (hs : 0 < answer.size) (h : answer.size ≤ budget) :
    readTurn (.reading budget processed) answer =
      .reading (budget - answer.size) (processed + answer.size) := by
  simp [readTurn, Nat.ne_of_gt hs, Nat.ne_of_gt (hs.trans_le h), Checked.sub_eq h]

theorem readTurn_of_exceeds (hb : 0 < budget) (h : budget < answer.size) :
    readTurn (.reading budget processed) answer = .underflow := by
  simp [readTurn, Nat.ne_of_gt hb, Nat.ne_of_gt (hb.trans h), Checked.sub, Nat.not_le.mpr h]

theorem readTurn_of_done (h : budget = 0 ∨ answer.size = 0) :
    readTurn (.reading budget processed) answer = .ended processed := by
  rcases h with h | h <;> simp [readTurn, h]

theorem readRun_underflow (reads : List ReadAnswer) : readRun .underflow reads = .underflow := by
  induction reads with
  | nil => rfl
  | cons read reads ih => exact ih

theorem readRun_ended (processed : ℕ) (reads : List ReadAnswer) :
    readRun (.ended processed) reads = .ended processed := by
  induction reads with
  | nil => rfl
  | cons read reads ih => exact ih

end

/-! ### Streams of answers -/

section Stream

open Terminal

/-- The loop after the first `k` answers of a stream. -/
def readAfter (answers : ℕ → ReadAnswer) (k : ℕ) : ReadState :=
  readRun (.reading readBudget 0) ((List.range k).map answers)

/-- The bytes of the first `k` answers. -/
def total (answers : ℕ → ReadAnswer) (k : ℕ) : ℕ :=
  ((List.range k).map fun i => (answers i).size).sum

/-- The subtraction never underflows, and the loop ends with at most the budget and what one
read less a byte brings. -/
def KeepsBudget (answers : ℕ → ReadAnswer) : Prop :=
  (∀ k, readAfter answers k ≠ .underflow) ∧
    ∃ k processed, readAfter answers k = .ended processed ∧ processed ≤ readBudget + 4095

/-- Reads that all bring bytes leave some of the budget, and the next one takes more. -/
def Oversteps (answers : ℕ → ReadAnswer) : Prop :=
  ∃ k, (∀ i < k, 0 < (answers i).size) ∧
    total answers k < readBudget ∧ readBudget < total answers (k + 1)

variable {answers : ℕ → ReadAnswer} {k : ℕ}

theorem readAfter_succ (answers : ℕ → ReadAnswer) (k : ℕ) :
    readAfter answers (k + 1) = readTurn (readAfter answers k) (answers k) := by
  simp [readAfter, readRun, List.range_succ]

theorem total_succ (answers : ℕ → ReadAnswer) (k : ℕ) :
    total answers (k + 1) = total answers k + (answers k).size := by
  simp [total, List.range_succ]

/-- While every read brings bytes and the budget lasts, the loop is reading. -/
theorem readAfter_of_fits (hs : ∀ i < k, 0 < (answers i).size) (h : total answers k ≤ readBudget) :
    readAfter answers k = .reading (readBudget - total answers k) (total answers k) := by
  induction k with
  | zero => rfl
  | succ k ih =>
    have ht := total_succ answers k
    rw [readAfter_succ, ih (fun i hi => hs i (hi.trans k.lt_succ_self)) (by omega),
      readTurn_of_fits (hs k k.lt_succ_self) (by omega), ht, Nat.sub_sub]

theorem le_total (hs : ∀ i < k, 0 < (answers i).size) : k ≤ total answers k := by
  induction k with
  | zero => exact Nat.zero_le _
  | succ k ih =>
    have ht := total_succ answers k
    have hk := hs k k.lt_succ_self
    have := ih fun i hi => hs i (hi.trans k.lt_succ_self)
    omega

/-- The loop is done with the budget, or with the program, at the first turn that is not one
of bytes that fit. -/
theorem exists_first (answers : ℕ → ReadAnswer) : ∃ k,
    (∀ i < k, 0 < (answers i).size) ∧ total answers k ≤ readBudget ∧
    (total answers k = readBudget ∨ (answers k).size = 0 ∨
      total answers k < readBudget ∧ readBudget < total answers (k + 1)) := by
  by_contra hn
  -- a loop that never gets there reads a byte at least on each of its turns
  have reads : ∀ k, (∀ i < k, 0 < (answers i).size) ∧ total answers k ≤ readBudget := by
    intro k
    induction k with
    | zero => exact ⟨nofun, Nat.zero_le _⟩
    | succ k ih =>
      have hk : ¬ (total answers k = readBudget ∨ (answers k).size = 0 ∨
          total answers k < readBudget ∧ readBudget < total answers (k + 1)) :=
        fun h => hn ⟨k, ih.1, ih.2, h⟩
      constructor
      · intro i hi
        rcases Nat.lt_succ_iff_lt_or_eq.mp hi with hi | rfl
        · exact ih.1 i hi
        · omega
      · have := ih.2
        omega
  have := le_total (reads (readBudget + 1)).1
  have := (reads (readBudget + 1)).2
  omega

/-- A loop that has come to an end stays there. -/
theorem readAfter_of_le {s : ReadState} {l : ℕ} (hs : ∀ answer, readTurn s answer = s)
    (h : readAfter answers k = s) (hl : k ≤ l) : readAfter answers l = s := by
  induction hl with
  | refl => exact h
  | step _ ih => rw [readAfter_succ, ih, hs]

theorem Oversteps.underflow (h : Oversteps answers) : ∃ k, readAfter answers k = .underflow := by
  obtain ⟨k, hs, hlt, hgt⟩ := h
  have ht := total_succ answers k
  exact ⟨k + 1, by
    rw [readAfter_succ, readAfter_of_fits hs hlt.le, readTurn_of_exceeds (by omega) (by omega)]⟩

theorem readAfter_of_not_oversteps (h : ¬ Oversteps answers) :
    ∃ k processed, readAfter answers k = .ended processed ∧ processed ≤ readBudget := by
  obtain ⟨k, hs, hle, hk⟩ := exists_first answers
  refine ⟨k + 1, total answers k, ?_, hle⟩
  rw [readAfter_succ, readAfter_of_fits hs hle]
  rcases hk with hk | hk | hk
  · exact readTurn_of_done (.inl (by omega))
  · exact readTurn_of_done (.inr hk)
  · exact absurd ⟨k, hs, hk⟩ h

/-- A poll keeps to its budget exactly when no read takes more of it than there is. -/
theorem keepsBudget_iff (answers : ℕ → ReadAnswer) :
    KeepsBudget answers ↔ ¬ Oversteps answers := by
  constructor
  · rintro ⟨hn, -⟩ ho
    obtain ⟨k, hk⟩ := ho.underflow
    exact hn k hk
  · intro ho
    obtain ⟨k, processed, hk, hp⟩ := readAfter_of_not_oversteps ho
    refine ⟨fun l hl => ?_, k, processed, hk, hp.trans (Nat.le_add_right _ _)⟩
    -- an underflow would stand at the later of the two turns, and so would the end
    have hu := readAfter_of_le (fun _ => rfl) hl (Nat.le_max_left l k)
    rw [readAfter_of_le (fun _ => rfl) hk (Nat.le_max_right l k)] at hu
    cases hu

/-- Reads of 4095 bytes: after 64 of them there are 64 bytes left, and the next one is larger. -/
theorem odd_reads_not_keepsBudget :
    ¬ KeepsBudget fun _ => .bytes (List.replicate 4095 97) := by
  rintro ⟨hn, -⟩
  have size : (ReadAnswer.bytes (List.replicate 4095 97)).size = 4095 := List.length_replicate
  have ho : Oversteps fun _ => .bytes (List.replicate 4095 97) :=
    ⟨64, fun _ _ => by simp only [size]; decide, by simp only [total, size]; decide,
      by simp only [total, size]; decide⟩
  obtain ⟨k, hk⟩ := ho.underflow
  exact hn k hk

end Stream

/-! ### The terminal that is fed -/

section Feeding

variable {tables : UnicodeTables} {reads : List ReadAnswer} {t : Terminal} {budget processed : ℕ}

open Terminal

/-- A turn of the loop over the terminal that feeds it a chunk. -/
theorem readLoop_of_bytes {chunk : List UInt8} (hb : budget ≠ 0) (hc : chunk.length ≠ 0) :
    readLoop tables budget (.bytes chunk :: reads) t = (Checked.sub budget chunk.length).bind
      fun budget => (t.feed tables chunk).bind fun t =>
        (readLoop tables budget reads t).map fun out => (out.1, .output :: out.2) := by
  obtain ⟨budget, rfl⟩ := Nat.exists_eq_succ_of_ne_zero hb
  cases chunk with
  | nil => exact absurd rfl hc
  | cons byte chunk =>
    simp only [readLoop, bind, Option.map_eq_bind]
    rfl

theorem readLoop_of_done {read : ReadAnswer} (h : budget = 0 ∨ read.size = 0) :
    readLoop tables budget (read :: reads) t = some (t, []) := by
  cases budget with
  | zero => rfl
  | succ budget =>
    obtain h := h.resolve_left (Nat.succ_ne_zero _)
    cases read with
    | ended => rfl
    | bytes chunk =>
      obtain rfl := List.length_eq_zero_iff.mp h
      rfl

/-- Chunks within the budget are all fed to the terminal, and what is left of the budget is
for the reads after them. -/
theorem readLoop_of_chunks {chunks : List (List UInt8)} (hc : ∀ chunk ∈ chunks, chunk.length ≠ 0)
    (h : (chunks.map List.length).sum ≤ budget) :
    readLoop tables budget (chunks.map .bytes ++ reads) t =
      (chunks.foldlM (fun t : Terminal => t.feed tables) t).bind fun t =>
        (readLoop tables (budget - (chunks.map List.length).sum) reads t).map
          fun out => (out.1, List.replicate chunks.length .output ++ out.2) := by
  induction chunks generalizing budget t with
  | nil => simp
  | cons chunk chunks ih =>
    simp only [List.map_cons, List.sum_cons] at h ⊢
    have hn := hc chunk List.mem_cons_self
    rw [List.cons_append, readLoop_of_bytes (by omega) hn, Checked.sub_eq (by omega),
      Option.bind_some, List.foldlM_cons]
    cases t.feed tables chunk with
    | none => rfl
    | some t =>
      simp only [Option.bind_some, Option.bind_eq_bind, Nat.sub_add_eq,
        ih (fun c hm => hc c (List.mem_cons_of_mem _ hm)) (show _ ≤ budget - chunk.length by omega)]
      cases chunks.foldlM (fun t : Terminal => t.feed tables) t with
      | none => rfl
      | some t => simp [Option.map_map, Function.comp_def, List.replicate_succ]

/-- Over a terminal within its bounds the loop goes through exactly if the budget does not
underflow. -/
theorem readLoop_isSome_iff (h : t.Valid) : (readLoop tables budget reads t).isSome = true ↔
    readRun (.reading budget processed) reads ≠ .underflow := by
  induction reads generalizing budget processed t with
  | nil => cases budget <;> exact iff_of_true rfl nofun
  | cons read reads ih =>
    rw [readRun, List.foldl_cons]
    by_cases hd : budget = 0 ∨ read.size = 0
    · rw [readLoop_of_done hd, readTurn_of_done hd]
      exact iff_of_true rfl fun hu => ReadState.noConfusion ((readRun_ended _ _).symm.trans hu)
    rw [not_or] at hd
    cases read with
    | ended => exact absurd rfl hd.2
    | bytes chunk =>
      rw [readLoop_of_bytes hd.1 hd.2]
      by_cases hc : chunk.length ≤ budget
      · obtain ⟨t', ht', -, hv⟩ := feed_valid h tables chunk
        rw [Checked.sub_eq hc, Option.bind_some, ht', Option.bind_some, Option.isSome_map,
          readTurn_of_fits (Nat.pos_of_ne_zero hd.2) hc]
        exact ih hv
      · have hexceeds : readTurn (.reading budget processed) (.bytes chunk) = .underflow :=
          readTurn_of_exceeds (Nat.pos_of_ne_zero hd.1) (not_le.mp hc)
        rw [hexceeds]
        refine iff_of_false ?_ fun hn => hn (readRun_underflow reads)
        simp [Checked.sub, hc]

/-- A poll of a running program goes through exactly if it keeps its budget. -/
theorem poll_isSome_iff (h : t.Valid) (hp : t.pty ≠ none) (answers : List WriteAnswer) :
    (t.poll tables answers reads).isSome = true ↔
      readRun (.reading readBudget 0) reads ≠ .underflow := by
  have hloop : (readLoop tables readBudget reads (t.flush answers).1).isSome = true ↔
      readRun (.reading readBudget 0) reads ≠ .underflow :=
    readLoop_isSome_iff (h.of_same (flush_same answers))
  rw [← hloop]
  unfold poll
  cases hread : readLoop tables readBudget reads (t.flush answers).1 <;> simp [hp, hread]

end Feeding

end Ferrokey.Terminal
