import Mathlib.Data.List.Infix
import Mathlib.Tactic.Common

/-! # Classic BPF

The part of the classic BPF machine that a seccomp filter of loads, equality
jumps and returns needs. Jumps only go forward, so a program counter is the rest
of the program, and a run that would leave the program is `none`.
-/

namespace Ferrokey.Bpf

/-- One instruction, laid out as the kernel has it. -/
structure Insn where
  code : UInt16
  jt : UInt8
  jf : UInt8
  k : UInt32
  deriving DecidableEq, Repr

/-- The operation codes: load a word at an offset, jump on equality, return a constant. -/
def ldAbsCode : UInt16 := 0x00 ||| 0x00 ||| 0x20
def jeqCode : UInt16 := 0x05 ||| 0x10 ||| 0x00
def retCode : UInt16 := 0x06 ||| 0x00

theorem codes_distinct :
    jeqCode ≠ ldAbsCode ∧ retCode ≠ ldAbsCode ∧ retCode ≠ jeqCode := by decide

namespace Insn

def ldAbs (k : UInt32) : Insn := ⟨ldAbsCode, 0, 0, k⟩
def jeqK (k : UInt32) (jt jf : UInt8) : Insn := ⟨jeqCode, jt, jf, k⟩
def retK (k : UInt32) : Insn := ⟨retCode, 0, 0, k⟩

end Insn

/-- Run a program on the words of its input, with the accumulator. -/
def exec (load : UInt32 → Option UInt32) : List Insn → UInt32 → Option UInt32
  | [], _ => none
  | insn :: rest, acc =>
    if insn.code = ldAbsCode then
      match load insn.k with
      | none => none
      | some word => exec load rest word
    else if insn.code = jeqCode then
      exec load (rest.drop (if acc = insn.k then insn.jt.toNat else insn.jf.toNat)) acc
    else if insn.code = retCode then some insn.k
    else none
termination_by prog => prog.length
decreasing_by
  · exact Nat.lt_succ_self _
  · rw [List.length_drop, List.length_cons]
    exact Nat.lt_succ_of_le (Nat.sub_le _ _)

/-- What the kernel checks of a program before it is installed: every instruction is
known, every load is inside the input, and control never leaves the program. -/
def Checked (load : UInt32 → Option UInt32) : List Insn → Prop
  | [] => True
  | insn :: rest =>
    (insn.code = ldAbsCode ∧ (load insn.k).isSome ∧ rest ≠ [] ∨
      insn.code = jeqCode ∧ insn.jt.toNat < rest.length ∧ insn.jf.toNat < rest.length ∨
      insn.code = retCode) ∧ Checked load rest

section

variable {load : UInt32 → Option UInt32} {prog rest : List Insn} {acc k : UInt32} {jt jf : UInt8}

@[simp] theorem exec_ldAbs {word : UInt32} (h : load k = some word) :
    exec load (.ldAbs k :: rest) acc = exec load rest word := by
  rw [exec]
  simp [Insn.ldAbs, h]

@[simp] theorem exec_jeqK :
    exec load (.jeqK k jt jf :: rest) acc =
      exec load (rest.drop (if acc = k then jt.toNat else jf.toNat)) acc := by
  rw [exec, Insn.jeqK, if_neg codes_distinct.1, if_pos rfl]

@[simp] theorem exec_retK : exec load (.retK k :: rest) acc = some k := by
  rw [exec, Insn.retK, if_neg codes_distinct.2.1, if_neg codes_distinct.2.2, if_pos rfl]

theorem checked_ldAbs : Checked load (.ldAbs k :: rest) ↔
    (load k).isSome ∧ rest ≠ [] ∧ Checked load rest := by
  simp [Checked, Insn.ldAbs, codes_distinct.1.symm, codes_distinct.2.1.symm, and_assoc]

theorem checked_jeqK : Checked load (.jeqK k jt jf :: rest) ↔
    jt.toNat < rest.length ∧ jf.toNat < rest.length ∧ Checked load rest := by
  simp [Checked, Insn.jeqK, codes_distinct.1, codes_distinct.2.2.symm, and_assoc]

theorem checked_retK : Checked load (.retK k :: rest) ↔ Checked load rest := by
  simp [Checked, Insn.retK]

theorem Checked.drop (h : Checked load prog) (n : ℕ) : Checked load (prog.drop n) := by
  induction n generalizing prog with
  | zero => exact h
  | succ n ih =>
    cases prog with
    | nil => exact h
    | cons insn prog => exact ih h.2

/-- A checked program that is not empty runs to a return inside it. -/
theorem exec_isSome_of_checked (acc : UInt32) (h : Checked load prog) (hne : prog ≠ []) :
    (exec load prog acc).isSome := by
  induction hn : prog.length using Nat.strong_induction_on generalizing prog acc with
  | _ n ih =>
    cases prog with
    | nil => exact absurd rfl hne
    | cons insn rest =>
      have hlt : rest.length < n := by rw [← hn]; exact Nat.lt_succ_self _
      obtain ⟨⟨hc, hl, hr⟩ | ⟨hc, ht, hf⟩ | hc, hrest⟩ := h
      · obtain ⟨word, hw⟩ := Option.isSome_iff_exists.mp hl
        rw [exec, if_pos hc, hw]
        exact ih _ hlt _ hrest hr rfl
      · rw [exec, if_neg (hc ▸ codes_distinct.1), if_pos hc]
        have hd : (if acc = insn.k then insn.jt.toNat else insn.jf.toNat) < rest.length := by
          split <;> assumption
        refine ih _ ?_ _ (hrest.drop _) (by simpa using hd) rfl
        rw [List.length_drop]
        omega
      · rw [exec, if_neg (hc ▸ codes_distinct.2.1), if_neg (hc ▸ codes_distinct.2.2), if_pos hc]
        rfl

end

end Ferrokey.Bpf
