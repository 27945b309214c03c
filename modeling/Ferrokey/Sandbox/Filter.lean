import Ferrokey.Bpf.Classic

/-! # The runtime seccomp filter

The broker's filter dispatches on the architecture and then walks that
architecture's allowlist; with a session gate, one shape of `openat` is allowed
behind it. The jump offsets are computed from the lengths of the parts.
-/

namespace Ferrokey.Sandbox

open Bpf

def seccompRetAllow : UInt32 := 0x7fff0000
def seccompRetErrno : UInt32 := 0x00050000
def seccompRetKillProcess : UInt32 := 0x80000000
def eperm : UInt32 := 1

/-- Offsets into the data a filter sees: the number, the architecture, and the low words
of the first and third arguments. -/
def seccompDataNr : UInt32 := 0
def seccompDataArch : UInt32 := 4
def seccompData0 : UInt32 := 16
def seccompData2 : UInt32 := 32

def auditArchX8664 : UInt32 := 0xC000003E
def auditArchAarch64 : UInt32 := 0xC00000B7

structure ArchAllowlist where
  arch : UInt32
  syscalls : List UInt32

def x8664Syscalls : List UInt32 :=
  [0, 1, 3, 5, 7, 9, 10, 11, 12, 13, 14, 15, 28, 32, 39, 44, 45, 55, 131, 158, 186, 202, 228, 231,
    288, 318, 60, 63]

def aarch64Syscalls : List UInt32 :=
  [57, 62, 63, 64, 73, 80, 93, 94, 98, 101, 113, 134, 135, 139, 160, 172, 178, 206, 207, 209, 214,
    215, 222, 226, 233, 242, 278]

def x8664 : ArchAllowlist := ⟨auditArchX8664, x8664Syscalls⟩
def aarch64 : ArchAllowlist := ⟨auditArchAarch64, aarch64Syscalls⟩

/-- The number of `openat` on each architecture. -/
def x8664Openat : UInt32 := 257
def aarch64Openat : UInt32 := 56

/-- The session gate: the one directory and the one set of flags that `openat` may use
after the freeze. -/
structure SessionGate where
  procDirfd : Int32
  openatFlags : UInt32
  deriving DecidableEq

def allowlistChainLen (syscalls : List UInt32) (gate : Option SessionGate) : ℕ :=
  let terminator := if gate.isSome then 7 else 1
  1 + 2 * syscalls.length + terminator

/-- What closes a chain: the gated `openat` entry, or a denial alone. -/
def chainEnd (openatNr : UInt32) : Option SessionGate → List Insn
  | some g =>
    [.jeqK openatNr 0 5, .ldAbs seccompData0, .jeqK g.procDirfd.toUInt32 0 3, .ldAbs seccompData2,
      .jeqK g.openatFlags 0 1, .retK seccompRetAllow, .retK (seccompRetErrno ||| eperm)]
  | none => [.retK (seccompRetErrno ||| eperm)]

/-- The chain of an architecture: the number is compared with each allowed syscall. -/
def allowlistChain (syscalls : List UInt32) (openatNr : UInt32) (gate : Option SessionGate) :
    List Insn :=
  .ldAbs seccompDataNr ::
    (syscalls.flatMap (fun nr => [.jeqK nr 0 1, .retK seccompRetAllow]) ++ chainEnd openatNr gate)

/-- A jump offset must fit in eight bits; `none` is the panic when it does not. -/
def toJump (n : ℕ) : Option UInt8 := if n < 256 then some (UInt8.ofNat n) else none

/-- Build the filter: the dispatch on the architecture, then the two chains. -/
def buildFilterProgram (gate : Option SessionGate) : Option (List Insn) := do
  let x86ChainLen := allowlistChainLen x8664.syscalls gate
  let x86ChainStart := 4
  let aarch64ChainStart := 4 + x86ChainLen
  let toX86 ← toJump (x86ChainStart - 2)
  let toAarch64 ← toJump (aarch64ChainStart - 3)
  some ([.ldAbs seccompDataArch, .jeqK x8664.arch toX86 0, .jeqK aarch64.arch toAarch64 0,
    .retK seccompRetKillProcess] ++ allowlistChain x8664.syscalls x8664Openat gate ++
    allowlistChain aarch64.syscalls aarch64Openat gate)

structure SeccompData where
  nr : UInt32
  arch : UInt32
  instructionPointer : UInt64
  args : Fin 6 → UInt64

namespace SeccompData

/-- The low and the high word of a 64-bit field; both architectures are little-endian. -/
def low (v : UInt64) : UInt32 := v.toUInt32
def high (v : UInt64) : UInt32 := (v >>> 32).toUInt32

def words (data : SeccompData) : List UInt32 :=
  [data.nr, data.arch, low data.instructionPointer, high data.instructionPointer] ++
    (List.finRange 6).flatMap (fun i => [low (data.args i), high (data.args i)])

def load (data : SeccompData) (offset : UInt32) : Option UInt32 :=
  if offset.toNat % 4 = 0 then data.words[offset.toNat / 4]? else none

@[simp] theorem load_nr (data : SeccompData) : data.load seccompDataNr = some data.nr := rfl

@[simp] theorem load_arch (data : SeccompData) : data.load seccompDataArch = some data.arch := rfl

@[simp] theorem load_arg0 (data : SeccompData) :
    data.load seccompData0 = some (low (data.args 0)) := rfl

@[simp] theorem load_arg2 (data : SeccompData) :
    data.load seccompData2 = some (low (data.args 2)) := rfl

end SeccompData

/-- What the filter is meant to let through on an architecture: an allowlisted syscall, or
the gated shape of `openat`. -/
def Permitted (gate : Option SessionGate) (syscalls : List UInt32) (openatNr : UInt32)
    (data : SeccompData) : Prop :=
  data.nr ∈ syscalls ∨ ∃ g, gate = some g ∧ data.nr = openatNr ∧
    SeccompData.low (data.args 0) = g.procDirfd.toUInt32 ∧
    SeccompData.low (data.args 2) = g.openatFlags

section Chain

variable (syscalls : List UInt32) (openatNr : UInt32) (gate : Option SessionGate)
  (data : SeccompData) (rest : List Insn)

theorem length_allowlistChain :
    (allowlistChain syscalls openatNr gate).length = allowlistChainLen syscalls gate := by
  have hpairs : (syscalls.flatMap fun nr => [Insn.jeqK nr 0 1, .retK seccompRetAllow]).length =
      2 * syscalls.length := by
    simp [List.length_flatMap]
    omega
  rw [allowlistChain, List.length_cons, List.length_append, hpairs]
  cases gate <;> simp [chainEnd, allowlistChainLen] <;> omega

/-- The comparisons allow a number of the list and fall through with any other. -/
theorem exec_pairs (load : UInt32 → Option UInt32) (acc : UInt32) (tail : List Insn) :
    exec load (syscalls.flatMap (fun nr => [.jeqK nr 0 1, .retK seccompRetAllow]) ++ tail) acc =
      if acc ∈ syscalls then some seccompRetAllow else exec load tail acc := by
  induction syscalls with
  | nil => simp
  | cons nr syscalls ih =>
    rw [List.flatMap_cons, List.append_assoc, List.cons_append, exec_jeqK]
    by_cases h : acc = nr
    · simp [h]
    · simp [h, ih]

/-- The end of a chain allows the gated `openat` only. -/
theorem exec_chainEnd :
    (Permitted gate [] openatNr data →
      exec data.load (chainEnd openatNr gate ++ rest) data.nr = some seccompRetAllow) ∧
    (¬ Permitted gate [] openatNr data →
      exec data.load (chainEnd openatNr gate ++ rest) data.nr =
        some (seccompRetErrno ||| eperm)) := by
  cases gate with
  | none => simp [Permitted, chainEnd]
  | some g =>
    by_cases hn : data.nr = openatNr
    · by_cases h0 : SeccompData.low (data.args 0) = g.procDirfd.toUInt32
      · by_cases h2 : SeccompData.low (data.args 2) = g.openatFlags
        · simp [Permitted, chainEnd, hn, h0, h2]
        · simp [Permitted, chainEnd, hn, h0, h2]
      · simp [Permitted, chainEnd, hn, h0]
    · simp [Permitted, chainEnd, hn]

/-- A chain gives its architecture's verdict, whatever stands behind it. -/
theorem exec_allowlistChain (acc : UInt32) :
    (Permitted gate syscalls openatNr data →
      exec data.load (allowlistChain syscalls openatNr gate ++ rest) acc = some seccompRetAllow) ∧
    (¬ Permitted gate syscalls openatNr data →
      exec data.load (allowlistChain syscalls openatNr gate ++ rest) acc =
        some (seccompRetErrno ||| eperm)) := by
  have hend := exec_chainEnd openatNr gate data rest
  rw [allowlistChain, List.cons_append, exec_ldAbs data.load_nr, List.append_assoc, exec_pairs]
  by_cases h : data.nr ∈ syscalls
  · simp [Permitted, h]
  · rw [if_neg h]
    simpa [Permitted, h] using hend

variable {syscalls openatNr gate data rest}

/-- A chain's two verdicts differ, so the verdict tells what is permitted. -/
theorem verdict_of_chain {p : Prop} {r : Option UInt32} {verdict : UInt32}
    (h : (p → r = some seccompRetAllow) ∧ (¬ p → r = some (seccompRetErrno ||| eperm)))
    (hv : r = some verdict) :
    (verdict = seccompRetAllow ↔ p) ∧ (¬ p → verdict = seccompRetErrno ||| eperm) := by
  have hne : seccompRetErrno ||| eperm ≠ seccompRetAllow := by decide
  by_cases hp : p
  · rw [h.1 hp] at hv
    exact ⟨iff_of_true (Option.some.inj hv).symm hp, fun h => absurd hp h⟩
  · rw [h.2 hp] at hv
    obtain rfl := Option.some.inj hv
    exact ⟨iff_of_false hne hp, fun _ => rfl⟩

variable (syscalls openatNr gate data)

theorem checked_chainEnd (h : Checked data.load rest) :
    Checked data.load (chainEnd openatNr gate ++ rest) := by
  cases gate <;> simp [chainEnd, checked_jeqK, checked_ldAbs, checked_retK, h]

theorem checked_allowlistChain (h : Checked data.load rest) :
    Checked data.load (allowlistChain syscalls openatNr gate ++ rest) := by
  have hend := checked_chainEnd openatNr gate data h
  have hlen : 0 < (chainEnd openatNr gate ++ rest).length := by
    cases gate <;> simp [chainEnd]
  have hpairs : Checked data.load
      (syscalls.flatMap (fun nr => [.jeqK nr 0 1, .retK seccompRetAllow]) ++
        (chainEnd openatNr gate ++ rest)) := by
    induction syscalls with
    | nil => exact hend
    | cons nr syscalls ih =>
      rw [List.flatMap_cons, List.append_assoc, List.cons_append, checked_jeqK]
      refine ⟨by simp, ?_, ?_⟩
      · simp only [List.cons_append, List.nil_append, List.length_cons, List.length_append] at hlen ⊢
        simp only [UInt8.toNat_one]
        omega
      · rw [List.cons_append, checked_retK]
        exact ih
  rw [allowlistChain, List.cons_append, checked_ldAbs, List.append_assoc]
  refine ⟨by simp, fun hnil => ?_, hpairs⟩
  simp [List.append_eq_nil_iff.mp (List.append_eq_nil_iff.mp hnil).2] at hlen

end Chain

def filterProgram (gate : Option SessionGate) : List Insn :=
  .ldAbs seccompDataArch :: .jeqK x8664.arch 2 0 ::
    .jeqK aarch64.arch (UInt8.ofNat (1 + allowlistChainLen x8664.syscalls gate)) 0 ::
    .retK seccompRetKillProcess ::
    (allowlistChain x8664.syscalls x8664Openat gate ++
      allowlistChain aarch64.syscalls aarch64Openat gate)

/-- The two jumps of the dispatch fit, so the program is built. -/
theorem buildFilterProgram_eq (gate : Option SessionGate) :
    buildFilterProgram gate = some (filterProgram gate) := by
  cases gate <;> rfl

section Dispatch

variable (gate : Option SessionGate) (data : SeccompData)

theorem toNat_aarch64Jump : (UInt8.ofNat (1 + allowlistChainLen x8664.syscalls gate)).toNat =
    (allowlistChain x8664.syscalls x8664Openat gate).length + 1 := by
  rw [length_allowlistChain]
  cases gate <;> rfl

theorem checked_filterProgram : Checked data.load (filterProgram gate) := by
  have hchain := checked_allowlistChain aarch64.syscalls aarch64Openat gate data
    (show Checked data.load [] from trivial)
  rw [List.append_nil] at hchain
  have hlen : 0 < (allowlistChain aarch64.syscalls aarch64Openat gate).length := by
    simp [allowlistChain]
  rw [filterProgram, checked_ldAbs, checked_jeqK, checked_jeqK, checked_retK]
  refine ⟨by simp, by simp, ?_, by simp, ?_, by simp, checked_allowlistChain _ _ _ _ hchain⟩
  · simp only [List.length_cons]
    have h2 : (2 : UInt8).toNat = 2 := rfl
    simp only [List.length_append]
    omega
  · rw [toNat_aarch64Jump, List.length_cons, List.length_append]
    omega

/-- The dispatch reaches the chain of its architecture, or the kill. -/
theorem exec_filterProgram (acc : UInt32) :
    exec data.load (filterProgram gate) acc =
      if data.arch = x8664.arch then
        exec data.load (allowlistChain x8664.syscalls x8664Openat gate ++
          allowlistChain aarch64.syscalls aarch64Openat gate) data.arch
      else if data.arch = aarch64.arch then
        exec data.load (allowlistChain aarch64.syscalls aarch64Openat gate) data.arch
      else some seccompRetKillProcess := by
  rw [filterProgram, exec_ldAbs data.load_arch, exec_jeqK]
  by_cases hx : data.arch = x8664.arch
  · rw [if_pos hx, if_pos hx]
    rfl
  · rw [if_neg hx, if_neg hx]
    change exec data.load (.jeqK _ _ _ :: _) data.arch = _
    rw [exec_jeqK]
    by_cases ha : data.arch = aarch64.arch
    · rw [if_pos ha, if_pos ha, toNat_aarch64Jump, List.drop_succ_cons, List.drop_left]
    · rw [if_neg ha, if_neg ha]
      exact exec_retK

end Dispatch

/-- The filter is built with every jump inside it. On every input it ends in a return:
an unknown architecture is killed, and on the two known ones exactly what is permitted is
allowed and everything else is refused with `EPERM`. -/
theorem filter_verdict (gate : Option SessionGate) :
    ∃ prog, buildFilterProgram gate = some prog ∧
      (∀ data : SeccompData, Checked data.load prog) ∧
      ∀ data : SeccompData, ∃ verdict, exec data.load prog 0 = some verdict ∧
        (data.arch ≠ x8664.arch → data.arch ≠ aarch64.arch → verdict = seccompRetKillProcess) ∧
        (data.arch = x8664.arch →
          (verdict = seccompRetAllow ↔ Permitted gate x8664.syscalls x8664Openat data) ∧
          (¬ Permitted gate x8664.syscalls x8664Openat data →
            verdict = seccompRetErrno ||| eperm)) ∧
        (data.arch = aarch64.arch →
          (verdict = seccompRetAllow ↔ Permitted gate aarch64.syscalls aarch64Openat data) ∧
          (¬ Permitted gate aarch64.syscalls aarch64Openat data →
            verdict = seccompRetErrno ||| eperm)) := by
  refine ⟨_, buildFilterProgram_eq gate, checked_filterProgram gate, fun data => ?_⟩
  obtain ⟨verdict, hv⟩ := Option.isSome_iff_exists.mp
    (exec_isSome_of_checked 0 (checked_filterProgram gate data) (by simp [filterProgram]))
  refine ⟨verdict, hv, fun hx ha => ?_, fun hx => ?_, fun ha => ?_⟩
  · rw [exec_filterProgram, if_neg hx, if_neg ha] at hv
    exact (Option.some.inj hv).symm
  · rw [exec_filterProgram, if_pos hx] at hv
    exact verdict_of_chain (exec_allowlistChain ..) hv
  · have hx : data.arch ≠ x8664.arch := ha ▸ by decide
    rw [exec_filterProgram, if_neg hx, if_pos ha,
      ← List.append_nil (allowlistChain aarch64.syscalls aarch64Openat gate)] at hv
    exact verdict_of_chain (exec_allowlistChain ..) hv

end Ferrokey.Sandbox
