import Ferrokey.Collections.BTreeSet

/-! # The held-key ledger

The broker's own record of the keys that are down on the virtual device. Its
transitions reject a second press, a release without a press, and a press past
the cap on simultaneously held keys.
-/

namespace Ferrokey.Uinput

def maxHeldKeysLimit : ℕ := 32

inductive LedgerError where
  | keyUpWithoutDown (code : UInt32)
  | rollover (code : UInt32) (limit : ℕ)
  | notCapable (code : UInt32)
  | keyBusy (code : UInt32)
  deriving DecidableEq, Repr

def LedgerError.display : LedgerError → String
  | .keyUpWithoutDown code =>
    s!"key_up for key {code} without a matching key_down (impossible transition)"
  | .rollover code limit =>
    s!"key_down for key {code} exceeds the simultaneous-keys cap of {limit}"
  | .notCapable code =>
    "key code 0x" ++ String.ofList (Nat.toDigits 16 code.toNat) ++
      " is outside the explicit capability set"
  | .keyBusy code =>
    s!"key_down for key {code} while already held (duplicate down / cross-session ownership)"

structure HeldLedger where
  held : BTreeSet UInt32
  maxHeld : ℕ

namespace HeldLedger

/-- An empty ledger with its cap clamped to the sane range. -/
def new (maxHeld : ℕ) : HeldLedger := ⟨.new, max 1 (min maxHeld maxHeldKeysLimit)⟩

def pressed (l : HeldLedger) (code : UInt32) : HeldLedger := ⟨l.held.insert code, l.maxHeld⟩

def released (l : HeldLedger) (code : UInt32) : HeldLedger := ⟨l.held.remove code, l.maxHeld⟩

def keyDown (l : HeldLedger) (code : UInt32) : Except LedgerError HeldLedger :=
  if l.held.contains code then .error (.keyBusy code)
  else if l.maxHeld ≤ l.held.len then .error (.rollover code l.maxHeld)
  else .ok (l.pressed code)

def keyUp (l : HeldLedger) (code : UInt32) : Except LedgerError HeldLedger :=
  if l.held.contains code then .ok (l.released code)
  else .error (.keyUpWithoutDown code)

def isHeld (l : HeldLedger) (code : UInt32) : Bool := l.held.contains code

def len (l : HeldLedger) : ℕ := l.held.len

/-- Take all held keys, in ascending order, and clear the ledger. -/
def drain (l : HeldLedger) : List UInt32 × HeldLedger := (l.held.elems, { l with held := .new })

theorem keyDown_eq_ok_iff {l l' : HeldLedger} {code : UInt32} :
    l.keyDown code = .ok l' ↔
      code ∉ l.held ∧ l.held.len < l.maxHeld ∧ l' = l.pressed code := by
  unfold keyDown
  split
  · next h => simp [BTreeSet.contains_iff.mp h]
  · next h =>
    split
    · next hn => simp [Nat.not_lt.mpr hn]
    · next hn => simp [BTreeSet.contains_eq_false_iff.mp (by simpa using h), Nat.lt_of_not_le hn,
        eq_comm]

theorem keyUp_eq_ok_iff {l l' : HeldLedger} {code : UInt32} :
    l.keyUp code = .ok l' ↔ code ∈ l.held ∧ l' = l.released code := by
  unfold keyUp
  split
  · next h => simp [BTreeSet.contains_iff.mp h, eq_comm]
  · next h => simp [BTreeSet.contains_eq_false_iff.mp (by simpa using h)]

end HeldLedger

end Ferrokey.Uinput
