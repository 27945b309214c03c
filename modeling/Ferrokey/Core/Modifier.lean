import Ferrokey.Core.Key

/-! # Modifiers

The modifier kinds, the keys that stand for them, and the bitset of active
kinds that latched and locked modifiers are kept in.
-/

namespace Ferrokey

inductive ModifierKind where
  | shift | ctrl | alt | altGr | «meta» | fn
  deriving DecidableEq, Repr

namespace ModifierKind

def count : ℕ := 6

/-- All kinds, in the order in which modifiers are injected. -/
def all : List ModifierKind := [.shift, .ctrl, .alt, .altGr, .meta, .fn]

/-- The physical key that emits a modifier. -/
def preferredKey : ModifierKind → PhysicalKey
  | .shift => .leftShift
  | .ctrl => .leftCtrl
  | .alt => .leftAlt
  | .altGr => .rightAlt
  | .meta => .leftMeta
  | .fn => .menu

def bit : ModifierKind → UInt8
  | .shift => 1 <<< (0 : UInt8)
  | .ctrl => 1 <<< (1 : UInt8)
  | .alt => 1 <<< (2 : UInt8)
  | .altGr => 1 <<< (3 : UInt8)
  | .meta => 1 <<< (4 : UInt8)
  | .fn => 1 <<< (5 : UInt8)

end ModifierKind

/-- A bitset of active modifier kinds. -/
structure ModifierSet where
  bits : UInt8
  deriving DecidableEq, Repr

namespace ModifierSet

def empty : ModifierSet := ⟨0⟩

def ofKind (kind : ModifierKind) : ModifierSet := ⟨kind.bit⟩

def shift : ModifierSet := .ofKind .shift

def altgr : ModifierSet := .ofKind .altGr

def fn : ModifierSet := .ofKind .fn

def contains (mods other : ModifierSet) : Bool := mods.bits &&& other.bits == other.bits

def insert (mods other : ModifierSet) : ModifierSet := ⟨mods.bits ||| other.bits⟩

def remove (mods other : ModifierSet) : ModifierSet := ⟨mods.bits &&& ~~~ other.bits⟩

def union (mods other : ModifierSet) : ModifierSet := ⟨mods.bits ||| other.bits⟩

def intersection (mods other : ModifierSet) : ModifierSet := ⟨mods.bits &&& other.bits⟩

/-- The contained kinds, the lowest bit first. -/
def iter (mods : ModifierSet) : List ModifierKind :=
  ModifierKind.all.filter fun kind => mods.contains (.ofKind kind)

theorem intersection_self (mods : ModifierSet) : mods.intersection mods = mods := by
  rw [intersection, UInt8.and_self]

/-- Adding what is contained adds nothing. -/
theorem union_of_contains {mods other : ModifierSet} (h : mods.contains other = true) :
    mods.union other = mods := by
  have hbits : mods.bits &&& other.bits = other.bits := by simpa [contains] using h
  have habsorb : mods.bits ||| (mods.bits &&& other.bits) = mods.bits := by
    apply UInt8.eq_of_toBitVec_eq
    ext i
    simpa using fun hi _ => hi
  rw [union, ← hbits, habsorb]

theorem union_empty (mods : ModifierSet) : mods.union empty = mods := by
  rw [union, empty, UInt8.or_zero]

theorem union_assoc (mods mods' mods'' : ModifierSet) :
    (mods.union mods').union mods'' = mods.union (mods'.union mods'') := by
  simp only [union, UInt8.or_assoc]

theorem union_comm (mods mods' : ModifierSet) : mods.union mods' = mods'.union mods := by
  rw [union, union, UInt8.or_comm]

/-- A kind that is not contained is all that a set lacks of it. -/
theorem ofKind_intersection {mods : ModifierSet} {kind : ModifierKind}
    (h : mods.contains (.ofKind kind) = false) : (ofKind kind).intersection mods = empty := by
  obtain ⟨⟨b⟩⟩ := mods
  cases kind <;> revert h <;> revert b <;> decide +kernel

theorem bits_or_and (a b c : UInt8) : (a ||| b) &&& c = a &&& c ||| b &&& c := by
  apply UInt8.eq_of_toBitVec_eq
  ext i
  simp [Bool.and_or_distrib_right]

theorem union_intersection (mods mods' other : ModifierSet) :
    (mods.union mods').intersection other =
      (mods.intersection other).union (mods'.intersection other) := by
  rw [union, intersection, bits_or_and]
  rfl

theorem bit_and_bit {kind kind' : ModifierKind} (h : kind ≠ kind') :
    kind.bit &&& kind'.bit = 0 := by
  cases kind <;> cases kind' <;> first | rfl | exact absurd rfl h

theorem contains_insert_of_ne (mods : ModifierSet) {kind kind' : ModifierKind} (h : kind ≠ kind') :
    (mods.insert (.ofKind kind)).contains (.ofKind kind') = mods.contains (.ofKind kind') := by
  have hbits : (mods.bits ||| kind.bit) &&& kind'.bit = mods.bits &&& kind'.bit := by
    rw [bits_or_and, bit_and_bit h, UInt8.or_zero]
  simp only [contains, insert, ofKind, hbits]

theorem bits_and_bit (bits : UInt8) (kind : ModifierKind) :
    bits &&& kind.bit = 0 ∨ bits &&& kind.bit = kind.bit := by
  obtain ⟨b⟩ := bits
  cases kind <;> revert b <;> decide +kernel

theorem contains_union (mods mods' : ModifierSet) (kind : ModifierKind) :
    (mods.union mods').contains (.ofKind kind) =
      (mods.contains (.ofKind kind) || mods'.contains (.ofKind kind)) := by
  simp only [contains, union, ofKind, bits_or_and]
  rcases bits_and_bit mods.bits kind with h | h
  · rcases bits_and_bit mods'.bits kind with h' | h' <;> simp [h, h']
  · rcases bits_and_bit mods'.bits kind with h' | h' <;> simp [h, h']

theorem contains_insert_self (mods : ModifierSet) (kind : ModifierKind) :
    (mods.insert (.ofKind kind)).contains (.ofKind kind) = true := by
  have hself : (ofKind kind).contains (.ofKind kind) = true := by cases kind <;> rfl
  exact (contains_union mods (.ofKind kind) kind).trans (by rw [hself, Bool.or_true])

theorem contains_remove_self (mods : ModifierSet) (kind : ModifierKind) :
    (mods.remove (.ofKind kind)).contains (.ofKind kind) = false := by
  have hbits : ~~~ kind.bit &&& kind.bit = 0 := by cases kind <;> rfl
  simp only [contains, remove, ofKind, UInt8.and_assoc, hbits, UInt8.and_zero]
  cases kind <;> rfl

theorem contains_remove_of_ne (mods : ModifierSet) {kind kind' : ModifierKind} (h : kind ≠ kind') :
    (mods.remove (.ofKind kind)).contains (.ofKind kind') = mods.contains (.ofKind kind') := by
  have hbits : ~~~ kind.bit &&& kind'.bit = kind'.bit := by
    cases kind <;> cases kind' <;> first | rfl | exact absurd rfl h
  simp only [contains, remove, ofKind, UInt8.and_assoc, hbits]

/-- The set of the kinds with a property. -/
def ofKinds (p : ModifierKind → Bool) : ModifierSet :=
  ModifierKind.all.foldl (fun mods kind => if p kind then mods.insert (.ofKind kind) else mods)
    empty

/-- The same set from one truth value for each kind. -/
def ofFlags (shift ctrl alt altGr «meta» fn : Bool) : ModifierSet :=
  ofKinds fun
    | .shift => shift
    | .ctrl => ctrl
    | .alt => alt
    | .altGr => altGr
    | .meta => «meta»
    | .fn => fn

theorem ofKinds_eq_ofFlags (p : ModifierKind → Bool) :
    ofKinds p = ofFlags (p .shift) (p .ctrl) (p .alt) (p .altGr) (p .meta) (p .fn) := rfl

@[simp] theorem ofKinds_false : ofKinds (fun _ => false) = empty := rfl

theorem insert_ofKinds (p : ModifierKind → Bool) (kind : ModifierKind) :
    (ofKinds p).insert (.ofKind kind) = ofKinds fun k => p k || k == kind := by
  have h : ∀ a b c d e f : Bool, (ofFlags a b c d e f).insert (.ofKind kind) =
      ofFlags (a || .shift == kind) (b || .ctrl == kind) (c || .alt == kind)
        (d || .altGr == kind) (e || .meta == kind) (f || .fn == kind) := by
    cases kind <;> decide
  rw [ofKinds_eq_ofFlags, h, ofKinds_eq_ofFlags]

theorem remove_ofKinds (p : ModifierKind → Bool) (kind : ModifierKind) :
    (ofKinds p).remove (.ofKind kind) = ofKinds fun k => p k && k != kind := by
  have h : ∀ a b c d e f : Bool, (ofFlags a b c d e f).remove (.ofKind kind) =
      ofFlags (a && .shift != kind) (b && .ctrl != kind) (c && .alt != kind)
        (d && .altGr != kind) (e && .meta != kind) (f && .fn != kind) := by
    cases kind <;> decide
  rw [ofKinds_eq_ofFlags, h, ofKinds_eq_ofFlags]

theorem contains_ofKinds (p : ModifierKind → Bool) (kind : ModifierKind) :
    (ofKinds p).contains (.ofKind kind) = p kind := by
  have h : ∀ a b c d e f : Bool, (ofFlags a b c d e f).contains (.ofKind kind) =
      match kind with
      | .shift => a
      | .ctrl => b
      | .alt => c
      | .altGr => d
      | .meta => e
      | .fn => f := by
    cases kind <;> decide
  rw [ofKinds_eq_ofFlags, h]
  cases kind <;> rfl

theorem ofKinds_inj {p q : ModifierKind → Bool} :
    ofKinds p = ofKinds q ↔ ∀ kind, p kind = q kind := by
  constructor
  · intro h kind
    rw [← contains_ofKinds p, h, contains_ofKinds]
  · intro h
    rw [funext h]

end ModifierSet

namespace PhysicalKey

def modifierKind : PhysicalKey → Option ModifierKind
  | .leftShift | .rightShift => some .shift
  | .leftCtrl | .rightCtrl => some .ctrl
  | .leftAlt => some .alt
  | .rightAlt => some .altGr
  | .leftMeta | .rightMeta => some .meta
  | .menu => some .fn
  | _ => none

def isModifier (key : PhysicalKey) : Bool := key.modifierKind.isSome

end PhysicalKey

namespace ModifierKind

@[simp] theorem modifierKind_preferredKey (kind : ModifierKind) :
    kind.preferredKey.modifierKind = some kind := by
  cases kind <;> rfl

theorem preferredKey_injective {kind kind' : ModifierKind}
    (h : kind.preferredKey = kind'.preferredKey) : kind = kind' := by
  simpa using congrArg PhysicalKey.modifierKind h

end ModifierKind

end Ferrokey
