import Ferrokey.Terminal.Grid

/-! # Selections

A selection lies between two positions of the document, whose rows are those of the
history followed by those of the screen. A selection that starts on a word is
expanded to the whole of it.
-/

namespace Ferrokey.Terminal

/-- A position in the document. -/
structure CellPos where
  row : ℤ
  col : ℤ
  deriving DecidableEq, Repr

/-- Positions in reading order. -/
def CellPos.le (p q : CellPos) : Bool :=
  decide (p.row < q.row) || (decide (p.row = q.row) && decide (p.col ≤ q.col))

inductive SelectionMode where
  | character | word | line
  deriving DecidableEq, Repr

structure Selection where
  anchor : CellPos
  last : CellPos
  mode : SelectionMode
  deriving DecidableEq, Repr

namespace Selection

variable (s : Selection)

def start : CellPos := if s.anchor.le s.last then s.anchor else s.last

def finish : CellPos := if s.anchor.le s.last then s.last else s.anchor

end Selection

def isWordChar (tables : UnicodeTables) (ch : Char) : Bool :=
  tables.isAlphanumeric ch || ['_', '-', '.', '@', '/', '~', ':'].contains ch

section Words

variable (tables : UnicodeTables) (chars : List Char)

/-- Go left from a column as long as the character before it belongs to a word. -/
def wordStart : ℕ → Option ℕ
  | 0 => some 0
  | start + 1 => do
    let ch ← chars[start]?
    if isWordChar tables ch then wordStart start else some (start + 1)

/-- Go right as long as the next character belongs to a word, at most so many columns. -/
def wordEnd : ℕ → ℕ → Option ℕ
  | 0, last => some last
  | room + 1, last =>
    if last + 1 < chars.length then do
      let ch ← chars[last + 1]?
      if isWordChar tables ch then wordEnd room (last + 1) else some last
    else some last

/-- The word at a position of a line that was read, if there is one. -/
def wordAt (pos : CellPos) : Option (Option Selection) :=
  if chars.isEmpty then some none
  else do
    let col := (min (max pos.col 0) (chars.length - 1)).toNat
    let ch ← chars[col]?
    if isWordChar tables ch then do
      let start ← wordStart tables chars col
      let last ← wordEnd tables chars (chars.length - col) col
      some (some ⟨⟨pos.row, start⟩, ⟨pos.row, last⟩, .word⟩)
    else some none

end Words

/-- Expand a position to the whole word around it. Reading a line may be refused, and the
line may not exist. -/
def expandWord (tables : UnicodeTables) (pos : CellPos)
    (lineAt : ℤ → Option (Option (List Char))) : Option (Option Selection) := do
  match ← lineAt pos.row with
  | none => some none
  | some line => wordAt tables line pos

section Safety

variable {tables : UnicodeTables} {line : List Char}

theorem wordStart_returns {start : ℕ} (h : start ≤ line.length) :
    Returns (wordStart tables line start) fun _ => True := by
  induction start with
  | zero => exact .pure trivial
  | succ start ih =>
    apply Returns.bind (P := fun _ => True) (.of_eq (List.getElem?_eq_getElem h) trivial)
    rintro ch -
    apply Returns.ite
    · exact fun _ => ih (Nat.le_of_succ_le h)
    · exact fun _ => .pure trivial

theorem wordEnd_returns (room last : ℕ) :
    Returns (wordEnd tables line room last) fun _ => True := by
  induction room generalizing last with
  | zero => exact .pure trivial
  | succ room ih =>
    apply Returns.ite
    · intro hlt
      apply Returns.bind (P := fun _ => True) (.of_eq (List.getElem?_eq_getElem hlt) trivial)
      rintro ch -
      apply Returns.ite
      · exact fun _ => ih _
      · exact fun _ => .pure trivial
    · exact fun _ => .pure trivial

theorem wordAt_returns (pos : CellPos) : Returns (wordAt tables line pos) fun _ => True := by
  apply Returns.ite
  · exact fun _ => .pure trivial
  · intro hne
    have hpos : 0 < line.length := by
      rw [List.isEmpty_iff] at hne
      exact List.length_pos_iff.mpr hne
    have hlt : (min (max pos.col 0) ((line.length : ℤ) - 1)).toNat < line.length := by omega
    apply Returns.bind (P := fun _ => True) (.of_eq (List.getElem?_eq_getElem hlt) trivial)
    rintro ch -
    apply Returns.ite
    · intro _
      apply (wordStart_returns hlt.le).bind
      rintro start -
      apply (wordEnd_returns _ _).bind
      exact fun last _ => .pure trivial
    · exact fun _ => .pure trivial

theorem expandWord_returns {pos : CellPos} {lineAt : ℤ → Option (Option (List Char))}
    (h : Returns (lineAt pos.row) fun _ => True) :
    Returns (expandWord tables pos lineAt) fun _ => True := by
  apply h.bind
  rintro (_ | line) -
  · exact .pure trivial
  · exact wordAt_returns pos

end Safety

end Ferrokey.Terminal
