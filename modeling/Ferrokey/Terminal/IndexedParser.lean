import Ferrokey.Protocol.Indexed
import Ferrokey.Terminal.Parser

/-! # The parser with its arrays

The parser as it keeps its registers: fixed arrays, and how many entries of each are in
use. `none` is an index out of range, a slice that ends past its array, or a character
that is taken again from the ground state once more than the depth allows. The actions
are those of the parser that keeps its registers in lists.
-/

namespace Ferrokey.Terminal.Indexed

open Protocol (fromUtf8 slice)
open Terminal.Parser (State expectedLen withDigit)

/-- The bytes of the longest sequence of UTF-8. -/
def utf8Max : ℕ := 4

/-- Write an entry of an array; an index out of range is refused. -/
def setAt {α : Type} {n : ℕ} (v : Vector α n) (i : ℕ) (a : α) : Option (Vector α n) :=
  if h : i < n then some (v.set i a h) else none

structure Csi where
  privateMarker : UInt8
  params : Vector ℕ maxCsiParams
  paramCount : ℕ
  intermediates : Vector UInt8 2
  interCount : ℕ
  finalByte : UInt8

inductive ParserAction where
  | print (c : Char)
  | control (code : ControlCode)
  | csi (csi : Csi)
  | osc (payload : List UInt8)
  | esc (seq : EscSequence)
  | charsetSelect (c : Char)

structure Parser where
  state : State
  utf8 : Vector UInt8 utf8Max
  utf8Len : ℕ
  utf8Expected : ℕ
  privateMarker : UInt8
  params : Vector ℕ maxCsiParams
  paramCount : ℕ
  curParam : ℕ
  curParamOverflow : Bool
  intermediates : Vector UInt8 2
  interCount : ℕ
  osc : List UInt8
  oscTruncated : Bool
  oscPendingEsc : Bool

/-- The parser after a byte and the actions for it. -/
abbrev Step : Type := Parser × List ParserAction

namespace Parser

def new : Parser where
  state := .ground
  utf8 := .replicate utf8Max 0
  utf8Len := 0
  utf8Expected := 0
  privateMarker := 0
  params := .replicate maxCsiParams 0
  paramCount := 0
  curParam := 0
  curParamOverflow := false
  intermediates := .replicate 2 0
  interCount := 0
  osc := []
  oscTruncated := false
  oscPendingEsc := false

variable (p : Parser)

def goto (state : State) : Step := ({ p with state }, [])

def finish (a : ParserAction) : Step := ({ p with state := .ground }, [a])

def emitControl (byte : UInt8) : Step :=
  (p, match byte with
    | 0x07 => [.control .bell]
    | 0x08 => [.control .backspace]
    | 0x09 => [.control .tab]
    | 0x0A => [.control .lineFeed]
    | 0x0B => [.control .verticalTab]
    | 0x0C => [.control .formFeed]
    | 0x0D => [.control .carriageReturn]
    | 0x1B => [.control .escape]
    | _ => [])

def beginOsc : Step := ({ p with osc := [], oscTruncated := false, state := .oscString }, [])

def endOsc : Step :=
  ({ p with osc := [], state := .ground, oscPendingEsc := false }, [.osc p.osc])

def c1 (byte : UInt8) : Step :=
  match byte with
  | 0x84 => (p, [.control .index])
  | 0x85 => (p, [.control .nextLine])
  | 0x88 => (p, [.control .tabSet])
  | 0x8D => (p, [.control .reverseIndex])
  | 0x9B => p.goto .csiEntry
  | 0x9D => p.beginOsc
  | 0x90 => p.goto .dcsEntry
  | 0x98 | 0x9E | 0x9F => p.goto .sosPmApc
  | 0x9C => (p, [])
  | _ => (p, [.print replacement])

/-- The first character that the bytes of a finished sequence encode. -/
def decodeUtf8 (bytes : List UInt8) : List ParserAction :=
  match fromUtf8 bytes with
  | some s => s.toList.head?.toList.map .print
  | none => [.print replacement]

/-- A byte of a character of several bytes. One that does not continue the character is given to
the ground state. -/
def utf8Byte (ground : Parser → UInt8 → Option Step) (byte : UInt8) : Option Step :=
  if p.utf8Len = 0 then
    if expectedLen byte = 0 then some (p, [.print replacement])
    else do
      let utf8 ← setAt p.utf8 0 byte
      some ({ p with utf8, utf8Len := 1, utf8Expected := expectedLen byte }, [])
  else if 0x80 ≤ byte ∧ byte ≤ 0xBF then do
    let utf8 ← setAt p.utf8 p.utf8Len byte
    if p.utf8Len + 1 = p.utf8Expected then do
      let bytes ← slice utf8.toList 0 (p.utf8Len + 1)
      some ({ p with utf8, utf8Len := 0 }, decodeUtf8 bytes)
    else some ({ p with utf8, utf8Len := p.utf8Len + 1 }, [])
  else do
    let (p, actions) ← ground { p with utf8Len := 0 } byte
    some (p, .print replacement :: actions)

end Parser

/-- A byte in the ground state. `ground` and `utf8Byte` call each other; the depth bounds how many
calls of `ground` there are at once. -/
def ground : ℕ → Parser → UInt8 → Option Step
  | 0, _, _ => none
  | depth + 1, p, byte =>
    if 0 < p.utf8Len then p.utf8Byte (ground depth) byte
    else if byte ≤ 0x17 ∨ byte = 0x19 ∨ (0x1C ≤ byte ∧ byte ≤ 0x1F) then some (p.emitControl byte)
    else if byte = 0x18 ∨ byte = 0x1A ∨ byte = 0x7F then some (p, [])
    else if byte = 0x1B then some (p.goto .escape)
    else if 0x20 ≤ byte ∧ byte ≤ 0x7E then some (p, [.print (Char.ofNat byte.toNat)])
    else if 0x80 ≤ byte ∧ byte ≤ 0x9F then some (p.c1 byte)
    else p.utf8Byte (ground depth) byte

namespace Parser

variable (p : Parser)

/-- A byte that begins the intermediates of a sequence. -/
def firstIntermediate (byte : UInt8) (state : State) : Option Step := do
  let intermediates ← setAt p.intermediates 0 byte
  some ({ p with intermediates, interCount := 1, state }, [])

def escape (byte : UInt8) : Option Step :=
  if p.oscPendingEsc then
    let p := { p with oscPendingEsc := false }
    some (if byte = 0x5C then p.endOsc else p.goto .oscString)
  else
    match Char.ofNat byte.toNat with
    | '\x18' | '\x1A' | 'n' | 'o' | '|' | '}' | '~' => some (p.goto .ground)
    | '\x1B' => some (p, [])
    | '[' => some (p.goto .csiEntry)
    | ']' => some p.beginOsc
    | 'P' => some (p.goto .dcsEntry)
    | 'X' | '^' | '_' => some (p.goto .sosPmApc)
    | '\\' => some (p.goto .ground)
    | '(' | ')' | '*' | '+' | '-' | '.' | '/' => do
      -- the buffer of characters takes the byte, its length stays
      let utf8 ← setAt p.utf8 0 byte
      some ({ p with utf8, state := .charsetSelect }, [])
    | '#' => some (p.goto .lineAttributes)
    | '7' => some (p.finish (.esc .saveCursor))
    | '8' => some (p.finish (.esc .restoreCursor))
    | 'D' => some (p.finish (.esc .index))
    | 'E' => some (p.finish (.esc .nextLine))
    | 'M' => some (p.finish (.esc .reverseIndex))
    | 'H' => some (p.finish (.esc .tabSet))
    | '=' => some (p.finish (.esc .keypadApplication))
    | '>' => some (p.finish (.esc .keypadNumeric))
    | 'c' => some (p.finish (.esc .fullReset))
    | 'Z' => some (p.finish (.esc .decid))
    | _ =>
      if 0x20 ≤ byte ∧ byte ≤ 0x2F then p.firstIntermediate byte .escapeIntermediate
      else some (p.goto .ground)

/-- At most two intermediates are kept. -/
def pushIntermediate (byte : UInt8) : Option Step :=
  if p.interCount < 2 then do
    let intermediates ← setAt p.intermediates p.interCount byte
    some ({ p with intermediates, interCount := p.interCount + 1 }, [])
  else some (p, [])

variable (depth : ℕ)

def escapeIntermediate (byte : UInt8) : Option Step :=
  if byte = 0x18 ∨ byte = 0x1A then some (p.goto .ground)
  else if 0x20 ≤ byte ∧ byte ≤ 0x2F then p.pushIntermediate byte
  else if 0x30 ≤ byte ∧ byte ≤ 0x7E then some (p.goto .ground)
  else ground depth { p with state := .ground } byte

def charsetSelect (byte : UInt8) : Option Step :=
  if 0x30 ≤ byte ∧ byte ≤ 0x7E then some (p.finish (.charsetSelect (Char.ofNat byte.toNat)))
  else ground depth { p with state := .ground } byte

def lineAttributes (byte : UInt8) : Option Step :=
  if 0x30 ≤ byte ∧ byte ≤ 0x7E then some (p.finish (.esc (.lineAttributes byte)))
  else ground depth { p with state := .ground } byte

/-- Extra parameters are dropped. -/
def pushParam : Option Parser := do
  let p ←
    if p.paramCount < maxCsiParams then do
      let params ← setAt p.params p.paramCount p.curParam
      some { p with params, paramCount := p.paramCount + 1 }
    else some p
  some { p with curParam := 0, curParamOverflow := false }

def resetSequence : Parser :=
  { p with
    state := .ground
    privateMarker := 0
    paramCount := 0
    curParam := 0
    curParamOverflow := false
    interCount := 0 }

def emitCsi (finalByte : UInt8) : Step :=
  (p.resetSequence,
    [.csi ⟨p.privateMarker, p.params, p.paramCount, p.intermediates, p.interCount, finalByte⟩])

/-- The digit is taken until the parameter has overflowed. -/
def pushDigit (digit : ℕ) : Parser :=
  if p.curParamOverflow then p
  else
    { p with
      curParamOverflow :=
        decide (withDigit p.curParam digit = maxCsiValue ∧ maxCsiValue / 10 < p.curParam)
      curParam := withDigit p.curParam digit }

def csiParam (byte : UInt8) : Option Step :=
  if byte = 0x18 ∨ byte = 0x1A then some (p.goto .ground)
  else if 0x30 ≤ byte ∧ byte ≤ 0x39 then some (p.pushDigit (byte.toNat - 0x30), [])
  else if byte = 0x3A ∨ byte = 0x3B then do
    let p ← p.pushParam
    some (p, [])
  else if 0x20 ≤ byte ∧ byte ≤ 0x2F then do
    let p ← p.pushParam
    p.firstIntermediate byte .csiIntermediate
  else if 0x40 ≤ byte ∧ byte ≤ 0x7E then do
    let p ← p.pushParam
    some (p.emitCsi byte)
  else ground depth p.resetSequence byte

def csiEntry (byte : UInt8) : Option Step :=
  if 0x3C ≤ byte ∧ byte ≤ 0x3F then some ({ p with privateMarker := byte }, [])
  else if 0x30 ≤ byte ∧ byte ≤ 0x3B then csiParam { p with state := .csiParam } depth byte
  else if 0x20 ≤ byte ∧ byte ≤ 0x2F then p.firstIntermediate byte .csiIntermediate
  else if 0x40 ≤ byte ∧ byte ≤ 0x7E then some (p.emitCsi byte)
  else some (p.goto .ground)

def csiIntermediate (byte : UInt8) : Option Step :=
  if 0x20 ≤ byte ∧ byte ≤ 0x2F then p.pushIntermediate byte
  else if 0x30 ≤ byte ∧ byte ≤ 0x3F then
    csiParam { p with privateMarker := 0, paramCount := 0, curParam := 0, state := .csiParam }
      depth byte
  else if 0x40 ≤ byte ∧ byte ≤ 0x7E then some (p.emitCsi byte)
  else some (p.goto .ground)

/-- Past the bound the string is cut off. -/
def pushOsc (byte : UInt8) : Parser :=
  if p.oscTruncated then p
  else if p.osc.length < maxOscLen then { p with osc := p.osc ++ [byte] }
  else { p with oscTruncated := true }

def oscString (byte : UInt8) : Step :=
  match byte with
  | 0x07 => p.endOsc
  | 0x1B => ({ p with oscPendingEsc := true, state := .escape }, [])
  | 0x18 | 0x1A => ({ p with state := .ground, osc := [] }, [])
  | _ => (p.pushOsc byte, [])

def dcsEntry (byte : UInt8) : Step :=
  if byte = 0x18 ∨ byte = 0x1A then p.goto .ground
  else if 0x20 ≤ byte ∧ byte ≤ 0x3F then (p, [])
  else if 0x40 ≤ byte ∧ byte ≤ 0x7E then p.goto .dcsPassthrough
  else if byte = 0x1B then p.goto .escape
  else p.goto .dcsPassthrough

def dcsPassthrough (byte : UInt8) : Step :=
  match byte with
  | 0x18 | 0x1A => p.goto .ground
  | 0x1B => p.goto .escape
  | 0x9C => p.goto .ground
  | _ => (p, [])

def sosPmApc (byte : UInt8) : Step :=
  match byte with
  | 0x18 | 0x1A | 0x9C => p.goto .ground
  | 0x1B => p.goto .escape
  | _ => (p, [])

/-- Process one byte. -/
def advance (byte : UInt8) : Option Step :=
  match p.state with
  | .ground => ground depth p byte
  | .escape => p.escape byte
  | .escapeIntermediate => p.escapeIntermediate depth byte
  | .charsetSelect => p.charsetSelect depth byte
  | .lineAttributes => p.lineAttributes depth byte
  | .csiEntry => p.csiEntry depth byte
  | .csiParam => p.csiParam depth byte
  | .csiIntermediate => p.csiIntermediate depth byte
  | .oscString => some (p.oscString byte)
  | .dcsEntry => some (p.dcsEntry byte)
  | .dcsPassthrough => some (p.dcsPassthrough byte)
  | .sosPmApc => some (p.sosPmApc byte)

/-- Feed a batch of bytes. -/
def feed : Parser → List UInt8 → Option Step
  | p, [] => some (p, [])
  | p, byte :: bytes => do
    let (p, actions) ← p.advance depth byte
    let (p, rest) ← feed p bytes
    some (p, actions ++ rest)

end Parser

end Ferrokey.Terminal.Indexed
