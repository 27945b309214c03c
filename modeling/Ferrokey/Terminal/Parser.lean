import Ferrokey.Machine.Runs
import Ferrokey.Protocol.Codec

/-! # The escape sequence parser

A byte at a time, the parser turns the output of a program into actions. Between
bytes it keeps a state, the bytes of an unfinished character, and the registers of
an unfinished sequence, all of them bounded. `ground` and the UTF-8 decoder call
each other at most once for a byte, so the two halves of the decoder stand apart.
-/

namespace Ferrokey.Terminal

open Machine Protocol

/-- C0 and C1 control functions the terminal understands. -/
inductive ControlCode where
  | bell | backspace | tab | lineFeed | verticalTab | formFeed | carriageReturn | escape
  | index | nextLine | tabSet | reverseIndex
  deriving DecidableEq, Repr

/-- A complete CSI sequence, with the parameters and the intermediates it was given. -/
structure Csi where
  privateMarker : UInt8
  params : List ℕ
  intermediates : List UInt8
  finalByte : UInt8
  deriving DecidableEq, Repr

/-- Standalone escape sequences. -/
inductive EscSequence where
  | saveCursor | restoreCursor | index | nextLine | reverseIndex | tabSet
  | keypadApplication | keypadNumeric | fullReset | decid
  | lineAttributes (n : UInt8)
  deriving DecidableEq, Repr

inductive ParserAction where
  | print (c : Char)
  | control (code : ControlCode)
  | csi (csi : Csi)
  | osc (payload : List UInt8)
  | esc (seq : EscSequence)
  | charsetSelect (c : Char)
  deriving DecidableEq, Repr

namespace Csi

/-- A parameter; one that is absent or zero takes the default. -/
def param (csi : Csi) (index default : ℕ) : ℕ :=
  match csi.params[index]? with
  | some v => if v = 0 then default else v
  | none => default

def rawParam (csi : Csi) (index : ℕ) : Option ℕ := csi.params[index]?

def isAllZero (csi : Csi) : Bool := csi.params.all (· == 0)

end Csi

def maxOscLen : ℕ := 4096

def maxCsiParams : ℕ := 16

def maxCsiValue : ℕ := 65535

/-- The character that is printed for bytes that are none. -/
def replacement : Char := Char.ofNat 0xFFFD

namespace Parser

inductive State where
  | ground | escape | escapeIntermediate | charsetSelect | lineAttributes
  | csiEntry | csiParam | csiIntermediate | oscString | dcsEntry | dcsPassthrough | sosPmApc
  deriving DecidableEq, Repr

end Parser

structure Parser where
  state : Parser.State
  /-- The bytes of an unfinished character. -/
  utf8 : List UInt8
  utf8Expected : ℕ
  privateMarker : UInt8
  params : List ℕ
  curParam : ℕ
  curParamOverflow : Bool
  intermediates : List UInt8
  osc : List UInt8
  oscTruncated : Bool
  /-- An ESC arrived inside an OSC string: only `ESC \` terminates; any other byte resumes
  the string. -/
  oscPendingEsc : Bool
  deriving DecidableEq

namespace Parser

def new : Parser := ⟨.ground, [], 0, 0, [], 0, false, [], [], false, false⟩

def goto (p : Parser) (state : State) : Parser × List ParserAction := ({ p with state }, [])

/-- Leave a sequence with an action. -/
def finish (p : Parser) (a : ParserAction) : Parser × List ParserAction :=
  ({ p with state := .ground }, [a])

def emitControl (p : Parser) (byte : UInt8) : Parser × List ParserAction :=
  (p, match byte with
    | 0x07 => [.control .bell]
    | 0x08 => [.control .backspace]
    | 0x09 => [.control .tab]
    | 0x0A => [.control .lineFeed]
    | 0x0B => [.control .verticalTab]
    | 0x0C => [.control .formFeed]
    | 0x0D => [.control .carriageReturn]
    | 0x1B => [.control .escape]
    | _ => [])

def beginOsc (p : Parser) : Parser × List ParserAction :=
  ({ p with osc := [], oscTruncated := false, state := .oscString }, [])

def endOsc (p : Parser) : Parser × List ParserAction :=
  ({ p with osc := [], state := .ground, oscPendingEsc := false }, [.osc p.osc])

/-- How many bytes a character has that starts with the given one; 0 if none starts so. -/
def expectedLen (byte : UInt8) : ℕ :=
  if 0xC2 ≤ byte ∧ byte ≤ 0xDF then 2
  else if 0xE0 ≤ byte ∧ byte ≤ 0xEF then 3
  else if 0xF0 ≤ byte ∧ byte ≤ 0xF4 then 4
  else 0

/-- The first byte of a character of several bytes. -/
def utf8Lead (p : Parser) (byte : UInt8) : Parser × List ParserAction :=
  if expectedLen byte = 0 then (p, [.print replacement])
  else ({ p with utf8 := [byte], utf8Expected := expectedLen byte }, [])

def c1 (p : Parser) (byte : UInt8) : Parser × List ParserAction :=
  match byte with
  | 0x84 => (p, [.control .index])
  | 0x85 => (p, [.control .nextLine])
  | 0x88 => (p, [.control .tabSet])
  | 0x8D => (p, [.control .reverseIndex])
  | 0x9B => p.goto .csiEntry
  | 0x9D => p.beginOsc
  | 0x90 => p.goto .dcsEntry
  | 0x98 | 0x9E | 0x9F => p.goto .sosPmApc
  | 0x9C => (p, [])
  | _ => (p, [.print replacement])

/-- A byte in the ground state, outside a character of several bytes. -/
def groundByte (p : Parser) (byte : UInt8) : Parser × List ParserAction :=
  if byte ≤ 0x17 ∨ byte = 0x19 ∨ (0x1C ≤ byte ∧ byte ≤ 0x1F) then p.emitControl byte
  else if byte = 0x18 ∨ byte = 0x1A ∨ byte = 0x7F then (p, [])
  else if byte = 0x1B then p.goto .escape
  else if 0x20 ≤ byte ∧ byte ≤ 0x7E then (p, [.print (Char.ofNat byte.toNat)])
  else if 0x80 ≤ byte ∧ byte ≤ 0x9F then p.c1 byte
  else p.utf8Lead byte

/-- The first character that the bytes of a finished sequence encode. -/
def decodeUtf8 (bytes : List UInt8) : List ParserAction :=
  match fromUtf8 bytes with
  | some s => s.toList.head?.toList.map .print
  | none => [.print replacement]

/-- A byte in the middle of a character: one that does not continue it is taken again from
the ground state. -/
def utf8Continue (p : Parser) (byte : UInt8) : Parser × List ParserAction :=
  if 0x80 ≤ byte ∧ byte ≤ 0xBF then
    let bytes := p.utf8 ++ [byte]
    if bytes.length = p.utf8Expected then ({ p with utf8 := [] }, decodeUtf8 bytes)
    else ({ p with utf8 := bytes }, [])
  else
    let r := groundByte { p with utf8 := [] } byte
    (r.1, .print replacement :: r.2)

def ground (p : Parser) (byte : UInt8) : Parser × List ParserAction :=
  if p.utf8.isEmpty then p.groundByte byte else p.utf8Continue byte

/-- A byte in the ground state, where the parser goes first. -/
def backToGround (p : Parser) (byte : UInt8) : Parser × List ParserAction :=
  ground { p with state := .ground } byte

def escape (p : Parser) (byte : UInt8) : Parser × List ParserAction :=
  if p.oscPendingEsc then
    let p := { p with oscPendingEsc := false }
    if byte = 0x5C then p.endOsc else p.goto .oscString
  else
    match Char.ofNat byte.toNat with
    | '\x18' | '\x1A' | 'n' | 'o' | '|' | '}' | '~' => p.goto .ground
    | '\x1B' => (p, [])
    | '[' => p.goto .csiEntry
    | ']' => p.beginOsc
    | 'P' => p.goto .dcsEntry
    | 'X' | '^' | '_' => p.goto .sosPmApc
    | '\\' => p.goto .ground
    | '(' | ')' | '*' | '+' | '-' | '.' | '/' => p.goto .charsetSelect
    | '#' => p.goto .lineAttributes
    | '7' => p.finish (.esc .saveCursor)
    | '8' => p.finish (.esc .restoreCursor)
    | 'D' => p.finish (.esc .index)
    | 'E' => p.finish (.esc .nextLine)
    | 'M' => p.finish (.esc .reverseIndex)
    | 'H' => p.finish (.esc .tabSet)
    | '=' => p.finish (.esc .keypadApplication)
    | '>' => p.finish (.esc .keypadNumeric)
    | 'c' => p.finish (.esc .fullReset)
    | 'Z' => p.finish (.esc .decid)
    | _ =>
      if 0x20 ≤ byte ∧ byte ≤ 0x2F then
        ({ p with intermediates := [byte], state := .escapeIntermediate }, [])
      else p.goto .ground

/-- At most two intermediates are kept. -/
def pushIntermediate (p : Parser) (byte : UInt8) : Parser :=
  if p.intermediates.length < 2 then { p with intermediates := p.intermediates ++ [byte] } else p

def escapeIntermediate (p : Parser) (byte : UInt8) : Parser × List ParserAction :=
  if byte = 0x18 ∨ byte = 0x1A then p.goto .ground
  else if 0x20 ≤ byte ∧ byte ≤ 0x2F then (p.pushIntermediate byte, [])
  else if 0x30 ≤ byte ∧ byte ≤ 0x7E then p.goto .ground
  else p.backToGround byte

def charsetSelect (p : Parser) (byte : UInt8) : Parser × List ParserAction :=
  if 0x30 ≤ byte ∧ byte ≤ 0x7E then p.finish (.charsetSelect (Char.ofNat byte.toNat))
  else p.backToGround byte

def lineAttributes (p : Parser) (byte : UInt8) : Parser × List ParserAction :=
  if 0x30 ≤ byte ∧ byte ≤ 0x7E then p.finish (.esc (.lineAttributes byte))
  else p.backToGround byte

/-- Extra parameters are dropped. -/
def pushParam (p : Parser) : Parser :=
  { p with
    params := if p.params.length < maxCsiParams then p.params ++ [p.curParam] else p.params
    curParam := 0
    curParamOverflow := false }

def resetSequence (p : Parser) : Parser :=
  { p with
    state := .ground
    privateMarker := 0
    params := []
    curParam := 0
    curParamOverflow := false
    intermediates := [] }

def emitCsi (p : Parser) (finalByte : UInt8) : Parser × List ParserAction :=
  (p.resetSequence, [.csi ⟨p.privateMarker, p.params, p.intermediates, finalByte⟩])

/-- A parameter with one more digit; the arithmetic saturates. -/
def withDigit (param digit : ℕ) : ℕ := min (min (param * 10) maxCsiValue + digit) maxCsiValue

/-- The digit is taken until the parameter has overflowed. -/
def pushDigit (p : Parser) (digit : ℕ) : Parser :=
  if p.curParamOverflow then p
  else
    { p with
      curParamOverflow :=
        decide (withDigit p.curParam digit = maxCsiValue ∧ maxCsiValue / 10 < p.curParam)
      curParam := withDigit p.curParam digit }

def csiParam (p : Parser) (byte : UInt8) : Parser × List ParserAction :=
  if byte = 0x18 ∨ byte = 0x1A then p.goto .ground
  else if 0x30 ≤ byte ∧ byte ≤ 0x39 then (p.pushDigit (byte.toNat - 0x30), [])
  else if byte = 0x3A ∨ byte = 0x3B then (p.pushParam, [])
  else if 0x20 ≤ byte ∧ byte ≤ 0x2F then
    ({ p.pushParam with intermediates := [byte], state := .csiIntermediate }, [])
  else if 0x40 ≤ byte ∧ byte ≤ 0x7E then p.pushParam.emitCsi byte
  else p.resetSequence.ground byte

def csiEntry (p : Parser) (byte : UInt8) : Parser × List ParserAction :=
  if 0x3C ≤ byte ∧ byte ≤ 0x3F then ({ p with privateMarker := byte }, [])
  else if 0x30 ≤ byte ∧ byte ≤ 0x3B then csiParam { p with state := .csiParam } byte
  else if 0x20 ≤ byte ∧ byte ≤ 0x2F then
    ({ p with intermediates := [byte], state := .csiIntermediate }, [])
  else if 0x40 ≤ byte ∧ byte ≤ 0x7E then p.emitCsi byte
  else p.goto .ground

def csiIntermediate (p : Parser) (byte : UInt8) : Parser × List ParserAction :=
  if 0x20 ≤ byte ∧ byte ≤ 0x2F then (p.pushIntermediate byte, [])
  else if 0x30 ≤ byte ∧ byte ≤ 0x3F then
    csiParam { p with privateMarker := 0, params := [], curParam := 0, state := .csiParam } byte
  else if 0x40 ≤ byte ∧ byte ≤ 0x7E then p.emitCsi byte
  else p.goto .ground

/-- Past the bound the string is cut off. -/
def pushOsc (p : Parser) (byte : UInt8) : Parser :=
  if p.oscTruncated then p
  else if p.osc.length < maxOscLen then { p with osc := p.osc ++ [byte] }
  else { p with oscTruncated := true }

def oscString (p : Parser) (byte : UInt8) : Parser × List ParserAction :=
  match byte with
  | 0x07 => p.endOsc
  | 0x1B => ({ p with oscPendingEsc := true, state := .escape }, [])
  | 0x18 | 0x1A => ({ p with state := .ground, osc := [] }, [])
  | _ => (p.pushOsc byte, [])

def dcsEntry (p : Parser) (byte : UInt8) : Parser × List ParserAction :=
  if byte = 0x18 ∨ byte = 0x1A then p.goto .ground
  else if 0x20 ≤ byte ∧ byte ≤ 0x3F then (p, [])
  else if 0x40 ≤ byte ∧ byte ≤ 0x7E then p.goto .dcsPassthrough
  else if byte = 0x1B then p.goto .escape
  else p.goto .dcsPassthrough

def dcsPassthrough (p : Parser) (byte : UInt8) : Parser × List ParserAction :=
  match byte with
  | 0x18 | 0x1A => p.goto .ground
  | 0x1B => p.goto .escape
  | 0x9C => p.goto .ground
  | _ => (p, [])

def sosPmApc (p : Parser) (byte : UInt8) : Parser × List ParserAction :=
  match byte with
  | 0x18 | 0x1A | 0x9C => p.goto .ground
  | 0x1B => p.goto .escape
  | _ => (p, [])

/-- Process one byte. -/
def advance (p : Parser) (byte : UInt8) : Parser × List ParserAction :=
  match p.state with
  | .ground => p.ground byte
  | .escape => p.escape byte
  | .escapeIntermediate => p.escapeIntermediate byte
  | .charsetSelect => p.charsetSelect byte
  | .lineAttributes => p.lineAttributes byte
  | .csiEntry => p.csiEntry byte
  | .csiParam => p.csiParam byte
  | .csiIntermediate => p.csiIntermediate byte
  | .oscString => p.oscString byte
  | .dcsEntry => p.dcsEntry byte
  | .dcsPassthrough => p.dcsPassthrough byte
  | .sosPmApc => p.sosPmApc byte

/-- Feed a batch of bytes. -/
def feed (p : Parser) (bytes : List UInt8) : Parser × List ParserAction :=
  (run advance p bytes, (outputs advance p bytes).flatten)

end Parser

end Ferrokey.Terminal
