import Ferrokey.Framing.LittleEndian
import Ferrokey.Protocol.Message

/-! # Frame encoding and payload decoding

A frame is the magic, a little-endian payload length and the payload; a payload
is an opcode followed by the message's fields. `decodePayload` checks every
length and every code on the way.
-/

namespace Ferrokey.Protocol

open Framing

inductive CodecError where
  | malformed (text : String)
  | tooLarge (len : ℕ)
  | stringTooLong (len : ℕ)
  | io (text : String)
  deriving DecidableEq

def CodecError.display : CodecError → String
  | .malformed text => s!"malformed frame: {text}"
  | .tooLarge len => s!"frame payload length {len} exceeds maximum of {maxFrameLen}"
  | .stringTooLong len => s!"string of length {len} exceeds maximum of {maxStringLen}"
  | .io text => s!"I/O error: {text}"

/-- A number in lower-case hexadecimal, padded with zeros to a width. -/
def hex (width n : ℕ) : String := String.ofList ((Nat.toDigits 16 n).leftpad width '0')

/-- Bytes as the source prints them in an error. -/
def hexBytes (bytes : List UInt8) : String :=
  "[" ++ ", ".intercalate (bytes.map fun b => hex 2 b.toNat) ++ "]"

def asBytes (s : String) : List UInt8 := s.toUTF8.data.toList

def fromUtf8 (bytes : List UInt8) : Option String := String.fromUTF8? bytes.toByteArray

theorem fromUtf8_eq_some_iff {bytes : List UInt8} {s : String} :
    fromUtf8 bytes = some s ↔ asBytes s = bytes := by
  constructor
  · intro h
    unfold fromUtf8 String.fromUTF8? at h
    split at h
    · cases h
      simp [asBytes, String.fromUTF8, List.data_toByteArray]
    · cases h
  · rintro rfl
    have hb : (asBytes s).toByteArray = s.toByteArray := by
      apply ByteArray.ext
      simp [asBytes, List.data_toByteArray]
    simp [fromUtf8, String.fromUTF8?, hb, s.isValidUTF8, String.fromUTF8]

def headerLen : ℕ := 4 + 2

def pushString (out : List UInt8) (s : String) : Except CodecError (List UInt8) :=
  let bytes := asBytes s
  if maxStringLen < bytes.length then .error (.stringTooLong bytes.length)
  else .ok (out ++ leBytes 2 bytes.length ++ bytes)

def encodePayload : Message → Except CodecError (List UInt8)
  | .hello version clientName => pushString [Opcode.hello.toU8, version] clientName
  | .openSession => .ok [Opcode.openSession.toU8]
  | .keyDown code => .ok (Opcode.keyDown.toU8 :: leBytes 2 code.toNat)
  | .keyUp code => .ok (Opcode.keyUp.toU8 :: leBytes 2 code.toNat)
  | .keyRepeat code => .ok (Opcode.keyRepeat.toU8 :: leBytes 2 code.toNat)
  | .releaseAll => .ok [Opcode.releaseAll.toU8]
  | .ping nonce => .ok (Opcode.ping.toU8 :: leBytes 4 nonce.toNat)
  | .pong nonce => .ok (Opcode.pong.toU8 :: leBytes 4 nonce.toNat)
  | .ok => .ok [Opcode.ok.toU8]
  | .error code msg => pushString (Opcode.error.toU8 :: leBytes 2 code.code.toNat) msg

def encode (msg : Message) : Except CodecError (List UInt8) :=
  (encodePayload msg).map fun payload => magic ++ leBytes 2 payload.length ++ payload

/-- Read a length-prefixed string at a position; the position after it is returned. -/
def takeString (payload : List UInt8) (pos : ℕ) : Except CodecError (String × ℕ) :=
  match payload.drop pos with
  | lo :: hi :: body =>
    let len := leNat [lo, hi]
    if maxStringLen < len then .error (.stringTooLong len)
    else if payload.length < pos + 2 + len then .error (.malformed "truncated string body")
    else
      match fromUtf8 (body.take len) with
      | none => .error (.malformed "string is not valid UTF-8")
      | some s => .ok (s, pos + 2 + len)
  | _ => .error (.malformed "truncated string length")

/-- A message must end where its payload does. -/
def noTrailing (payload : List UInt8) (pos : ℕ) (after : String) (msg : Message) :
    Except CodecError Message :=
  if pos ≠ payload.length then .error (.malformed s!"trailing bytes after {after}") else .ok msg

/-- The three key messages: an opcode and a 16-bit code. -/
def decodeKey (payload : List UInt8) (msg : UInt16 → Message) : Except CodecError Message :=
  match payload with
  | [_, lo, hi] => .ok (msg (UInt16.ofNat (leNat [lo, hi])))
  | _ => .error (.malformed s!"key message with payload length {payload.length} (expected 3)")

/-- Ping and pong: an opcode and a 32-bit nonce. -/
def decodeNonce (payload : List UInt8) (msg : UInt32 → Message) : Except CodecError Message :=
  match payload with
  | [_, a, b, c, d] => .ok (msg (UInt32.ofNat (leNat [a, b, c, d])))
  | _ => .error (.malformed s!"ping/pong with payload length {payload.length} (expected 5)")

def decodePayload (payload : List UInt8) : Except CodecError Message :=
  match payload with
  | [] => .error (.malformed "empty payload")
  | op :: body =>
    match Opcode.fromU8 op with
    | none => .error (.malformed s!"unknown opcode 0x{hex 2 op.toNat}")
    | some .hello =>
      match body with
      | [] => .error (.malformed "truncated hello")
      | version :: _ => do
        let (clientName, pos) ← takeString payload 2
        noTrailing payload pos "hello" (.hello version clientName)
    | some .openSession => noTrailing payload 1 "open-session" .openSession
    | some .keyDown => decodeKey payload .keyDown
    | some .keyUp => decodeKey payload .keyUp
    | some .keyRepeat => decodeKey payload .keyRepeat
    | some .releaseAll => noTrailing payload 1 "release-all" .releaseAll
    | some .ping => decodeNonce payload .ping
    | some .pong => decodeNonce payload .pong
    | some .ok => noTrailing payload 1 "ok" .ok
    | some .error =>
      match body with
      | lo :: hi :: _ =>
        let v := UInt16.ofNat (leNat [lo, hi])
        match ErrorCode.fromU16 v with
        | none => .error (.malformed s!"unknown error code 0x{hex 4 v.toNat}")
        | some code => do
          let (msg, pos) ← takeString payload 3
          noTrailing payload pos "error" (.error code msg)
      | _ => .error (.malformed "truncated error")

end Ferrokey.Protocol
