import Mathlib.Tactic.Common

/-! # Wire messages

The messages of the Ferrokey protocol with their opcodes and error codes, and
the limits of the frames that carry them.
-/

namespace Ferrokey.Protocol

/-- The magic bytes `FK01` at the start of every frame. -/
def magic : List UInt8 := [0x46, 0x4B, 0x30, 0x31]

def protocolVersion : UInt8 := 2

def maxFrameLen : ℕ := 4096

/-- The maximum length of a client name or an error string, in bytes. -/
def maxStringLen : ℕ := 256

inductive Opcode where
  | hello | openSession | keyDown | keyUp | releaseAll | keyRepeat | ping | pong | ok | error
  deriving DecidableEq, Repr

namespace Opcode

def toU8 : Opcode → UInt8
  | .hello => 0x01
  | .openSession => 0x02
  | .keyDown => 0x10
  | .keyUp => 0x11
  | .releaseAll => 0x12
  | .keyRepeat => 0x13
  | .ping => 0x20
  | .pong => 0x21
  | .ok => 0x80
  | .error => 0x81

def fromU8 (v : UInt8) : Option Opcode :=
  match v with
  | 0x01 => some .hello
  | 0x02 => some .openSession
  | 0x10 => some .keyDown
  | 0x11 => some .keyUp
  | 0x12 => some .releaseAll
  | 0x13 => some .keyRepeat
  | 0x20 => some .ping
  | 0x21 => some .pong
  | 0x80 => some .ok
  | 0x81 => some .error
  | _ => none

@[simp] theorem fromU8_toU8 (op : Opcode) : fromU8 op.toU8 = some op := by
  cases op <;> rfl

theorem toU8_of_fromU8 {v : UInt8} {op : Opcode} (h : fromU8 v = some op) : op.toU8 = v := by
  unfold fromU8 at h
  split at h <;> cases h <;> rfl

end Opcode

inductive ErrorCode where
  | versionMismatch | unauthorized | deviceError | unknownKey | invalidKeyState | rateLimited
  | malformed | alreadyCreated | shuttingDown | handshake | internal
  deriving DecidableEq, Repr

namespace ErrorCode

def code : ErrorCode → UInt16
  | .versionMismatch => 0x0001
  | .unauthorized => 0x0002
  | .deviceError => 0x0003
  | .unknownKey => 0x0004
  | .invalidKeyState => 0x0005
  | .rateLimited => 0x0006
  | .malformed => 0x0007
  | .alreadyCreated => 0x0008
  | .shuttingDown => 0x0009
  | .handshake => 0x000A
  | .internal => 0x00FF

def fromU16 (v : UInt16) : Option ErrorCode :=
  match v with
  | 0x0001 => some .versionMismatch
  | 0x0002 => some .unauthorized
  | 0x0003 => some .deviceError
  | 0x0004 => some .unknownKey
  | 0x0005 => some .invalidKeyState
  | 0x0006 => some .rateLimited
  | 0x0007 => some .malformed
  | 0x0008 => some .alreadyCreated
  | 0x0009 => some .shuttingDown
  | 0x000A => some .handshake
  | 0x00FF => some .internal
  | _ => none

/-- The name the source prints for an error code in a log or a reply. -/
def debug : ErrorCode → String
  | .versionMismatch => "VersionMismatch"
  | .unauthorized => "Unauthorized"
  | .deviceError => "DeviceError"
  | .unknownKey => "UnknownKey"
  | .invalidKeyState => "InvalidKeyState"
  | .rateLimited => "RateLimited"
  | .malformed => "Malformed"
  | .alreadyCreated => "AlreadyCreated"
  | .shuttingDown => "ShuttingDown"
  | .handshake => "Handshake"
  | .internal => "Internal"

@[simp] theorem fromU16_code (c : ErrorCode) : fromU16 c.code = some c := by
  cases c <;> rfl

theorem code_of_fromU16 {v : UInt16} {c : ErrorCode} (h : fromU16 v = some c) : c.code = v := by
  unfold fromU16 at h
  split at h <;> cases h <;> rfl

end ErrorCode

inductive Message where
  | hello (version : UInt8) (clientName : String)
  | openSession
  | keyDown (code : UInt16)
  | keyUp (code : UInt16)
  | keyRepeat (code : UInt16)
  | releaseAll
  | ping (nonce : UInt32)
  | pong (nonce : UInt32)
  | ok
  | error (code : ErrorCode) (msg : String)
  deriving DecidableEq

/-- A message as the source prints it in a log. -/
def Message.debug : Message → String
  | .hello version clientName =>
    s!"Hello \x7b version: {version}, client_name: {clientName.quote} \x7d"
  | .openSession => "OpenSession"
  | .keyDown code => s!"KeyDown({code})"
  | .keyUp code => s!"KeyUp({code})"
  | .keyRepeat code => s!"KeyRepeat({code})"
  | .releaseAll => "ReleaseAll"
  | .ping nonce => s!"Ping({nonce})"
  | .pong nonce => s!"Pong({nonce})"
  | .ok => "Ok"
  | .error code msg => s!"Error({code.debug}, {msg.quote})"

end Ferrokey.Protocol
