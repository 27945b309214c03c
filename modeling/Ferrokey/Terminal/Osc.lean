import Mathlib.Data.UInt

/-! # Text in operating system commands

The payload of an operating system command is decoded with replacement characters for
what is not UTF-8, stripped of control characters and cut to a length in bytes.
-/

namespace Ferrokey.Terminal

/-- The numbers of bytes of a character that starts with the given one, and where the second
byte has to lie; 0 if none starts so. -/
def leadByte (b : ℕ) : ℕ × ℕ × ℕ :=
  if 0xC2 ≤ b ∧ b ≤ 0xDF then (2, 0x80, 0xBF)
  else if b = 0xE0 then (3, 0xA0, 0xBF)
  else if b = 0xED then (3, 0x80, 0x9F)
  else if 0xE1 ≤ b ∧ b ≤ 0xEF then (3, 0x80, 0xBF)
  else if b = 0xF0 then (4, 0x90, 0xBF)
  else if 0xF1 ≤ b ∧ b ≤ 0xF3 then (4, 0x80, 0xBF)
  else if b = 0xF4 then (4, 0x80, 0x8F)
  else (0, 0, 0)

/-- Collect up to so many continuation bytes, the first of them within bounds. The bits they
add, whether all were there, and the bytes after them are returned. -/
def continuation : ℕ → ℕ → ℕ → ℕ → List UInt8 → ℕ × Bool × List UInt8
  | 0, _, _, acc, bytes => (acc, true, bytes)
  | _ + 1, _, _, acc, [] => (acc, false, [])
  | n + 1, lo, hi, acc, b :: bytes =>
    if lo ≤ b.toNat ∧ b.toNat ≤ hi then
      continuation n 0x80 0xBF (acc * 64 + b.toNat % 64) bytes
    else (acc, false, b :: bytes)

/-- The first character of some bytes, the replacement character if it is none, and the bytes
after it. -/
def nextChar (b : UInt8) (bytes : List UInt8) : Char × List UInt8 :=
  if b.toNat < 0x80 then (Char.ofNat b.toNat, bytes)
  else
    match leadByte b.toNat with
    | (0, _, _) => (Char.ofNat 0xFFFD, bytes)
    | (len, lo, hi) =>
      let lead := b.toNat % (if len = 2 then 32 else if len = 3 then 16 else 8)
      match continuation (len - 1) lo hi lead bytes with
      | (code, true, rest) => (Char.ofNat code, rest)
      | (_, false, rest) => (Char.ofNat 0xFFFD, rest)

/-- Decode bytes, at most so many characters. -/
def decodeLossy : ℕ → List UInt8 → List Char
  | 0, _ => []
  | _, [] => []
  | n + 1, b :: bytes => (nextChar b bytes).1 :: decodeLossy n (nextChar b bytes).2

def fromUtf8Lossy (bytes : List UInt8) : List Char := decodeLossy bytes.length bytes

def isControl (c : Char) : Bool :=
  decide (c.toNat ≤ 0x1F) || decide (0x7F ≤ c.toNat ∧ c.toNat ≤ 0x9F)

/-- Strip control characters. -/
def sanitizeOscValue (s : List Char) : List Char := s.filter fun c => !isControl c

/-- The characters that fit in so many bytes. -/
def truncateUtf8 : List Char → ℕ → List Char
  | [], _ => []
  | c :: cs, max => if c.utf8Size ≤ max then c :: truncateUtf8 cs (max - c.utf8Size) else []

/-- Split at the first of a character. -/
def splitOnce (sep : Char) (s : List Char) : Option (List Char × List Char) :=
  if s.contains sep then some (s.takeWhile (· != sep), (s.dropWhile (· != sep)).tail) else none

example : fromUtf8Lossy [0x61, 0xE2, 0x82, 0x62, 0xE2, 0x82, 0xAC, 0xED, 0xA0] =
    ['a', Char.ofNat 0xFFFD, 'b', '€', Char.ofNat 0xFFFD, Char.ofNat 0xFFFD] := by decide

end Ferrokey.Terminal
