import Ferrokey.Terminal.Grid

/-! # Emulation modes and graphic renditions

The modes are what a program switches with escape sequences and the encoder and the
renderer ask for. The graphic rendition is what the next characters are printed with.
-/

namespace Ferrokey.Terminal

inductive CursorShape where
  | block | blinkingBlock | steadyBlock | blinkingUnderline | steadyUnderline | blinkingBar
  | steadyBar
  deriving DecidableEq, Repr

def CursorShape.blinks : CursorShape → Bool
  | .blinkingBlock | .blinkingUnderline | .blinkingBar => true
  | _ => false

inductive MouseMode where
  | none | x10 | normal | highlight | button | any
  deriving DecidableEq, Repr

structure TerminalModes where
  applicationCursorKeys : Bool
  applicationKeypad : Bool
  bracketedPaste : Bool
  insertMode : Bool
  originMode : Bool
  autoWrap : Bool
  cursorVisible : Bool
  cursorBlink : Bool
  cursorShape : CursorShape
  reverseVideo : Bool
  mouseMode : MouseMode
  focusReporting : Bool
  synchronizedOutput : Bool
  modifyOtherKeys : ℕ
  altScreen : Bool
  deriving DecidableEq, Repr

def TerminalModes.default : TerminalModes where
  applicationCursorKeys := false
  applicationKeypad := false
  bracketedPaste := false
  insertMode := false
  originMode := false
  autoWrap := true
  cursorVisible := true
  cursorBlink := true
  cursorShape := .block
  reverseVideo := false
  mouseMode := .none
  focusReporting := false
  synchronizedOutput := false
  modifyOtherKeys := 0
  altScreen := false

/-- The private modes that are understood. -/
inductive PrivateMode where
  | cursorKeys | columns132 | reverseVideo | origin | autoWrap | autoRepeat | cursorBlink
  | cursorVisible | alternateScreen | mouseNormal | mouseButton | mouseAny | focusReporting
  | sgrMouse | alternateScreenSave | saveCursor | alternateScreenSaveCursor | bracketedPaste
  | synchronizedOutput
  deriving DecidableEq, Repr

def PrivateMode.fromCode : ℕ → Option PrivateMode
  | 1 => some .cursorKeys
  | 3 => some .columns132
  | 5 => some .reverseVideo
  | 6 => some .origin
  | 7 => some .autoWrap
  | 8 => some .autoRepeat
  | 12 => some .cursorBlink
  | 25 => some .cursorVisible
  | 47 => some .alternateScreen
  | 1000 => some .mouseNormal
  | 1002 => some .mouseButton
  | 1003 => some .mouseAny
  | 1004 => some .focusReporting
  | 1006 => some .sgrMouse
  | 1047 => some .alternateScreenSave
  | 1048 => some .saveCursor
  | 1049 => some .alternateScreenSaveCursor
  | 2004 => some .bracketedPaste
  | 2026 => some .synchronizedOutput
  | _ => none

/-- The standard modes that are understood. -/
inductive AnsiMode where
  | insert | newline
  deriving DecidableEq, Repr

def AnsiMode.fromCode : ℕ → Option AnsiMode
  | 4 => some .insert
  | 20 => some .newline
  | _ => none

/-! ### Graphic renditions -/

namespace CellAttrs

def setFlag (a : CellAttrs) (flag : UInt8) (on : Bool) : CellAttrs :=
  { a with flags := a.flags.set flag on }

end CellAttrs

/-- The colour that parameters after a 38 or a 48 name, and how many they are. -/
def extendedColor : List ℕ → Option (UInt32 × ℕ)
  | 5 :: index :: _ => some (0x200 ||| UInt32.ofNat index, 2)
  | 2 :: r :: g :: b :: _ =>
    some (UInt32.ofNat r <<< 16 ||| UInt32.ofNat g <<< 8 ||| UInt32.ofNat b, 4)
  | _ => none

/-- What a code does to the rendition, and how many of the parameters after it are its own. -/
def sgrCode (code : ℕ) (rest : List ℕ) (a : CellAttrs) : CellAttrs × ℕ :=
  match code with
  | 0 => (.default, 0)
  | 1 => (a.setFlag CellFlags.bold true, 0)
  | 3 => (a.setFlag CellFlags.italic true, 0)
  | 4 => (a.setFlag CellFlags.underline (rest.head? != some 0), 0)
  | 5 | 6 => (a.setFlag CellFlags.blink true, 0)
  | 7 => (a.setFlag CellFlags.inverse true, 0)
  | 9 => (a.setFlag CellFlags.strike true, 0)
  | 21 | 22 => (a.setFlag CellFlags.bold false, 0)
  | 23 => (a.setFlag CellFlags.italic false, 0)
  | 24 => (a.setFlag CellFlags.underline false, 0)
  | 25 => (a.setFlag CellFlags.blink false, 0)
  | 27 => (a.setFlag CellFlags.inverse false, 0)
  | 29 => (a.setFlag CellFlags.strike false, 0)
  | 38 =>
    match extendedColor rest with
    | some (color, skip) => ({ a with fg := color }, skip)
    | none => (a, 0)
  | 39 => ({ a with fg := 0 }, 0)
  | 48 =>
    match extendedColor rest with
    | some (color, skip) => ({ a with bg := color }, skip)
    | none => (a, 0)
  | 49 => ({ a with bg := 0 }, 0)
  | _ =>
    if 30 ≤ code ∧ code ≤ 37 then ({ a with fg := UInt32.ofNat (code - 30) + 1 }, 0)
    else if 40 ≤ code ∧ code ≤ 47 then ({ a with bg := UInt32.ofNat (code - 40) + 1 }, 0)
    else if 90 ≤ code ∧ code ≤ 97 then ({ a with fg := UInt32.ofNat (code - 90) + 9 }, 0)
    else if 100 ≤ code ∧ code ≤ 107 then ({ a with bg := UInt32.ofNat (code - 100) + 9 }, 0)
    else (a, 0)

/-- Go through the parameters from the left, past those that a colour took. -/
def sgrFrom : ℕ → List ℕ → CellAttrs → CellAttrs
  | _, [], a => a
  | skip + 1, _ :: rest, a => sgrFrom skip rest a
  | 0, code :: rest, a => sgrFrom (sgrCode code rest a).2 rest (sgrCode code rest a).1

/-- Select graphic rendition; no parameter at all resets it. -/
def sgr (params : List ℕ) (a : CellAttrs) : CellAttrs :=
  if params.isEmpty then .default else sgrFrom 0 params a

example : sgr [1, 38, 2, 255, 128, 0, 48, 5] .default = ⟨0xFF8000, 0, ⟨0x81⟩⟩ := by decide

end Ferrokey.Terminal
