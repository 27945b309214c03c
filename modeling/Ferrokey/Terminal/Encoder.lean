import Ferrokey.Core.Layout
import Ferrokey.Terminal.Modes
import Ferrokey.Terminal.Osc
import Ferrokey.Terminal.Sink

/-! # The terminal key encoder

From a key, the modifiers and the terminal's modes to the bytes a terminal would send. Which
character a printable key gives is left to the layout; control characters are those of the US
position of the key.
-/

namespace Ferrokey.Terminal

/-- The unshifted character of the key on a US keyboard. -/
def baseAscii : PhysicalKey → Option Char
  | .grave => some '`'
  | .d1 | .kp1 => some '1'
  | .d2 | .kp2 => some '2'
  | .d3 | .kp3 => some '3'
  | .d4 | .kp4 => some '4'
  | .d5 | .kp5 => some '5'
  | .d6 | .kp6 => some '6'
  | .d7 | .kp7 => some '7'
  | .d8 | .kp8 => some '8'
  | .d9 | .kp9 => some '9'
  | .d0 | .kp0 => some '0'
  | .minus | .kpSubtract => some '-'
  | .equal | .kpEqual => some '='
  | .q => some 'q'
  | .w => some 'w'
  | .e => some 'e'
  | .r => some 'r'
  | .t => some 't'
  | .y => some 'y'
  | .u => some 'u'
  | .i => some 'i'
  | .o => some 'o'
  | .p => some 'p'
  | .leftBracket => some '['
  | .rightBracket => some ']'
  | .a => some 'a'
  | .s => some 's'
  | .d => some 'd'
  | .f => some 'f'
  | .g => some 'g'
  | .h => some 'h'
  | .j => some 'j'
  | .k => some 'k'
  | .l => some 'l'
  | .semicolon => some ';'
  | .apostrophe => some '\''
  | .z => some 'z'
  | .x => some 'x'
  | .c => some 'c'
  | .v => some 'v'
  | .b => some 'b'
  | .n => some 'n'
  | .m => some 'm'
  | .comma | .kpComma => some ','
  | .dot | .kpDecimal => some '.'
  | .slash | .kpDivide => some '/'
  | .backslash | .intlBackslash => some '\\'
  | .space => some ' '
  | .kpAdd => some '+'
  | .kpMultiply => some '*'
  | _ => none

/-- The parameter that stands for the modifiers in a sequence: one more than the sum of 1 for
Shift, 2 for Alt or Meta and 4 for Ctrl. -/
def modifierParam (mods : ModifierSet) : Option UInt8 :=
  let m : UInt8 := (if mods.contains .shift then 1 else 0) |||
    (if mods.contains (.ofKind .alt) || mods.contains (.ofKind .meta) then 2 else 0) |||
    (if mods.contains (.ofKind .ctrl) then 4 else 0)
  if m = 0 then none else some (m + 1)

def ctrlByte (ch : Char) : Option UInt8 :=
  if ch.toUpper.isUpper then some (ch.toUpper.toNat.toUInt8 &&& 0x1F) else none

def ctrlPunctuation : Char → Option UInt8
  | '@' | '2' | ' ' => some 0x00
  | '3' | '[' => some 0x1B
  | '4' | '\\' => some 0x1C
  | '5' | ']' => some 0x1D
  | '6' => some 0x1E
  | '7' => some 0x1F
  | '8' => some 0x7F
  | _ => none

def isKeypad : PhysicalKey → Bool
  | .kp0 | .kp1 | .kp2 | .kp3 | .kp4 | .kp5 | .kp6 | .kp7 | .kp8 | .kp9 | .kpDecimal | .kpEnter
  | .kpAdd | .kpSubtract | .kpMultiply | .kpDivide | .kpEqual | .kpComma | .kpLeftParen
  | .kpRightParen => true
  | _ => false

/-- The control byte of a key that is pressed with Ctrl, if one is defined. -/
def ctrlSequence (key : PhysicalKey) : Option UInt8 :=
  match baseAscii key with
  | some ch => (ctrlByte ch).or (ctrlPunctuation ch)
  | none =>
    match key with
    | .backspace => some 0x7F
    | .tab => some 0x09
    | .enter | .kpEnter => some 0x0D
    | .escape => some 0x1B
    | .space => some 0x00
    | _ => none

/-- The character that a printable key stands for. Dead keys and the compose key fall back to
the base character. -/
def symbolChar (layout : Layouts.Layout) (key : PhysicalKey) (mods : ModifierSet) : Option Char :=
  (baseAscii key).bind fun base =>
    let layoutMods := mods.intersection (.union (.union .shift .altgr) .fn)
    match layout.symbolFor key layoutMods with
    | some (.char c) => if isControl c then none else some c
    | some (.dead _) | some .compose | some .none | none =>
      if isControl base then none else some base
    | some (.name _) => none

def symbolBytes (layout : Layouts.Layout) (key : PhysicalKey) (mods : ModifierSet) :
    Option (List UInt8) :=
  (symbolChar layout key mods).map String.utf8EncodeChar

/-! ### The sequences of the other keys -/

/-- An escape sequence. -/
def escape (s : String) : List UInt8 := 0x1B :: s.toUTF8.data.toList

/-- The sequences that are told apart by a number. -/
def tilda (mods : ModifierSet) (code : ℕ) : List UInt8 :=
  match modifierParam mods with
  | none => escape s!"[{code}~"
  | some p => escape s!"[{code};{p}~"

/-- The cursor keys. -/
def cursorKey (mods : ModifierSet) (modes : TerminalModes) (final : Char) : List UInt8 :=
  match modifierParam mods with
  | some p => escape s!"[1;{p}{final}"
  | none => if modes.applicationCursorKeys then escape s!"O{final}" else escape s!"[{final}"

/-- The first four function keys. -/
def functionKey (mods : ModifierSet) (final : Char) : List UInt8 :=
  match modifierParam mods with
  | some p => escape s!"[1;{p}{final}"
  | none => escape s!"O{final}"

/-- A keypad key, which the application mode turns into a sequence. -/
def keypadKey (key : PhysicalKey) (modes : TerminalModes) (final : Char) : Option (List UInt8) :=
  (baseAscii key).map fun ch =>
    if modes.applicationKeypad then escape s!"O{final}" else String.utf8EncodeChar ch

/-- The keys that are not printable but mean something to a terminal. -/
def specialBytes (key : PhysicalKey) (mods : ModifierSet) (modes : TerminalModes) :
    Option (List UInt8) :=
  match key with
  | .enter => some [0x0D]
  | .kpEnter => if modes.applicationKeypad then some (escape "OM") else some [0x0D]
  | .tab => if mods.contains .shift then some (escape "[Z") else some [0x09]
  | .backspace => some [0x7F]
  | .escape => some [0x1B]
  | .up => some (cursorKey mods modes 'A')
  | .down => some (cursorKey mods modes 'B')
  | .right => some (cursorKey mods modes 'C')
  | .left => some (cursorKey mods modes 'D')
  | .home => some (cursorKey mods modes 'H')
  | .end => some (cursorKey mods modes 'F')
  | .insert => some (tilda mods 2)
  | .delete => some (tilda mods 3)
  | .pageUp => some (tilda mods 5)
  | .pageDown => some (tilda mods 6)
  | .f1 => some (functionKey mods 'P')
  | .f2 => some (functionKey mods 'Q')
  | .f3 => some (functionKey mods 'R')
  | .f4 => some (functionKey mods 'S')
  | .f5 => some (tilda mods 15)
  | .f6 => some (tilda mods 17)
  | .f7 => some (tilda mods 18)
  | .f8 => some (tilda mods 19)
  | .f9 => some (tilda mods 20)
  | .f10 => some (tilda mods 21)
  | .f11 => some (tilda mods 23)
  | .f12 => some (tilda mods 24)
  | .f13 => some (tilda mods 25)
  | .f14 => some (tilda mods 26)
  | .f15 => some (tilda mods 28)
  | .f16 => some (tilda mods 29)
  | .f17 => some (tilda mods 31)
  | .f18 => some (tilda mods 32)
  | .f19 => some (tilda mods 33)
  | .f20 => some (tilda mods 34)
  | .kp0 => keypadKey key modes 'p'
  | .kp1 => keypadKey key modes 'q'
  | .kp2 => keypadKey key modes 'r'
  | .kp3 => keypadKey key modes 's'
  | .kp4 => keypadKey key modes 't'
  | .kp5 => keypadKey key modes 'u'
  | .kp6 => keypadKey key modes 'v'
  | .kp7 => keypadKey key modes 'w'
  | .kp8 => keypadKey key modes 'x'
  | .kp9 => keypadKey key modes 'y'
  | .kpDecimal => keypadKey key modes 'n'
  | .kpAdd => keypadKey key modes 'k'
  | .kpSubtract => keypadKey key modes 'm'
  | .kpMultiply => keypadKey key modes 'j'
  | .kpDivide => keypadKey key modes 'o'
  | .kpEqual => keypadKey key modes 'X'
  | .kpComma => keypadKey key modes 'l'
  | .kpLeftParen => if modes.applicationKeypad then some (escape "O(") else some [0x28]
  | .kpRightParen => if modes.applicationKeypad then some (escape "O)") else some [0x29]
  | _ => none

/-- The symbol's bytes, or those of a special key. The keypad has no symbols. -/
def symbolOrSpecial (layout : Layouts.Layout) (key : PhysicalKey) (mods : ModifierSet)
    (modes : TerminalModes) : Option (List UInt8) :=
  if isKeypad key then specialBytes key mods modes
  else (symbolBytes layout key mods).or (specialBytes key mods modes)

/-- The bytes of a key press. Modifiers and lock keys have none. -/
def encode (layout : Layouts.Layout) (key : PhysicalKey) (mods : ModifierSet)
    (modes : TerminalModes) : Option (List UInt8) :=
  if key.isModifier || key.isLockKey then none
  else
    let ctrl := mods.contains (.ofKind .ctrl)
    let alt := mods.contains (.ofKind .alt) || mods.contains (.ofKind .meta)
    let ctrlOrSpecial := ((ctrlSequence key).map ([·])).or (specialBytes key mods modes)
    -- with Ctrl the layout is never asked
    if ctrl && !alt then ctrlOrSpecial
    else if alt then
      let inner :=
        (if ctrl then ctrlOrSpecial else symbolOrSpecial layout key mods modes).getD []
      if inner.isEmpty then none else some (0x1B :: inner)
    else symbolOrSpecial layout key mods modes

def encoder (layout : Layouts.Layout) : TerminalKeyEncoder TerminalModes := ⟨encode layout⟩

/-- The modifiers of the members of a press-group. -/
def groupMods (group : List PhysicalKey) : ModifierSet :=
  group.foldl (fun heldMods key =>
    match key.modifierKind with
    | some kind => heldMods.union (.ofKind kind)
    | none => heldMods) .empty

/-- The bytes of a sequence of press-groups, each of them on its own and with the modifiers of
all its members. -/
def encodeSequence (encoder : TerminalKeyEncoder TerminalModes)
    (sequence : List (List PhysicalKey)) : List UInt8 :=
  sequence.flatMap fun group =>
    group.flatMap fun key => (encoder.encode key (groupMods group) .default).getD []

end Ferrokey.Terminal
