import Ferrokey.Terminal.Encoder
import Ferrokey.Terminal.Mirror

/-! # Caps Lock on letters

Caps Lock is meant to invert Shift on letters only. The sink takes the letters from the US
position of the key, while the character comes from the layout, which may have a letter
elsewhere.
-/

namespace Ferrokey.Terminal

open Machine

/-- Whether the layout's primary symbol of a key is a letter. -/
def primaryIsLetter (alphabetic : Char → Bool) (layout : Layouts.Layout) (key : PhysicalKey) :
    Bool :=
  match (layout.get key).map fun definition => definition.primary with
  | some (Layouts.KeySymbol.char c) => alphabetic c
  | _ => false

def invertShift (mods : ModifierSet) : ModifierSet :=
  if mods.contains (.ofKind .shift) then mods.remove (.ofKind .shift)
  else mods.insert (.ofKind .shift)

/-- The letter keys of the sink are those whose base character is an ASCII letter. -/
theorem isLetterKey_eq (key : PhysicalKey) :
    isLetterKey key = (baseAscii key).any Char.isAlpha := by
  cases key <;> rfl

section

variable {layout : Layouts.Layout} {key : PhysicalKey} {mods mods' : ModifierSet}
  {modes : TerminalModes}

theorem contains_invertShift {kind : ModifierKind} (h : kind ≠ .shift) :
    (invertShift mods).contains (.ofKind kind) = mods.contains (.ofKind kind) := by
  unfold invertShift
  split
  · exact ModifierSet.contains_remove_of_ne mods h.symm
  · exact ModifierSet.contains_insert_of_ne mods h.symm

/-- A printable key off the keypad, without Ctrl, Alt and Meta, gives the symbol of the layout
and nothing else. -/
theorem encode_printable (hbase : (baseAscii key).isSome = true) (hkeypad : isKeypad key = false)
    (hctrl : mods.contains (.ofKind .ctrl) = false) (halt : mods.contains (.ofKind .alt) = false)
    (hmeta : mods.contains (.ofKind .meta) = false) :
    encode layout key mods modes = symbolBytes layout key mods := by
  have hkey : (key.isModifier || key.isLockKey) = false ∧ specialBytes key mods modes = none := by
    revert hbase hkeypad
    cases key <;> first | exact fun _ _ => ⟨rfl, rfl⟩ | exact fun h _ => absurd h (by decide) |
      exact fun _ h => absurd h (by decide)
  simp [encode, hkey.1, hctrl, halt, hmeta, symbolOrSpecial, hkeypad, hkey.2]

theorem utf8EncodeChar_inj {c c' : Char} (h : String.utf8EncodeChar c = String.utf8EncodeChar c') :
    c = c' := by
  have hbytes : (String.ofList [c]).toByteArray = (String.ofList [c']).toByteArray := by
    rw [String.toByteArray_ofList, String.toByteArray_ofList, List.utf8Encode_singleton,
      List.utf8Encode_singleton, h]
  simpa using congrArg String.toList (String.toByteArray_inj.mp hbytes)

/-- What is sent for the symbols of a key is the same exactly if the characters are. -/
theorem symbolBytes_getD_inj : (symbolBytes layout key mods).getD [] =
    (symbolBytes layout key mods').getD [] ↔
      symbolChar layout key mods = symbolChar layout key mods' := by
  unfold symbolBytes
  cases symbolChar layout key mods with
  | none =>
    cases symbolChar layout key mods' with
    | none => simp
    | some c' => simp
  | some c =>
    cases symbolChar layout key mods' with
    | none => simp
    | some c' => simpa using ⟨utf8EncodeChar_inj, congrArg _⟩

/-- With Caps Lock on, the sink sends a printable key under inverted Shift if its primary symbol
is a letter and under unchanged Shift otherwise, exactly if the symbol is a letter where the US
keyboard has one, or Shift makes no difference to the character. -/
theorem capsLock_sends_iff (alphabetic : Char → Bool) {t : TerminalKeySink TerminalModes Transcript}
    (henc : t.encoder = encoder layout) (hcaps : t.capsLock = true)
    (hbase : (baseAscii key).isSome = true) (hkeypad : isKeypad key = false)
    (hctrl : t.heldMods.contains (.ofKind .ctrl) = false)
    (halt : t.heldMods.contains (.ofKind .alt) = false)
    (hmeta : t.heldMods.contains (.ofKind .meta) = false) :
    (t.keyDown key).1.sink.bytes = t.sink.bytes ++ (encode layout key
        (if primaryIsLetter alphabetic layout key then invertShift t.heldMods else t.heldMods)
        t.modes).getD [] ↔
      ((baseAscii key).any Char.isAlpha = primaryIsLetter alphabetic layout key ∨
        symbolChar layout key (invertShift t.heldMods) = symbolChar layout key t.heldMods) := by
  have hencode : ∀ mods, mods = invertShift t.heldMods ∨ mods = t.heldMods →
      encode layout key mods t.modes = symbolBytes layout key mods := by
    rintro mods (rfl | rfl)
    · apply encode_printable hbase hkeypad
      · exact (contains_invertShift (by decide)).trans hctrl
      · exact (contains_invertShift (by decide)).trans halt
      · exact (contains_invertShift (by decide)).trans hmeta
    · exact encode_printable hbase hkeypad hctrl halt hmeta
  have heffective : t.effectiveMods key =
      if (baseAscii key).any Char.isAlpha then invertShift t.heldMods else t.heldMods := by
    rw [TerminalKeySink.effectiveMods, hcaps, Bool.true_and, isLetterKey_eq, invertShift]
  have hsent : (t.keyDown key).1.sink.bytes =
      t.sink.bytes ++ (encode layout key (t.effectiveMods key) t.modes).getD [] := by
    have hkind : key.modifierKind = none ∧ key.isLockKey = false := by
      revert hbase
      cases key <;> first | exact fun _ => ⟨rfl, rfl⟩ | exact fun h => absurd h (by decide)
    simp only [TerminalKeySink.keyDown, hkind.1, hkind.2, Bool.false_eq_true, if_false,
      TerminalKeySink.encodeAndSend, henc, encoder]
    cases encode layout key (t.effectiveMods key) t.modes with
    | none => simp
    | some bytes => rfl
  rw [hsent, List.append_cancel_left_eq, heffective]
  generalize (baseAscii key).any Char.isAlpha = us
  generalize primaryIsLetter alphabetic layout key = letter
  cases us <;> cases letter <;> simp only [Bool.false_eq_true, if_true, if_false]
  · simp
  · rw [hencode _ (.inr rfl), hencode _ (.inl rfl), symbolBytes_getD_inj]
    simp [eq_comm]
  · rw [hencode _ (.inl rfl), hencode _ (.inr rfl), symbolBytes_getD_inj]
    simp
  · simp

end

/-- The one key of a French layout that has a letter where the US keyboard has a semicolon. -/
def azertyM : Layouts.Layout where
  entries := [(.semicolon, ⟨⟨true⟩, .char 'm', .char 'M', none, none, none⟩)]
  nodup := List.nodup_singleton _

/-- A terminal sink with Caps Lock on. -/
def capsSink (layout : Layouts.Layout) : TerminalKeySink TerminalModes Transcript :=
  { TerminalKeySink.new (encoder layout) .default ⟨[]⟩ with capsLock := true }

theorem capsLock_sends_iff_azerty :
    ((capsSink azertyM).keyDown .semicolon).1.sink.bytes = (capsSink azertyM).sink.bytes ++
        (encode azertyM .semicolon (if primaryIsLetter Char.isAlpha azertyM .semicolon then
          invertShift (capsSink azertyM).heldMods else (capsSink azertyM).heldMods)
          (capsSink azertyM).modes).getD [] ↔
      ((baseAscii .semicolon).any Char.isAlpha = primaryIsLetter Char.isAlpha azertyM .semicolon ∨
        symbolChar azertyM .semicolon (invertShift (capsSink azertyM).heldMods) =
          symbolChar azertyM .semicolon (capsSink azertyM).heldMods) :=
  capsLock_sends_iff Char.isAlpha rfl rfl rfl rfl rfl rfl rfl

/-- With Caps Lock on, the key of the letter m sends a small m. -/
theorem azerty_m_not_capital :
    primaryIsLetter Char.isAlpha azertyM .semicolon = true ∧
      ((capsSink azertyM).keyDown .semicolon).1.sink.bytes = [0x6D] ∧
      encode azertyM .semicolon (invertShift (capsSink azertyM).heldMods) .default =
        some [0x4D] := by
  decide

end Ferrokey.Terminal
