import Ferrokey.Terminal.Registers
import Mathlib.Data.Nat.Digits.Defs

/-! # The text of a control sequence

A control sequence has a private marker, numerals with separators between them,
intermediates and a final byte, of which only the last has to be there. The parser reads
from it one action, with the numerals and the intermediates cut to the sizes of its
registers, and is as new afterwards.
-/

namespace Ferrokey.Terminal

open Machine

inductive Separator where
  | colon | semicolon
  deriving DecidableEq, Repr

def Separator.byte : Separator → UInt8
  | .colon => 0x3A
  | .semicolon => 0x3B

inductive PrivateMarker where
  | less | equals | greater | question
  deriving DecidableEq, Repr

def PrivateMarker.byte : PrivateMarker → UInt8
  | .less => 0x3C
  | .equals => 0x3D
  | .greater => 0x3E
  | .question => 0x3F

/-- The digits of a numeral, of which there may be none. -/
abbrev Numeral := List (Fin 10)

namespace Numeral

def byte (digit : Fin 10) : UInt8 := UInt8.ofNat (0x30 + digit)

def bytes (n : Numeral) : List UInt8 := n.map byte

def value (n : Numeral) : ℕ := Nat.ofDigits 10 (n.map Fin.val).reverse

/-- The number as a register of the parser holds it. -/
def capped (n : Numeral) : ℕ := min n.value maxCsiValue

theorem value_concat (n : Numeral) (digit : Fin 10) :
    value (n ++ [digit]) = value n * 10 + digit := by
  simp only [value, List.map_append, List.map_cons, List.map_nil, List.reverse_append,
    List.reverse_singleton, List.singleton_append, Nat.ofDigits_cons]
  omega

end Numeral

/-- Numerals with separators between them. -/
inductive ParamText where
  | none
  | some (first : Numeral) (rest : List (Separator × Numeral))

namespace ParamText

def numerals : ParamText → List Numeral
  | none => []
  | some first rest => first :: rest.map Prod.snd

def bytesFrom (first : Numeral) (rest : List (Separator × Numeral)) : List UInt8 :=
  first.bytes ++ rest.flatMap fun r => r.1.byte :: r.2.bytes

def bytes : ParamText → List UInt8
  | none => []
  | some first rest => bytesFrom first rest

end ParamText

abbrev IntermediateByte := {b : UInt8 // 0x20 ≤ b ∧ b ≤ 0x2F}

abbrev FinalByte := {b : UInt8 // 0x40 ≤ b ∧ b ≤ 0x7E}

structure CsiText where
  marker : Option PrivateMarker
  params : ParamText
  intermediates : List IntermediateByte
  finalByte : FinalByte

namespace CsiText

variable (s : CsiText)

def markerByte : UInt8 := (s.marker.map PrivateMarker.byte).getD 0

/-- What follows the numerals. -/
def tail : List UInt8 := s.intermediates.map Subtype.val ++ [s.finalByte.val]

def bytes : List UInt8 :=
  0x1B :: 0x5B :: (s.marker.toList.map PrivateMarker.byte ++ (s.params.bytes ++ s.tail))

end CsiText

namespace Parser

variable {p q : Parser}

theorem feed_nil (p : Parser) : p.feed [] = (p, []) := rfl

theorem feed_cons (p : Parser) (byte : UInt8) (bytes : List UInt8) : p.feed (byte :: bytes) =
    (((p.advance byte).1.feed bytes).1,
      (p.advance byte).2 ++ ((p.advance byte).1.feed bytes).2) := rfl

theorem feed_append (p : Parser) (bytes bytes' : List UInt8) : p.feed (bytes ++ bytes') =
    (((p.feed bytes).1.feed bytes').1, (p.feed bytes).2 ++ ((p.feed bytes).1.feed bytes').2) := by
  simp only [feed, run_append, outputs_append, List.flatten_append]

/-- A byte that only changes the state. -/
theorem feed_cons_of_silent {byte : UInt8} (h : p.advance byte = (q, [])) (bytes : List UInt8) :
    p.feed (byte :: bytes) = q.feed bytes := by
  rw [feed_cons, h, List.nil_append]

theorem feed_append_of_silent {bytes : List UInt8} (h : p.feed bytes = (q, []))
    (bytes' : List UInt8) : p.feed (bytes ++ bytes') = q.feed bytes' := by
  rw [feed_append, h, List.nil_append]

/-! ### Numerals -/

/-- The parser behind `CSI` and a marker. -/
def entered (marker : UInt8) : Parser := { new with state := .csiEntry, privateMarker := marker }

/-- The parser in a numeral. -/
def reading (marker : UInt8) (params : List ℕ) (curParam : ℕ) (curParamOverflow : Bool) : Parser :=
  { new with state := .csiParam, privateMarker := marker, params, curParam, curParamOverflow }

/-- The parser behind the numerals and some intermediates. -/
def collecting (marker : UInt8) (params : List ℕ) (intermediates : List UInt8) : Parser :=
  { new with state := .csiIntermediate, privateMarker := marker, params, intermediates }

variable {marker : UInt8} {params : List ℕ} {value : ℕ} {overflow : Bool}

theorem csiParam_digit (digit : Fin 10) :
    p.csiParam (Numeral.byte digit) = (p.pushDigit digit, []) := by
  have hbyte : ¬ (Numeral.byte digit = 0x18 ∨ Numeral.byte digit = 0x1A) ∧
      (0x30 ≤ Numeral.byte digit ∧ Numeral.byte digit ≤ 0x39) ∧
      (Numeral.byte digit).toNat - 0x30 = digit := by
    revert digit
    decide
  rw [csiParam, if_neg hbyte.1, if_pos hbyte.2.1, hbyte.2.2]

theorem csiParam_separator (sep : Separator) : p.csiParam sep.byte = (p.pushParam, []) := by
  cases sep <;> rfl

/-- The arithmetic of a digit saturates at the bound, whether or not an overflow is noted. -/
theorem withDigit_capped (n : Numeral) (digit : Fin 10) :
    withDigit n.capped digit = Numeral.capped (n ++ [digit]) := by
  rw [Numeral.capped, Numeral.capped, Numeral.value_concat, withDigit, maxCsiValue]
  omega

/-- Behind the digits the register holds the number up to its bound; an overflow is noted only
past the bound. -/
theorem feed_digits (marker : UInt8) (params : List ℕ) (n : Numeral) :
    ∃ overflow, (overflow = true → n.capped = maxCsiValue) ∧
      (reading marker params 0 false).feed n.bytes =
        (reading marker params n.capped overflow, []) := by
  induction n using List.reverseRecOn with
  | nil => exact ⟨false, nofun, rfl⟩
  | append_singleton digits digit ih =>
    obtain ⟨overflow, hover, hfeed⟩ := ih
    have hdigit : (reading marker params (Numeral.capped digits) overflow).advance
        (Numeral.byte digit) =
          ((reading marker params (Numeral.capped digits) overflow).pushDigit digit, []) :=
      csiParam_digit digit
    have hbytes : Numeral.bytes (digits ++ [digit]) =
        Numeral.bytes digits ++ [Numeral.byte digit] := List.map_append
    rw [hbytes, feed_append_of_silent hfeed, feed_cons_of_silent hdigit, feed_nil]
    cases overflow with
    | true =>
      have hcap : Numeral.capped (digits ++ [digit]) = maxCsiValue := by
        rw [← withDigit_capped, hover rfl, withDigit, maxCsiValue]
        omega
      refine ⟨true, fun _ => hcap, ?_⟩
      rw [hcap, ← hover rfl]
      rfl
    | false =>
      refine ⟨_, ?_, by rw [← withDigit_capped]; rfl⟩
      intro hnoted
      rw [← withDigit_capped]
      exact (of_decide_eq_true hnoted).1

theorem pushParam_reading (values : List ℕ) :
    (reading marker (values.take maxCsiParams) value overflow).pushParam =
      reading marker ((values ++ [value]).take maxCsiParams) 0 false := by
  have hparams : (if (values.take maxCsiParams).length < maxCsiParams then
      values.take maxCsiParams ++ [value] else values.take maxCsiParams) =
        (values ++ [value]).take maxCsiParams := by
    rw [List.length_take]
    split_ifs with hroom
    · have hshort : values.length < maxCsiParams := by omega
      have hlonger : (values ++ [value]).length ≤ maxCsiParams := by
        rw [List.length_append, List.length_singleton]
        exact hshort
      rw [List.take_of_length_le hshort.le, List.take_of_length_le hlonger]
    · rw [List.take_append_of_le_length (by omega)]
  exact congrArg (reading marker · 0 false) hparams

/-- Behind all numerals the last of them is still in its register. -/
theorem feed_numerals (marker : UInt8) (first : Numeral) (rest : List (Separator × Numeral))
    (values : List ℕ) : ∃ params value overflow,
      (reading marker (values.take maxCsiParams) 0 false).feed (ParamText.bytesFrom first rest) =
        (reading marker params value overflow, []) ∧
      (reading marker params value overflow).pushParam = reading marker ((values ++
        (first :: rest.map Prod.snd).map Numeral.capped).take maxCsiParams) 0 false := by
  induction rest generalizing first values with
  | nil =>
    obtain ⟨overflow, -, hfeed⟩ := feed_digits marker (values.take maxCsiParams) first
    refine ⟨_, _, overflow, ?_, pushParam_reading values⟩
    rw [ParamText.bytesFrom, List.flatMap_nil, List.append_nil, hfeed]
  | cons next rest ih =>
    obtain ⟨overflow, -, hfeed⟩ := feed_digits marker (values.take maxCsiParams) first
    obtain ⟨params, value, overflow', hrest, hpush⟩ := ih next.2 (values ++ [first.capped])
    have hsep : (reading marker (values.take maxCsiParams) first.capped overflow).advance
        next.1.byte = (reading marker ((values ++ [first.capped]).take maxCsiParams) 0 false, []) :=
      (csiParam_separator next.1).trans (by rw [pushParam_reading])
    refine ⟨params, value, overflow', ?_, by simpa using hpush⟩
    rw [ParamText.bytesFrom, List.flatMap_cons, feed_append_of_silent hfeed, List.cons_append,
      feed_cons_of_silent hsep]
    exact hrest

/-! ### Intermediates and the final byte -/

/-- The parser has read the numerals, up to the last of them. -/
structure Ready (p : Parser) (marker : UInt8) (params : List ℕ) : Prop where
  intermediate : ∀ byte : IntermediateByte,
    p.advance byte = (collecting marker params [byte.val], [])
  final : ∀ byte : FinalByte, p.advance byte = (new, [.csi ⟨marker, params, [], byte⟩])

theorem IntermediateByte.not_others (byte : IntermediateByte) :
    ¬ (byte.val = 0x18 ∨ byte.val = 0x1A) ∧ ¬ (0x3C ≤ byte.val ∧ byte.val ≤ 0x3F) ∧
      ¬ (0x30 ≤ byte.val ∧ byte.val ≤ 0x3B) ∧ ¬ (0x30 ≤ byte.val ∧ byte.val ≤ 0x39) ∧
      ¬ (byte.val = 0x3A ∨ byte.val = 0x3B) := by
  obtain ⟨hlo, hhi⟩ := byte.2
  simp only [UInt8.le_iff_toNat_le, ← UInt8.toNat_inj, UInt8.reduceToNat] at hlo hhi ⊢
  omega

theorem FinalByte.not_others (byte : FinalByte) :
    ¬ (byte.val = 0x18 ∨ byte.val = 0x1A) ∧ ¬ (0x20 ≤ byte.val ∧ byte.val ≤ 0x2F) ∧
      ¬ (0x30 ≤ byte.val ∧ byte.val ≤ 0x39) ∧ ¬ (0x30 ≤ byte.val ∧ byte.val ≤ 0x3F) ∧
      ¬ (byte.val = 0x3A ∨ byte.val = 0x3B) ∧ ¬ (0x30 ≤ byte.val ∧ byte.val ≤ 0x3B) ∧
      ¬ (0x3C ≤ byte.val ∧ byte.val ≤ 0x3F) := by
  obtain ⟨hlo, hhi⟩ := byte.2
  simp only [UInt8.le_iff_toNat_le, ← UInt8.toNat_inj, UInt8.reduceToNat] at hlo hhi ⊢
  omega

theorem ready_entered (marker : UInt8) : Ready (entered marker) marker [] where
  intermediate byte := by
    obtain ⟨-, hmark, hparam, -, -⟩ := IntermediateByte.not_others byte
    exact (if_neg hmark).trans ((if_neg hparam).trans (if_pos byte.2))
  final byte := by
    obtain ⟨-, hinter, -, -, -, hparam, hmark⟩ := FinalByte.not_others byte
    exact (if_neg hmark).trans ((if_neg hparam).trans ((if_neg hinter).trans (if_pos byte.2)))

theorem ready_reading {params' : List ℕ}
    (h : (reading marker params value overflow).pushParam = reading marker params' 0 false) :
    Ready (reading marker params value overflow) marker params' where
  intermediate byte := by
    obtain ⟨hcancel, -, -, hdigit, hsep⟩ := IntermediateByte.not_others byte
    have hstep : (reading marker params value overflow).csiParam byte = _ := (if_neg hcancel).trans
      ((if_neg hdigit).trans ((if_neg hsep).trans (if_pos byte.2)))
    rw [h] at hstep
    exact hstep
  final byte := by
    obtain ⟨hcancel, hinter, hdigit, -, hsep, -, -⟩ := FinalByte.not_others byte
    have hstep : (reading marker params value overflow).csiParam byte = _ := (if_neg hcancel).trans
      ((if_neg hdigit).trans ((if_neg hsep).trans ((if_neg hinter).trans (if_pos byte.2))))
    rw [h] at hstep
    exact hstep

theorem feed_collecting (kept : List UInt8) (bytes : List IntermediateByte) :
    (collecting marker params (kept.take 2)).feed (bytes.map Subtype.val) =
      (collecting marker params ((kept ++ bytes.map Subtype.val).take 2), []) := by
  induction bytes generalizing kept with
  | nil => rw [List.map_nil, List.append_nil, feed_nil]
  | cons byte bytes ih =>
    have hpush : (collecting marker params (kept.take 2)).pushIntermediate byte =
        collecting marker params ((kept ++ [byte.val]).take 2) := by
      match kept with
      | [] | [_] | _ :: _ :: _ => rfl
    have hstep : (collecting marker params (kept.take 2)).advance byte =
        (collecting marker params ((kept ++ [byte.val]).take 2), []) := by
      rw [← hpush]
      exact if_pos byte.2
    rw [List.map_cons, feed_cons_of_silent hstep, ih, List.append_assoc, List.singleton_append]

theorem collecting_final (kept : List UInt8) (byte : FinalByte) :
    (collecting marker params kept).advance byte =
      (new, [.csi ⟨marker, params, kept, byte⟩]) := by
  obtain ⟨-, hinter, -, hparam, -, -, -⟩ := FinalByte.not_others byte
  exact (if_neg hinter).trans ((if_neg hparam).trans (if_pos byte.2))

theorem Ready.feed_tail (h : Ready p marker params) (bytes : List IntermediateByte)
    (byte : FinalByte) : p.feed (bytes.map Subtype.val ++ [byte.val]) =
      (new, [.csi ⟨marker, params, (bytes.map Subtype.val).take 2, byte⟩]) := by
  cases bytes with
  | nil => rw [List.map_nil, List.nil_append, feed_cons, h.final, feed_nil]; rfl
  | cons first bytes =>
    have hcollect : (collecting marker params [first.val]).feed (bytes.map Subtype.val) =
        (collecting marker params (([first.val] ++ bytes.map Subtype.val).take 2), []) :=
      feed_collecting [first.val] bytes
    rw [List.map_cons, List.cons_append, feed_cons_of_silent (h.intermediate first),
      feed_append_of_silent hcollect, feed_cons, collecting_final, feed_nil]
    rfl

end Parser

/-! ### The whole sequence -/

/-- The numbers that the parser keeps of the numerals. -/
def ParamText.kept (p : ParamText) : List ℕ :=
  if p.bytes = [] then [] else (p.numerals.map Numeral.capped).take maxCsiParams

section

open Terminal.Parser

namespace CsiText

variable (s : CsiText)

theorem feed_marker : new.feed (0x1B :: 0x5B :: s.marker.toList.map PrivateMarker.byte) =
    (entered s.markerByte, []) := by
  unfold markerByte
  rcases s.marker with _ | (_ | _ | _ | _) <;> rfl

/-- A numeral or a separator takes the parser out of its entry state. -/
theorem feed_entered {first : Numeral} {rest : List (Separator × Numeral)}
    (h : ParamText.bytesFrom first rest ≠ []) (marker : UInt8) :
    (entered marker).feed (ParamText.bytesFrom first rest) =
      (reading marker [] 0 false).feed (ParamText.bytesFrom first rest) := by
  have hadvance : ∀ byte : UInt8, 0x30 ≤ byte ∧ byte ≤ 0x3B → ¬ (0x3C ≤ byte ∧ byte ≤ 0x3F) →
      (entered marker).advance byte = (reading marker [] 0 false).advance byte :=
    fun byte hbyte hmark => (if_neg hmark).trans (if_pos hbyte)
  cases first with
  | cons digit first =>
    have hdigit : (0x30 ≤ Numeral.byte digit ∧ Numeral.byte digit ≤ 0x3B) ∧
        ¬ (0x3C ≤ Numeral.byte digit ∧ Numeral.byte digit ≤ 0x3F) := by
      clear h
      revert digit
      decide
    change (entered marker).feed (Numeral.byte digit :: _) = Parser.feed _ (_ :: _)
    rw [feed_cons, hadvance _ hdigit.1 hdigit.2]
    rfl
  | nil =>
    cases rest with
    | nil => exact absurd rfl h
    | cons next rest =>
      have hsep : (0x30 ≤ next.1.byte ∧ next.1.byte ≤ 0x3B) ∧
          ¬ (0x3C ≤ next.1.byte ∧ next.1.byte ≤ 0x3F) := by
        cases next.1 <;> decide
      change (entered marker).feed (next.1.byte :: _) = Parser.feed _ (_ :: _)
      rw [feed_cons, hadvance _ hsep.1 hsep.2]
      rfl

theorem feed_params (p : ParamText) (marker : UInt8) :
    ∃ q, (entered marker).feed p.bytes = (q, []) ∧ Ready q marker p.kept := by
  by_cases hempty : p.bytes = []
  · rw [hempty, ParamText.kept, if_pos hempty]
    exact ⟨entered marker, rfl, ready_entered marker⟩
  · rw [ParamText.kept, if_neg hempty]
    cases p with
    | none => exact absurd rfl hempty
    | some first rest =>
      obtain ⟨params, value, overflow, hfeed, hpush⟩ := feed_numerals marker first rest []
      exact ⟨_, (feed_entered hempty marker).trans hfeed, ready_reading hpush⟩

/-- A new parser reads exactly one action from the sequence and is new again. -/
theorem feed_bytes : new.feed s.bytes = (new, [.csi ⟨s.markerByte, s.params.kept,
    (s.intermediates.map Subtype.val).take 2, s.finalByte⟩]) := by
  obtain ⟨q, hfeed, hready⟩ := feed_params s.params s.markerByte
  have hbytes : s.bytes = (0x1B :: 0x5B :: s.marker.toList.map PrivateMarker.byte) ++
      (s.params.bytes ++ s.tail) := rfl
  rw [hbytes, feed_append_of_silent s.feed_marker, feed_append_of_silent hfeed, tail]
  exact hready.feed_tail s.intermediates s.finalByte

theorem parse_exact : ∃ c : Csi, new.feed s.bytes = (new, [.csi c]) ∧
    c.privateMarker = (s.marker.map PrivateMarker.byte).getD 0 ∧ c.finalByte = s.finalByte ∧
    c.params.length = (if s.params.bytes = [] then 0 else
      min s.params.numerals.length maxCsiParams) ∧
    (∀ i value : ℕ, c.params[i]? = some value →
      s.params.numerals[i]?.map (fun n : Numeral => min n.value maxCsiValue) = some value) ∧
    c.intermediates = (s.intermediates.map Subtype.val).take 2 := by
  refine ⟨_, s.feed_bytes, rfl, rfl, ?_, ?_, rfl⟩
  · rw [ParamText.kept]
    split_ifs with hempty
    · rfl
    · rw [List.length_take, List.length_map, Nat.min_comm]
  · intro i value (hvalue : s.params.kept[i]? = some value)
    rw [ParamText.kept] at hvalue
    split_ifs at hvalue with hempty
    · cases hvalue
    · rw [List.getElem?_take] at hvalue
      split_ifs at hvalue with hi
      rw [List.getElem?_map] at hvalue
      exact hvalue

end CsiText

end

end Ferrokey.Terminal
