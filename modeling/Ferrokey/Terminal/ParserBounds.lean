import Ferrokey.Terminal.IndexedParser
import Mathlib.Data.List.GetD

/-! # Bounds of the parser's arrays

Whatever bytes are fed, the counts stay within the arrays, and outside the ground state no
character is unfinished. So no index is out of range, and a byte is taken from the ground
state at most once more. The counted parts of the arrays are the lists of the parser that
has no arrays, byte for byte.
-/

namespace Ferrokey.Terminal.Indexed

open Protocol (slice)

/-! ### What the arrays stand for -/

/-- The sequence with the entries that are counted. -/
def Csi.toCsi (csi : Csi) : Terminal.Csi where
  privateMarker := csi.privateMarker
  params := csi.params.toList.take csi.paramCount
  intermediates := csi.intermediates.toList.take csi.interCount
  finalByte := csi.finalByte

def ParserAction.toAction : ParserAction → Terminal.ParserAction
  | .print c => .print c
  | .control code => .control code
  | .csi c => .csi c.toCsi
  | .osc payload => .osc payload
  | .esc seq => .esc seq
  | .charsetSelect c => .charsetSelect c

/-- The parser with the entries that are counted. -/
def Parser.toParser (p : Parser) : Terminal.Parser where
  state := p.state
  utf8 := p.utf8.toList.take p.utf8Len
  utf8Expected := p.utf8Expected
  privateMarker := p.privateMarker
  params := p.params.toList.take p.paramCount
  curParam := p.curParam
  curParamOverflow := p.curParamOverflow
  intermediates := p.intermediates.toList.take p.interCount
  osc := p.osc
  oscTruncated := p.oscTruncated
  oscPendingEsc := p.oscPendingEsc

/-- The counts are within the arrays. -/
structure Csi.Bounded (csi : Csi) : Prop where
  params : csi.paramCount ≤ maxCsiParams
  inters : csi.interCount ≤ 2

def ParserAction.Bounded : ParserAction → Prop
  | .csi c => c.Bounded
  | .osc payload => payload.length ≤ maxOscLen
  | _ => True

/-- The counts are within the arrays, and outside the ground state no character is unfinished. -/
structure Parser.Bounded (p : Parser) : Prop where
  osc : p.osc.length ≤ maxOscLen
  params : p.paramCount ≤ maxCsiParams
  inters : p.interCount ≤ 2
  utf8 : 0 < p.utf8Len → p.utf8Len < p.utf8Expected ∧ p.utf8Expected ≤ utf8Max
  ground : p.state ≠ .ground → p.utf8Len = 0

/-- A step returns, within the bounds, and is that of the parser with lists. -/
def Simulates (x : Option Step) (y : Terminal.Parser × List Terminal.ParserAction) : Prop :=
  Returns x fun out => out.1.Bounded ∧ (∀ a ∈ out.2, a.Bounded) ∧ out.1.toParser = y.1 ∧
    out.2.map ParserAction.toAction = y.2

section Arrays

variable {α : Type} {n i : ℕ}

theorem setAt_eq (v : Vector α n) (h : i < n) (a : α) : setAt v i a = some (v.set i a) := dif_pos h

/-- Writing the entry after the counted ones appends it. -/
theorem take_set (v : Vector α n) (h : i < n) (a : α) :
    (v.set i a).toList.take (i + 1) = v.toList.take i ++ [a] := by
  rw [Vector.toList_set, List.take_add_one, List.take_set_of_le le_rfl,
    List.getElem?_set_self (by rwa [Vector.length_toList]), Option.toList_some]

theorem length_take_toList (v : Vector α n) (h : i ≤ n) : (v.toList.take i).length = i := by
  rw [List.length_take, Vector.length_toList, Nat.min_eq_left h]

end Arrays

namespace Parser

variable {p : Parser} {byte : UInt8}

/-! ### Steps outside a character -/

theorem Bounded.of_idle (hosc : p.osc.length ≤ maxOscLen) (hparams : p.paramCount ≤ maxCsiParams)
    (hinters : p.interCount ≤ 2) (hu : p.utf8Len = 0) : p.Bounded :=
  ⟨hosc, hparams, hinters, fun hpos => absurd hu hpos.ne', fun _ => hu⟩

theorem new_bounded : new.Bounded :=
  .of_idle (Nat.zero_le _) (Nat.zero_le _) (Nat.zero_le _) rfl

theorem toParser_new : new.toParser = Terminal.Parser.new := rfl

/-- A step without actions. -/
theorem Bounded.quiet (h : p.Bounded) : Simulates (some (p, [])) (p.toParser, []) :=
  .pure ⟨h, by simp, rfl, rfl⟩

theorem Bounded.acts (h : p.Bounded) {a : ParserAction} (ha : a.Bounded) :
    Simulates (some (p, [a])) (p.toParser, [a.toAction]) :=
  .pure ⟨h, by simpa using ha, rfl, rfl⟩

section Idle

variable (h : p.Bounded) (hu : p.utf8Len = 0)
include h hu

theorem Bounded.goto (state : Parser.State) :
    Simulates (some (p.goto state)) (p.toParser.goto state) :=
  quiet (.of_idle h.osc h.params h.inters hu)

theorem Bounded.finish {a : ParserAction} (ha : a.Bounded) :
    Simulates (some (p.finish a)) (p.toParser.finish a.toAction) :=
  acts (p := { p with state := .ground }) (.of_idle h.osc h.params h.inters hu) ha

theorem Bounded.beginOsc : Simulates (some p.beginOsc) p.toParser.beginOsc :=
  quiet (.of_idle (Nat.zero_le _) h.params h.inters hu)

theorem Bounded.endOsc : Simulates (some p.endOsc) p.toParser.endOsc :=
  acts (p := p.endOsc.1) (a := .osc p.osc) (.of_idle (Nat.zero_le _) h.params h.inters hu) h.osc

omit hu in
theorem Bounded.emitControl :
    Simulates (some (p.emitControl byte)) (p.toParser.emitControl byte) := by
  unfold Parser.emitControl Terminal.Parser.emitControl
  split
  case h_9 => simpa [*] using h.quiet
  all_goals exact h.acts trivial

theorem Bounded.c1 : Simulates (some (p.c1 byte)) (p.toParser.c1 byte) := by
  unfold Parser.c1 Terminal.Parser.c1
  split
  case h_12 => simpa [*, ParserAction.toAction] using h.acts (a := .print replacement) trivial
  all_goals first
    | exact h.acts trivial
    | exact h.quiet
    | exact h.goto hu _
    | exact h.beginOsc hu

end Idle

/-! ### Characters -/

theorem expectedLen_le (byte : UInt8) : Terminal.Parser.expectedLen byte ≤ utf8Max := by
  unfold Terminal.Parser.expectedLen utf8Max
  split_ifs <;> omega

theorem one_lt_expectedLen (h : Terminal.Parser.expectedLen byte ≠ 0) :
    1 < Terminal.Parser.expectedLen byte := by
  unfold Terminal.Parser.expectedLen at h ⊢
  split_ifs at h ⊢ <;> omega

theorem decodeUtf8_eq (bytes : List UInt8) :
    (decodeUtf8 bytes).map ParserAction.toAction = Terminal.Parser.decodeUtf8 bytes := by
  unfold decodeUtf8 Terminal.Parser.decodeUtf8
  cases Protocol.fromUtf8 bytes with
  | none => rfl
  | some s =>
    dsimp only
    rw [List.map_map]
    rfl

theorem decodeUtf8_bounded (bytes : List UInt8) : ∀ a ∈ decodeUtf8 bytes, a.Bounded := by
  unfold decodeUtf8
  split
  · rintro _ hmem
    obtain ⟨c, -, rfl⟩ := List.mem_map.mp hmem
    trivial
  · simp [ParserAction.Bounded]

variable {depth : ℕ}

theorem Bounded.utf8Lead (h : p.Bounded) (hu : p.utf8Len = 0) (hs : p.state = .ground)
    (reground : Parser → UInt8 → Option Step) :
    Simulates (p.utf8Byte reground byte) (p.toParser.utf8Lead byte) := by
  unfold utf8Byte Terminal.Parser.utf8Lead
  rw [if_pos hu]
  split
  next => exact h.acts trivial
  next hlen =>
    have hone := one_lt_expectedLen hlen
    rw [setAt_eq p.utf8 (by decide)]
    refine .pure ⟨⟨h.osc, h.params, h.inters, ?_, ?_⟩, by simp, ?_, rfl⟩
    · exact fun _ => ⟨hone, expectedLen_le byte⟩
    · exact fun hne => absurd hs hne
    · simp only [toParser, take_set p.utf8 (i := 0) (by decide), List.take_zero, List.nil_append]

/-- Outside a character the depth does not matter. -/
theorem Bounded.groundByte (h : p.Bounded) (hu : p.utf8Len = 0) (hs : p.state = .ground) :
    Simulates (Indexed.ground (depth + 1) p byte) (p.toParser.groundByte byte) := by
  unfold Indexed.ground Terminal.Parser.groundByte
  rw [if_neg (by omega)]
  split_ifs
  · exact h.emitControl
  · exact h.quiet
  · exact h.goto hu _
  · exact h.acts trivial
  · exact h.c1 hu
  · exact h.utf8Lead hu hs _

/-- In a character a byte is taken again at most once, and then outside a character. -/
theorem Bounded.utf8Continue (h : p.Bounded) (hpos : 0 < p.utf8Len) (hs : p.state = .ground) :
    Simulates (p.utf8Byte (Indexed.ground (depth + 1)) byte) (p.toParser.utf8Continue byte) := by
  obtain ⟨hlt, hmax⟩ := h.utf8 hpos
  have hbytes (hin : p.utf8Len < utf8Max) : (p.utf8.set p.utf8Len byte hin).toList.take
      (p.utf8Len + 1) = p.toParser.utf8 ++ [byte] := take_set p.utf8 hin byte
  have hlen : (p.toParser.utf8 ++ [byte]).length = p.utf8Len + 1 := by
    rw [List.length_append, toParser, length_take_toList _ (by omega), List.length_singleton]
  unfold utf8Byte Terminal.Parser.utf8Continue
  rw [if_neg (by omega)]
  by_cases hcont : 0x80 ≤ byte ∧ byte ≤ 0xBF
  · have hin : p.utf8Len < utf8Max := by omega
    rw [if_pos hcont, if_pos hcont, setAt_eq p.utf8 hin]
    simp only [Option.bind_eq_bind, Option.bind_some, hlen]
    by_cases hend : p.utf8Len + 1 = p.utf8Expected
    · have hslice : slice (p.utf8.set p.utf8Len byte hin).toList 0 (p.utf8Len + 1) =
          some (p.toParser.utf8 ++ [byte]) := by
        rw [slice, if_pos ⟨Nat.zero_le _, by rw [Vector.length_toList]; omega⟩, List.drop_zero,
          hbytes hin]
      have hend' : p.utf8Len + 1 = p.toParser.utf8Expected := hend
      rw [if_pos hend, if_pos hend', hslice, Option.bind_some]
      exact .pure ⟨.of_idle h.osc h.params h.inters rfl, decodeUtf8_bounded _, rfl,
        decodeUtf8_eq _⟩
    · have hend' : ¬ p.utf8Len + 1 = p.toParser.utf8Expected := hend
      rw [if_neg hend, if_neg hend']
      refine .pure ⟨⟨h.osc, h.params, h.inters, ?_, ?_⟩, by simp, ?_, rfl⟩
      · dsimp only
        omega
      · exact fun hne => absurd hs hne
      · simp only [toParser, hbytes hin]
  · have hidle : Bounded { p with utf8Len := 0 } := .of_idle h.osc h.params h.inters rfl
    obtain ⟨⟨p', actions⟩, hground, hb, hin, hp, ha⟩ :
        Simulates (Indexed.ground (depth + 1) { p with utf8Len := 0 } byte) _ :=
      hidle.groundByte rfl hs
    rw [if_neg hcont, if_neg hcont, hground]
    refine .pure ⟨hb, ?_, hp, ?_⟩
    · exact List.forall_mem_cons.mpr ⟨trivial, hin⟩
    · exact congrArg (Terminal.ParserAction.print replacement :: ·) ha

/-- Two calls of `ground` at once are enough. -/
theorem Bounded.ground_simulates (h : p.Bounded) (hs : p.state = .ground) :
    Simulates (Indexed.ground (depth + 2) p byte) (p.toParser.ground byte) := by
  unfold Terminal.Parser.ground
  rcases Nat.eq_zero_or_pos p.utf8Len with hu | hpos
  · have hempty : p.toParser.utf8.isEmpty = true := by simp [toParser, hu]
    rw [if_pos hempty]
    exact h.groundByte hu hs
  · have hlen : p.toParser.utf8.length = p.utf8Len := by
      obtain ⟨hlt, hmax⟩ := h.utf8 hpos
      exact length_take_toList _ (by omega)
    have hfull : ¬ p.toParser.utf8.isEmpty = true := by
      rw [List.isEmpty_iff_length_eq_zero]
      omega
    rw [if_neg hfull, Indexed.ground, if_pos hpos]
    exact h.utf8Continue hpos hs

/-! ### Sequences -/

section Sequences

variable (h : p.Bounded) (hu : p.utf8Len = 0)
include h hu

theorem Bounded.firstIntermediate (state : Parser.State) :
    Simulates (p.firstIntermediate byte state)
      ({ p.toParser with intermediates := [byte], state }, []) := by
  unfold Parser.firstIntermediate
  rw [setAt_eq p.intermediates (by decide)]
  refine .pure ⟨.of_idle h.osc h.params one_le_two hu, by simp, ?_, rfl⟩
  simp only [toParser, take_set p.intermediates (i := 0) (by decide), List.take_zero,
    List.nil_append]

theorem Bounded.pushIntermediate :
    Simulates (p.pushIntermediate byte) (p.toParser.pushIntermediate byte, []) := by
  have hlen : p.toParser.intermediates.length = p.interCount := length_take_toList _ h.inters
  unfold Parser.pushIntermediate Terminal.Parser.pushIntermediate
  rw [hlen]
  split
  next hroom =>
    rw [setAt_eq p.intermediates hroom]
    refine .pure ⟨.of_idle h.osc h.params hroom hu, by simp, ?_, rfl⟩
    simp only [toParser, take_set p.intermediates hroom]
  next => exact h.quiet

theorem Bounded.backToGround :
    Simulates (Indexed.ground (depth + 2) { p with state := .ground } byte)
      (p.toParser.backToGround byte) := by
  have hidle : Bounded { p with state := .ground } := .of_idle h.osc h.params h.inters hu
  exact hidle.ground_simulates rfl

theorem Bounded.escape : Simulates (p.escape byte) (p.toParser.escape byte) := by
  unfold Parser.escape Terminal.Parser.escape
  by_cases hpending : p.oscPendingEsc = true
  · have hidle : Bounded { p with oscPendingEsc := false } := .of_idle h.osc h.params h.inters hu
    have hpending' : p.toParser.oscPendingEsc = true := hpending
    rw [if_pos hpending, if_pos hpending']
    dsimp only
    split
    · exact hidle.endOsc hu
    · exact hidle.goto hu .oscString
  · have hpending' : ¬ p.toParser.oscPendingEsc = true := hpending
    rw [if_neg hpending, if_neg hpending']
    have hcharset : Simulates
        ((setAt p.utf8 0 byte).bind fun utf8 => some ({ p with utf8, state := .charsetSelect }, []))
        (p.toParser.goto .charsetSelect) := by
      rw [setAt_eq p.utf8 (by decide)]
      refine .pure ⟨.of_idle h.osc h.params h.inters hu, by simp, ?_, rfl⟩
      simp [toParser, Terminal.Parser.goto, hu]
    generalize Char.ofNat byte.toNat = ch
    split
    case h_34 =>
      split
      · simpa [*] using h.firstIntermediate hu _
      · simpa [*] using h.goto hu _
    all_goals first
      | exact h.goto hu _
      | exact h.quiet
      | exact h.beginOsc hu
      | exact h.finish hu trivial
      | exact hcharset

theorem Bounded.escapeIntermediate : Simulates (p.escapeIntermediate (depth + 2) byte)
    (p.toParser.escapeIntermediate byte) := by
  unfold Parser.escapeIntermediate Terminal.Parser.escapeIntermediate
  split_ifs
  · exact h.goto hu _
  · exact h.pushIntermediate hu
  · exact h.goto hu _
  · exact h.backToGround hu

theorem Bounded.charsetSelect : Simulates (p.charsetSelect (depth + 2) byte)
    (p.toParser.charsetSelect byte) := by
  unfold Parser.charsetSelect Terminal.Parser.charsetSelect
  split_ifs
  · exact h.finish hu trivial
  · exact h.backToGround hu

theorem Bounded.lineAttributes : Simulates (p.lineAttributes (depth + 2) byte)
    (p.toParser.lineAttributes byte) := by
  unfold Parser.lineAttributes Terminal.Parser.lineAttributes
  split_ifs
  · exact h.finish hu trivial
  · exact h.backToGround hu

theorem Bounded.pushParam : Returns p.pushParam fun p' => p'.Bounded ∧ p'.utf8Len = 0 ∧
    p'.toParser = p.toParser.pushParam := by
  have hlen : p.toParser.params.length = p.paramCount := length_take_toList _ h.params
  unfold Parser.pushParam Terminal.Parser.pushParam
  rw [hlen]
  split
  next hroom =>
    rw [setAt_eq p.params hroom]
    refine .pure ⟨.of_idle h.osc hroom h.inters hu, hu, ?_⟩
    simp only [toParser, take_set p.params hroom]
  next => exact .pure ⟨.of_idle h.osc h.params h.inters hu, hu, rfl⟩

theorem Bounded.resetSequence : p.resetSequence.Bounded :=
  .of_idle h.osc (Nat.zero_le _) (Nat.zero_le _) hu

theorem Bounded.emitCsi : Simulates (some (p.emitCsi byte)) (p.toParser.emitCsi byte) := by
  refine .pure ⟨h.resetSequence hu, ?_, rfl, rfl⟩
  exact List.forall_mem_singleton.mpr ⟨h.params, h.inters⟩

theorem Bounded.pushDigit (digit : ℕ) :
    Simulates (some (p.pushDigit digit, [])) (p.toParser.pushDigit digit, []) := by
  unfold Parser.pushDigit Terminal.Parser.pushDigit
  by_cases hoverflow : p.curParamOverflow = true
  · have hoverflow' : p.toParser.curParamOverflow = true := hoverflow
    rw [if_pos hoverflow, if_pos hoverflow']
    exact h.quiet
  · have hoverflow' : ¬ p.toParser.curParamOverflow = true := hoverflow
    rw [if_neg hoverflow, if_neg hoverflow']
    exact quiet (.of_idle h.osc h.params h.inters hu)

theorem Bounded.csiParam : Simulates (p.csiParam (depth + 2) byte) (p.toParser.csiParam byte) := by
  obtain ⟨p', hpush, h', hu', hp'⟩ := h.pushParam hu
  unfold Parser.csiParam Terminal.Parser.csiParam
  simp only [hpush, Option.bind_eq_bind, Option.bind_some, ← hp']
  split_ifs
  · exact h.goto hu _
  · exact h.pushDigit hu _
  · exact h'.quiet
  · exact h'.firstIntermediate hu' _
  · exact h'.emitCsi hu'
  · exact (h.resetSequence hu).ground_simulates rfl

theorem Bounded.csiEntry : Simulates (p.csiEntry (depth + 2) byte) (p.toParser.csiEntry byte) := by
  have hparam : Bounded { p with state := .csiParam } := .of_idle h.osc h.params h.inters hu
  unfold Parser.csiEntry Terminal.Parser.csiEntry
  split_ifs
  · exact quiet (.of_idle h.osc h.params h.inters hu)
  · exact hparam.csiParam hu
  · exact h.firstIntermediate hu _
  · exact h.emitCsi hu
  · exact h.goto hu _

theorem Bounded.csiIntermediate : Simulates (p.csiIntermediate (depth + 2) byte)
    (p.toParser.csiIntermediate byte) := by
  have hrestart : Bounded { p with
      privateMarker := 0, paramCount := 0, curParam := 0, state := .csiParam } :=
    .of_idle h.osc (Nat.zero_le _) h.inters hu
  unfold Parser.csiIntermediate Terminal.Parser.csiIntermediate
  split_ifs
  · exact h.pushIntermediate hu
  · exact hrestart.csiParam hu
  · exact h.emitCsi hu
  · exact h.goto hu _

theorem Bounded.pushOsc : Simulates (some (p.pushOsc byte, [])) (p.toParser.pushOsc byte, []) := by
  unfold Parser.pushOsc Terminal.Parser.pushOsc
  by_cases hcut : p.oscTruncated = true
  · have hcut' : p.toParser.oscTruncated = true := hcut
    rw [if_pos hcut, if_pos hcut']
    exact h.quiet
  · have hcut' : ¬ p.toParser.oscTruncated = true := hcut
    rw [if_neg hcut, if_neg hcut']
    by_cases hroom : p.osc.length < maxOscLen
    · have hroom' : p.toParser.osc.length < maxOscLen := hroom
      rw [if_pos hroom, if_pos hroom']
      refine quiet (.of_idle ?_ h.params h.inters hu)
      rw [List.length_append, List.length_singleton]
      exact hroom
    · have hroom' : ¬ p.toParser.osc.length < maxOscLen := hroom
      rw [if_neg hroom, if_neg hroom']
      exact quiet (.of_idle h.osc h.params h.inters hu)

theorem Bounded.oscString : Simulates (some (p.oscString byte)) (p.toParser.oscString byte) := by
  unfold Parser.oscString Terminal.Parser.oscString
  split
  · exact h.endOsc hu
  · exact quiet (.of_idle h.osc h.params h.inters hu)
  · exact quiet (.of_idle (Nat.zero_le _) h.params h.inters hu)
  · exact quiet (.of_idle (Nat.zero_le _) h.params h.inters hu)
  · simpa [*] using h.pushOsc hu

theorem Bounded.dcsEntry : Simulates (some (p.dcsEntry byte)) (p.toParser.dcsEntry byte) := by
  unfold Parser.dcsEntry Terminal.Parser.dcsEntry
  split_ifs
  · exact h.goto hu _
  · exact h.quiet
  · exact h.goto hu _
  · exact h.goto hu _
  · exact h.goto hu _

theorem Bounded.dcsPassthrough :
    Simulates (some (p.dcsPassthrough byte)) (p.toParser.dcsPassthrough byte) := by
  unfold Parser.dcsPassthrough Terminal.Parser.dcsPassthrough
  split
  case h_5 => simpa [*] using h.quiet
  all_goals exact h.goto hu _

theorem Bounded.sosPmApc : Simulates (some (p.sosPmApc byte)) (p.toParser.sosPmApc byte) := by
  unfold Parser.sosPmApc Terminal.Parser.sosPmApc
  split
  case h_5 => simpa [*] using h.quiet
  all_goals exact h.goto hu _

end Sequences

/-! ### Bytes -/

theorem Bounded.advance (h : p.Bounded) (depth : ℕ) (byte : UInt8) :
    Simulates (p.advance (depth + 2) byte) (p.toParser.advance byte) := by
  have hstate : p.toParser.state = p.state := rfl
  unfold Parser.advance Terminal.Parser.advance
  rw [hstate]
  by_cases hs : p.state = .ground
  · rw [hs]
    exact h.ground_simulates hs
  · have hu := h.ground hs
    cases hs' : p.state with
    | ground => exact absurd hs' hs
    | escape => exact h.escape hu
    | escapeIntermediate => exact h.escapeIntermediate hu
    | charsetSelect => exact h.charsetSelect hu
    | lineAttributes => exact h.lineAttributes hu
    | csiEntry => exact h.csiEntry hu
    | csiParam => exact h.csiParam hu
    | csiIntermediate => exact h.csiIntermediate hu
    | oscString => exact h.oscString hu
    | dcsEntry => exact h.dcsEntry hu
    | dcsPassthrough => exact h.dcsPassthrough hu
    | sosPmApc => exact h.sosPmApc hu

theorem Bounded.feed (h : p.Bounded) (depth : ℕ) (bytes : List UInt8) :
    Simulates (p.feed (depth + 2) bytes) (p.toParser.feed bytes) := by
  induction bytes generalizing p with
  | nil => exact h.quiet
  | cons byte bytes ih =>
    obtain ⟨⟨p₁, first⟩, hstep, hb₁, hin₁, hp₁, ha₁⟩ := h.advance depth byte
    obtain ⟨⟨p₂, rest⟩, hfeed, hb₂, hin₂, hp₂, ha₂⟩ := ih hb₁
    dsimp only at hp₁ ha₁ hp₂ ha₂
    rw [hp₁] at hp₂ ha₂
    rw [Parser.feed, hstep]
    simp only [Option.bind_eq_bind, Option.bind_some, hfeed]
    refine .pure ⟨hb₂, List.forall_mem_append.mpr ⟨hin₁, hin₂⟩, hp₂, ?_⟩
    rw [List.map_append, ha₁, ha₂]
    rfl

/-- Every stream of bytes, and so every step of one: two calls of `ground` at once are enough, no
index is out of range, the counts stay within their arrays, and the actions are those of the parser
with lists. -/
theorem feed_simulates (depth : ℕ) (bytes : List UInt8) :
    Simulates (new.feed (depth + 2) bytes) (Terminal.Parser.new.feed bytes) := by
  rw [← toParser_new]
  exact new_bounded.feed depth bytes

end Parser

end Ferrokey.Terminal.Indexed
