import Ferrokey.Terminal.Parser

/-! # What a sequence leaves behind

The parser keeps the registers of a sequence until the sequence is completed or
dropped. Some ways out of a sequence go to the ground state and leave them as they
are, and the next sequence then starts with them. The bytes of an unfinished
character, and those of a string, are never left behind.
-/

namespace Ferrokey.Terminal.Parser

open Machine

/-- Nothing of a character or a string is kept. -/
def Idle (p : Parser) : Prop := p.utf8 = [] ∧ p.osc = [] ∧ p.oscPendingEsc = false

/-- Inside an OSC string, or right after an ESC there. -/
def InOsc (p : Parser) : Prop :=
  p.utf8 = [] ∧ ((p.state = .oscString ∧ p.oscPendingEsc = false) ∨
    (p.state = .escape ∧ p.oscPendingEsc = true))

/-- The second parser differs from the first in nothing that is going to be read. -/
inductive Resembles : Parser → Parser → Prop
  | idle {p : Parser} (h : p.Idle) (hs : p.state ≠ .oscString) (oscTruncated : Bool)
      (utf8Expected : ℕ) : Resembles p { p with oscTruncated, utf8Expected }
  | text {p : Parser} (hs : p.state = .ground) (ho : p.osc = []) (hp : p.oscPendingEsc = false)
      (oscTruncated : Bool) : Resembles p { p with oscTruncated }
  | string {p : Parser} (h : p.InOsc) (utf8Expected : ℕ) : Resembles p { p with utf8Expected }

/-- Two steps give the same actions and lead to parsers that resemble each other. -/
def Alike (r r' : Parser × List ParserAction) : Prop := r'.2 = r.2 ∧ Resembles r.1 r'.1

section Idle

variable {p : Parser} (h : p.Idle) (oscTruncated : Bool) (utf8Expected : ℕ) (byte : UInt8)
include h

theorem alike_of_idle (hs : p.state ≠ .oscString) (as : List ParserAction) :
    Alike (p, as) ({ p with oscTruncated, utf8Expected }, as) :=
  ⟨rfl, .idle h hs oscTruncated utf8Expected⟩

theorem alike_goto {state : State} (hs : state ≠ .oscString) :
    Alike (p.goto state) (goto { p with oscTruncated, utf8Expected } state) :=
  alike_of_idle (p := { p with state }) h oscTruncated utf8Expected hs []

theorem alike_finish (a : ParserAction) :
    Alike (p.finish a) (finish { p with oscTruncated, utf8Expected } a) :=
  alike_of_idle (p := { p with state := .ground }) h oscTruncated utf8Expected
    (show State.ground ≠ .oscString by decide) [a]

theorem alike_beginOsc :
    Alike p.beginOsc (beginOsc { p with oscTruncated, utf8Expected }) := by
  obtain ⟨hu, -, hp⟩ := h
  exact ⟨rfl, .string (p := p.beginOsc.1) ⟨hu, Or.inl ⟨rfl, hp⟩⟩ utf8Expected⟩

theorem alike_utf8Lead (hs : p.state = .ground) :
    Alike (p.utf8Lead byte) (utf8Lead { p with oscTruncated, utf8Expected } byte) := by
  have hne : p.state ≠ .oscString := by rw [hs]; decide
  obtain ⟨-, ho, hp⟩ := id h
  unfold utf8Lead
  split
  · exact alike_of_idle h oscTruncated utf8Expected hne _
  · exact ⟨rfl, .text (p := { p with utf8 := [byte], utf8Expected := _ }) hs ho hp oscTruncated⟩

theorem alike_c1 (hs : p.state = .ground) :
    Alike (p.c1 byte) (c1 { p with oscTruncated, utf8Expected } byte) := by
  have hne : p.state ≠ .oscString := by rw [hs]; decide
  unfold c1
  split <;> first
    | exact alike_of_idle h oscTruncated utf8Expected hne _
    | exact alike_goto h oscTruncated utf8Expected (by decide)
    | exact alike_beginOsc h oscTruncated utf8Expected

theorem alike_groundByte (hs : p.state = .ground) :
    Alike (p.groundByte byte) (groundByte { p with oscTruncated, utf8Expected } byte) := by
  have hne : p.state ≠ .oscString := by rw [hs]; decide
  unfold groundByte
  split_ifs
  · exact alike_of_idle h oscTruncated utf8Expected hne _
  · exact alike_of_idle h oscTruncated utf8Expected hne _
  · exact alike_goto h oscTruncated utf8Expected (by decide)
  · exact alike_of_idle h oscTruncated utf8Expected hne _
  · exact alike_c1 h oscTruncated utf8Expected byte hs
  · exact alike_utf8Lead h oscTruncated utf8Expected byte hs

theorem alike_ground (hs : p.state = .ground) :
    Alike (p.ground byte) (ground { p with oscTruncated, utf8Expected } byte) := by
  have hu : p.utf8.isEmpty = true := by rw [h.1]; rfl
  unfold ground
  rw [if_pos hu, if_pos hu]
  exact alike_groundByte h oscTruncated utf8Expected byte hs

theorem alike_backToGround :
    Alike (p.backToGround byte) (backToGround { p with oscTruncated, utf8Expected } byte) :=
  alike_ground (p := { p with state := .ground }) h oscTruncated utf8Expected byte rfl

theorem alike_escape (hs : p.state ≠ .oscString) :
    Alike (p.escape byte) (escape { p with oscTruncated, utf8Expected } byte) := by
  have hp : ¬ p.oscPendingEsc = true := by simp [h.2.2]
  have hinter : Alike (if 0x20 ≤ byte ∧ byte ≤ 0x2F then
        ({ p with intermediates := [byte], state := .escapeIntermediate }, [])
      else p.goto .ground)
      (if 0x20 ≤ byte ∧ byte ≤ 0x2F then
        ({ p with
          oscTruncated, utf8Expected, intermediates := [byte], state := .escapeIntermediate }, [])
      else goto { p with oscTruncated, utf8Expected } .ground) := by
    split
    · exact alike_goto (p := { p with intermediates := [byte] }) h oscTruncated utf8Expected
        (by decide)
    · exact alike_goto h oscTruncated utf8Expected (by decide)
  unfold escape
  rw [if_neg hp, if_neg hp]
  split <;> first
    | exact alike_goto h oscTruncated utf8Expected (by decide)
    | exact alike_finish h oscTruncated utf8Expected _
    | exact alike_of_idle h oscTruncated utf8Expected hs _
    | exact alike_beginOsc h oscTruncated utf8Expected
    | exact hinter

theorem alike_pushIntermediate (hs : p.state ≠ .oscString) :
    Alike (p.pushIntermediate byte, [])
      (pushIntermediate { p with oscTruncated, utf8Expected } byte, []) := by
  unfold pushIntermediate
  by_cases hlen : p.intermediates.length < 2
  · rw [if_pos hlen, if_pos hlen]
    exact alike_of_idle (p := { p with intermediates := p.intermediates ++ [byte] }) h oscTruncated
      utf8Expected hs []
  · rw [if_neg hlen, if_neg hlen]
    exact alike_of_idle h oscTruncated utf8Expected hs []

theorem alike_escapeIntermediate (hs : p.state ≠ .oscString) :
    Alike (p.escapeIntermediate byte)
      (escapeIntermediate { p with oscTruncated, utf8Expected } byte) := by
  unfold escapeIntermediate
  split_ifs
  · exact alike_goto h oscTruncated utf8Expected (by decide)
  · exact alike_pushIntermediate h oscTruncated utf8Expected byte hs
  · exact alike_goto h oscTruncated utf8Expected (by decide)
  · exact alike_backToGround h oscTruncated utf8Expected byte

theorem alike_charsetSelect :
    Alike (p.charsetSelect byte) (charsetSelect { p with oscTruncated, utf8Expected } byte) := by
  unfold charsetSelect
  split_ifs
  · exact alike_finish h oscTruncated utf8Expected _
  · exact alike_backToGround h oscTruncated utf8Expected byte

theorem alike_lineAttributes :
    Alike (p.lineAttributes byte) (lineAttributes { p with oscTruncated, utf8Expected } byte) := by
  unfold lineAttributes
  split_ifs
  · exact alike_finish h oscTruncated utf8Expected _
  · exact alike_backToGround h oscTruncated utf8Expected byte

theorem alike_emitCsi :
    Alike (p.emitCsi byte) (emitCsi { p with oscTruncated, utf8Expected } byte) :=
  alike_of_idle (p := p.resetSequence) h oscTruncated utf8Expected
    (show State.ground ≠ .oscString by decide) _

theorem alike_pushDigit (hs : p.state ≠ .oscString) (digit : ℕ) :
    Alike (p.pushDigit digit, []) (pushDigit { p with oscTruncated, utf8Expected } digit, []) := by
  unfold pushDigit
  by_cases hover : p.curParamOverflow = true
  · rw [if_pos hover, if_pos hover]
    exact alike_of_idle h oscTruncated utf8Expected hs []
  · rw [if_neg hover, if_neg hover]
    exact alike_of_idle
      (p := { p with
        curParamOverflow :=
          decide (withDigit p.curParam digit = maxCsiValue ∧ maxCsiValue / 10 < p.curParam)
        curParam := withDigit p.curParam digit }) h oscTruncated utf8Expected hs []

theorem alike_csiParam (hs : p.state ≠ .oscString) :
    Alike (p.csiParam byte) (csiParam { p with oscTruncated, utf8Expected } byte) := by
  unfold csiParam
  split_ifs
  · exact alike_goto h oscTruncated utf8Expected (by decide)
  · exact alike_pushDigit h oscTruncated utf8Expected hs _
  · exact alike_of_idle (p := p.pushParam) h oscTruncated utf8Expected hs []
  · exact alike_goto (p := { p.pushParam with intermediates := [byte] }) h oscTruncated
      utf8Expected (by decide)
  · exact alike_emitCsi (p := p.pushParam) h oscTruncated utf8Expected byte
  · exact alike_ground (p := p.resetSequence) h oscTruncated utf8Expected byte rfl

theorem alike_csiEntry (hs : p.state ≠ .oscString) :
    Alike (p.csiEntry byte) (csiEntry { p with oscTruncated, utf8Expected } byte) := by
  unfold csiEntry
  split_ifs
  · exact alike_of_idle (p := { p with privateMarker := byte }) h oscTruncated utf8Expected hs []
  · exact alike_csiParam (p := { p with state := .csiParam }) h oscTruncated utf8Expected byte
      (show State.csiParam ≠ .oscString by decide)
  · exact alike_goto (p := { p with intermediates := [byte] }) h oscTruncated utf8Expected
      (by decide)
  · exact alike_emitCsi h oscTruncated utf8Expected byte
  · exact alike_goto h oscTruncated utf8Expected (by decide)

theorem alike_csiIntermediate (hs : p.state ≠ .oscString) :
    Alike (p.csiIntermediate byte)
      (csiIntermediate { p with oscTruncated, utf8Expected } byte) := by
  unfold csiIntermediate
  split_ifs
  · exact alike_pushIntermediate h oscTruncated utf8Expected byte hs
  · exact alike_csiParam
      (p := { p with privateMarker := 0, params := [], curParam := 0, state := .csiParam }) h
      oscTruncated utf8Expected byte (show State.csiParam ≠ .oscString by decide)
  · exact alike_emitCsi h oscTruncated utf8Expected byte
  · exact alike_goto h oscTruncated utf8Expected (by decide)

theorem alike_dcsEntry (hs : p.state ≠ .oscString) :
    Alike (p.dcsEntry byte) (dcsEntry { p with oscTruncated, utf8Expected } byte) := by
  unfold dcsEntry
  split_ifs <;> first
    | exact alike_goto h oscTruncated utf8Expected (by decide)
    | exact alike_of_idle h oscTruncated utf8Expected hs []

theorem alike_dcsPassthrough (hs : p.state ≠ .oscString) :
    Alike (p.dcsPassthrough byte) (dcsPassthrough { p with oscTruncated, utf8Expected } byte) := by
  unfold dcsPassthrough
  split <;> first
    | exact alike_goto h oscTruncated utf8Expected (by decide)
    | exact alike_of_idle h oscTruncated utf8Expected hs []

theorem alike_sosPmApc (hs : p.state ≠ .oscString) :
    Alike (p.sosPmApc byte) (sosPmApc { p with oscTruncated, utf8Expected } byte) := by
  unfold sosPmApc
  split <;> first
    | exact alike_goto h oscTruncated utf8Expected (by decide)
    | exact alike_of_idle h oscTruncated utf8Expected hs []

end Idle

variable {p q : Parser} {byte : UInt8}

theorem alike_text (hs : p.state = .ground) (ho : p.osc = []) (hp : p.oscPendingEsc = false)
    (oscTruncated : Bool) :
    Alike (p.ground byte) (ground { p with oscTruncated } byte) := by
  by_cases hu : p.utf8 = []
  · exact alike_ground ⟨hu, ho, hp⟩ oscTruncated p.utf8Expected byte hs
  have hne : ¬ p.utf8.isEmpty = true := fun he => hu (List.isEmpty_iff.mp he)
  unfold ground
  rw [if_neg hne, if_neg hne]
  unfold utf8Continue
  split
  · dsimp only
    split
    · exact ⟨rfl, .text (p := { p with utf8 := [] }) hs ho hp oscTruncated⟩
    · exact ⟨rfl, .text (p := { p with utf8 := p.utf8 ++ [byte] }) hs ho hp oscTruncated⟩
  · obtain ⟨hacts, hnext⟩ := alike_groundByte (p := { p with utf8 := [] }) ⟨rfl, ho, hp⟩
      oscTruncated p.utf8Expected byte hs
    exact ⟨congrArg (.print replacement :: ·) hacts, hnext⟩

theorem alike_endOsc (hu : p.utf8 = []) (utf8Expected : ℕ) :
    Alike p.endOsc (endOsc { p with utf8Expected }) :=
  ⟨rfl, .idle (p := p.endOsc.1) ⟨hu, rfl, rfl⟩ nofun p.oscTruncated utf8Expected⟩

theorem alike_oscString (hu : p.utf8 = []) (hs : p.state = .oscString)
    (hp : p.oscPendingEsc = false) (utf8Expected : ℕ) :
    Alike (p.oscString byte) (oscString { p with utf8Expected } byte) := by
  unfold oscString
  split
  · exact alike_endOsc hu utf8Expected
  · exact ⟨rfl, .string (p := { p with oscPendingEsc := true, state := .escape })
      ⟨hu, Or.inr ⟨rfl, rfl⟩⟩ utf8Expected⟩
  · exact ⟨rfl, .idle (p := { p with state := .ground, osc := [] }) ⟨hu, rfl, hp⟩ nofun
      p.oscTruncated utf8Expected⟩
  · exact ⟨rfl, .idle (p := { p with state := .ground, osc := [] }) ⟨hu, rfl, hp⟩ nofun
      p.oscTruncated utf8Expected⟩
  · have hin : (p.pushOsc byte).InOsc := by
      unfold pushOsc
      split_ifs <;> exact ⟨hu, Or.inl ⟨hs, hp⟩⟩
    have hpush : pushOsc { p with utf8Expected } byte = { p.pushOsc byte with utf8Expected } := by
      unfold pushOsc
      split_ifs <;> rfl
    rw [hpush]
    exact ⟨rfl, .string hin utf8Expected⟩

theorem alike_pendingEsc (hu : p.utf8 = []) (hp : p.oscPendingEsc = true) (utf8Expected : ℕ) :
    Alike (p.escape byte) (escape { p with utf8Expected } byte) := by
  unfold escape
  rw [if_pos hp, if_pos hp]
  dsimp only
  split
  · exact alike_endOsc (p := { p with oscPendingEsc := false }) hu utf8Expected
  · exact ⟨rfl, .string (p := { p with oscPendingEsc := false, state := .oscString })
      ⟨hu, Or.inl ⟨rfl, rfl⟩⟩ utf8Expected⟩

theorem alike_string (h : p.InOsc) (utf8Expected : ℕ) :
    Alike (p.advance byte) (advance { p with utf8Expected } byte) := by
  obtain ⟨hu, h⟩ := h
  match p, hu, h with
  | { state := .oscString, .. }, hu, Or.inl ⟨_, hp⟩ => exact alike_oscString hu rfl hp utf8Expected
  | { state := .escape, .. }, hu, Or.inr ⟨_, hp⟩ => exact alike_pendingEsc hu hp utf8Expected

/-- Parsers that resemble each other do the same with the next byte. -/
theorem Resembles.advance (h : Resembles p q) (byte : UInt8) :
    Alike (p.advance byte) (q.advance byte) := by
  cases h with
  | text hs ho hp oscTruncated =>
    match p, hs, ho, hp with
    | { state := .ground, .. }, hs, ho, hp => exact alike_text hs ho hp oscTruncated
  | string h utf8Expected => exact alike_string h utf8Expected
  | idle h hs t n =>
    match p, h, hs with
    | { state := .ground, .. }, h, _ => exact alike_ground h t n byte rfl
    | { state := .escape, .. }, h, hs => exact alike_escape h t n byte hs
    | { state := .escapeIntermediate, .. }, h, hs => exact alike_escapeIntermediate h t n byte hs
    | { state := .charsetSelect, .. }, h, _ => exact alike_charsetSelect h t n byte
    | { state := .lineAttributes, .. }, h, _ => exact alike_lineAttributes h t n byte
    | { state := .csiEntry, .. }, h, hs => exact alike_csiEntry h t n byte hs
    | { state := .csiParam, .. }, h, hs => exact alike_csiParam h t n byte hs
    | { state := .csiIntermediate, .. }, h, hs => exact alike_csiIntermediate h t n byte hs
    | { state := .dcsEntry, .. }, h, hs => exact alike_dcsEntry h t n byte hs
    | { state := .dcsPassthrough, .. }, h, hs => exact alike_dcsPassthrough h t n byte hs
    | { state := .sosPmApc, .. }, h, hs => exact alike_sosPmApc h t n byte hs

theorem Resembles.feed (h : Resembles p q) (bytes : List UInt8) :
    (q.feed bytes).2 = (p.feed bytes).2 :=
  congrArg List.flatten (outputs_eq_of_related Resembles (fun _ _ byte h => h.advance byte) h bytes)

/-- The parser is between bytes of a run from its start. -/
def Settled (p : Parser) : Prop := Resembles p p

theorem idle_new : Idle new := ⟨rfl, rfl, rfl⟩

theorem settled_new : Settled new := .idle idle_new (by decide) false 0

theorem settled_feed (u : List UInt8) : (new.feed u).1.Settled :=
  run_invariant Settled settled_new (fun _ byte h => (h.advance byte).2) u

theorem Resembles.cases (h : Resembles p q) : (p.Idle ∧ p.state ≠ .oscString) ∨
    (p.state = .ground ∧ p.osc = [] ∧ p.oscPendingEsc = false) ∨ p.InOsc := by
  cases h with
  | idle h hs => exact Or.inl ⟨h, hs⟩
  | text hs ho hp => exact Or.inr (Or.inl ⟨hs, ho, hp⟩)
  | string h => exact Or.inr (Or.inr h)

theorem Settled.idle_of_ground (h : p.Settled) (hs : p.state = .ground) (hu : p.utf8 = []) :
    p.Idle := by
  rcases h.cases with ⟨h, -⟩ | ⟨-, ho, hp⟩ | ⟨-, ⟨hs', -⟩ | ⟨hs', -⟩⟩
  · exact h
  · exact ⟨hu, ho, hp⟩
  · cases hs.symm.trans hs'
  · cases hs.symm.trans hs'

/-! ### The registers of a sequence -/

def RegistersClear (p : Parser) : Prop :=
  p.privateMarker = 0 ∧ p.params = [] ∧ p.curParam = 0 ∧ p.curParamOverflow = false ∧
    p.intermediates = []

/-- A sequence that is opened in the ground state starts with the registers as they are. -/
theorem feed_csi (hi : p.Idle) (hs : p.state = .ground) (bytes : List UInt8) :
    (p.feed (0x1B :: 0x5B :: bytes)).2 = (feed { p with state := .csiEntry } bytes).2 := by
  obtain ⟨hu, ho, hp⟩ := hi
  have hesc : p.advance 0x1B = ({ p with state := .escape }, []) := by
    simp [advance, hs, ground, hu, groundByte, goto]
  have hopen : advance { p with state := .escape } 0x5B = ({ p with state := .csiEntry }, []) := by
    simp [advance, escape, hp, goto]
  simp [feed, outputs, hesc, hopen]

theorem feed_csi_m (hi : p.Idle) (hs : p.state = .ground) :
    (p.feed [0x1B, 0x5B, 0x6D]).2 =
      [.csi ⟨p.privateMarker, p.params, p.intermediates, 0x6D⟩] := by
  rw [feed_csi hi hs]
  rfl

theorem feed_csi_semicolon_m (hi : p.Idle) (hs : p.state = .ground) (hparams : p.params = []) :
    (p.feed [0x1B, 0x5B, 0x3B, 0x6D]).2 =
      [.csi ⟨p.privateMarker, [p.curParam, 0], p.intermediates, 0x6D⟩] := by
  rw [feed_csi hi hs]
  simp [feed, outputs, advance, csiEntry, csiParam, pushParam, emitCsi, hparams, maxCsiParams]

theorem feed_csi_five_m (hi : p.Idle) (hs : p.state = .ground) (hparams : p.params = [])
    (hover : p.curParamOverflow = true) :
    (p.feed [0x1B, 0x5B, 0x35, 0x6D]).2 =
      [.csi ⟨p.privateMarker, [p.curParam], p.intermediates, 0x6D⟩] := by
  rw [feed_csi hi hs]
  simp [feed, outputs, advance, csiEntry, csiParam, pushDigit, pushParam, emitCsi, hparams, hover,
    maxCsiParams]

/-- After any bytes that end in the ground state, outside a character, the parser does with
all later bytes what a new one does with them exactly when no register was left behind. -/
theorem ground_memoryless_iff (u : List UInt8) (hs : (new.feed u).1.state = .ground)
    (hu : (new.feed u).1.utf8 = []) :
    (∀ w, ((new.feed u).1.feed w).2 = (new.feed w).2) ↔ (new.feed u).1.RegistersClear := by
  have hsettled := settled_feed u
  generalize (new.feed u).1 = p at hs hu hsettled ⊢
  have hidle := hsettled.idle_of_ground hs hu
  constructor
  · intro h
    have hplain := h [0x1B, 0x5B, 0x6D]
    rw [feed_csi_m hidle hs, feed_csi_m idle_new rfl] at hplain
    obtain ⟨hprivate, hparams, hinter⟩ : p.privateMarker = 0 ∧ p.params = [] ∧
        p.intermediates = [] := by simpa [new] using hplain
    have hcur : p.curParam = 0 := by
      have hw := h [0x1B, 0x5B, 0x3B, 0x6D]
      rw [feed_csi_semicolon_m hidle hs hparams, feed_csi_semicolon_m idle_new rfl rfl] at hw
      simpa [new, hprivate, hinter] using hw
    refine ⟨hprivate, hparams, hcur, ?_, hinter⟩
    by_contra hover
    have hw := h [0x1B, 0x5B, 0x35, 0x6D]
    have hfive : (new.feed [0x1B, 0x5B, 0x35, 0x6D]).2 = [.csi ⟨0, [5], [], 0x6D⟩] := by decide
    rw [feed_csi_five_m hidle hs hparams (by simpa using hover), hfive, hcur] at hw
    simp at hw
  · rintro ⟨hprivate, hparams, hcur, hover, hinter⟩ w
    have hnew : new = { p with oscTruncated := false, utf8Expected := 0 } := by
      obtain ⟨-, ho, hp⟩ := hidle
      simp [new, hs, hu, hprivate, hparams, hcur, hover, hinter, ho, hp]
    have hresembles : Resembles p new := by
      rw [hnew]
      exact .idle hidle (by rw [hs]; decide) false 0
    exact (hresembles.feed w).symm

/-- A complete sequence leaves nothing behind. -/
theorem completedSequence_memoryless :
    (∀ w, ((new.feed [0x1B, 0x5B, 0x35, 0x6D]).1.feed w).2 = (new.feed w).2) ↔
      (new.feed [0x1B, 0x5B, 0x35, 0x6D]).1.RegistersClear :=
  ground_memoryless_iff [0x1B, 0x5B, 0x35, 0x6D] rfl rfl

/-- A private sequence that is cancelled right after its marker makes a mode of the next
plain one private. -/
theorem cancelledPrivate_not_memoryless :
    let p := (new.feed [0x1B, 0x5B, 0x3F, 0x18]).1
    p.state = .ground ∧ p.utf8 = [] ∧
      (p.feed [0x1B, 0x5B, 0x35, 0x68]).2 ≠ (new.feed [0x1B, 0x5B, 0x35, 0x68]).2 := by
  decide

/-! ### Ways back to the ground state -/

/-- In the ground state, outside characters and strings. -/
def AtRest (p : Parser) : Prop := p.state = .ground ∧ p.Idle

/-- Inside a string, or right after an ESC that may end it; not right after an ESC inside an
OSC string. -/
def InString (p : Parser) : Prop :=
  p.state = .oscString ∨ p.state = .dcsEntry ∨ p.state = .dcsPassthrough ∨ p.state = .sosPmApc ∨
    (p.state = .escape ∧ p.oscPendingEsc = false)

theorem atRest_of_cancel (h : p.Settled) (hp : p.oscPendingEsc = false)
    (hb : byte = 0x18 ∨ byte = 0x1A) : (p.advance byte).1.AtRest := by
  rcases h.cases with ⟨⟨hu, ho, -⟩, hs⟩ | ⟨hs, ho, -⟩ | ⟨hu, ⟨hs, -⟩ | ⟨-, hp'⟩⟩
  · rcases hb with rfl | rfl <;> cases hst : p.state <;>
      simp [advance, AtRest, Idle, hst, hu, ho, hp, ground, groundByte, escape, goto,
        escapeIntermediate, charsetSelect, lineAttributes, backToGround, csiEntry, csiParam,
        csiIntermediate, dcsEntry, dcsPassthrough, sosPmApc] <;>
      exact absurd hst hs
  · -- a character that is cut short is given up, and the byte is taken on its own
    cases hu : p.utf8 <;> rcases hb with rfl | rfl <;>
      simp [advance, AtRest, Idle, hs, hu, ho, hp, ground, groundByte, utf8Continue]
  · rcases hb with rfl | rfl <;> simp [advance, AtRest, Idle, hs, hu, hp, oscString]
  · cases hp.symm.trans hp'

/-- An ESC inside a string, and the backslash after it. -/
theorem atRest_of_stringTerminator (h : p.Settled) (hin : p.InString) :
    (p.feed [0x1B, 0x5C]).1.AtRest := by
  have hu : p.utf8 = [] := by
    rcases h.cases with ⟨⟨hu, -⟩, -⟩ | ⟨hs, -⟩ | ⟨hu, -⟩
    · exact hu
    · simp [InString, hs] at hin
    · exact hu
  rcases h.cases with ⟨⟨-, ho, hp⟩, hs⟩ | ⟨hs, -⟩ | ⟨-, ⟨hs, hp⟩ | ⟨hs, hp⟩⟩
  · rcases hin with hst | hst | hst | hst | ⟨hst, -⟩
    · exact absurd hst hs
    all_goals simp [feed, advance, AtRest, Idle, hst, hu, ho, hp, escape, goto, dcsEntry,
      dcsPassthrough, sosPmApc]
  · simp [InString, hs] at hin
  · simp [feed, advance, AtRest, Idle, hs, hu, oscString, escape, endOsc]
  · simp [InString, hs, hp] at hin

/-- CAN and SUB lead back to the ground state and ESC followed by a backslash closes a string,
except right after an ESC inside an OSC string. There a backslash closes the string, and any
other byte resumes it, with the ESC dropped. -/
structure Resynchronises (p : Parser) : Prop where
  cancel : p.oscPendingEsc = false → ∀ byte, byte = 0x18 ∨ byte = 0x1A → (p.advance byte).1.AtRest
  close : p.InString → (p.feed [0x1B, 0x5C]).1.AtRest
  closePending : p.oscPendingEsc = true → (p.advance 0x5C).1.AtRest
  resume : p.oscPendingEsc = true → ∀ byte ≠ 0x5C,
    p.advance byte = ({ p with state := .oscString, oscPendingEsc := false }, [])

/-- Right after an ESC inside an OSC string the parser is not inside a character. -/
theorem Settled.of_pendingEsc {p : Parser} (h : p.Settled) (hp : p.oscPendingEsc = true) :
    p.utf8 = [] ∧ p.state = .escape := by
  rcases h.cases with ⟨⟨-, -, hp'⟩, -⟩ | ⟨-, -, hp'⟩ | ⟨hu, ⟨-, hp'⟩ | ⟨hs, -⟩⟩
  · cases hp'.symm.trans hp
  · cases hp'.symm.trans hp
  · cases hp'.symm.trans hp
  · exact ⟨hu, hs⟩

theorem resynchronises (u : List UInt8) : Resynchronises (new.feed u).1 := by
  have hsettled := settled_feed u
  constructor
  · exact fun hp byte => atRest_of_cancel hsettled hp
  · exact atRest_of_stringTerminator hsettled
  · intro hp
    obtain ⟨hu, hs⟩ := hsettled.of_pendingEsc hp
    simp [advance, AtRest, Idle, hs, hp, hu, escape, endOsc]
  · intro hp byte hne
    obtain ⟨-, hs⟩ := hsettled.of_pendingEsc hp
    simp [advance, hs, hp, escape, hne, goto]

/-- CAN and SUB lead back to the ground state, and an ESC followed by a backslash closes every
string, also right after an ESC inside it. -/
structure Recovers (p : Parser) : Prop where
  cancel : ∀ byte, byte = 0x18 ∨ byte = 0x1A → (p.advance byte).1.AtRest
  close : p.InString ∨ p.state = .escape → (p.feed [0x1B, 0x5C]).1.AtRest

/-- The parser recovers wherever it is not right after an ESC inside an OSC string: there it drops
the next byte with the ESC. -/
theorem recovers_iff (u : List UInt8) :
    (new.feed u).1.Recovers ↔ (new.feed u).1.oscPendingEsc = false := by
  have h := resynchronises u
  constructor
  · intro hr
    by_contra hp
    rw [Bool.not_eq_false] at hp
    have hground := (hr.cancel 0x18 (.inl rfl)).1
    rw [h.resume hp 0x18 (by decide)] at hground
    cases hground
  · intro hp
    refine ⟨h.cancel hp, ?_⟩
    rintro (hin | hs)
    · exact h.close hin
    · exact h.close (.inr (.inr (.inr (.inr ⟨hs, hp⟩))))

/-- Right after an ESC inside an OSC string, neither CAN nor ESC and a backslash closes it. -/
theorem pendingEsc_not_resynchronised :
    let p := (new.feed [0x1B, 0x5D, 0x1B]).1
    (p.advance 0x18).1.state = .oscString ∧ (p.feed [0x1B, 0x5C]).1.state = .oscString := by
  decide

end Ferrokey.Terminal.Parser
