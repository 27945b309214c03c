import Ferrokey.Terminal.CsiText

/-! # Escape inside a control sequence

An ESC inside a control sequence is meant to drop it and to start the next sequence. Only
among the parameters it does: at the entry and behind an intermediate the ESC is taken for
the byte that ends the sequence, and what follows it is read as text.
-/

namespace Ferrokey.Terminal.Parser

variable {p : Parser}

/-- Inside a control sequence. -/
def InCsi (p : Parser) : Prop :=
  p.state = .csiEntry ∨ p.state = .csiParam ∨ p.state = .csiIntermediate

/-- An ESC and any bytes behind it do what they do from the start. -/
def EscapeAborts (p : Parser) : Prop := ∀ w, (p.feed (0x1B :: w)).2 = (new.feed (0x1B :: w)).2

theorem Settled.idle_of_inCsi (h : p.Settled) (hin : p.InCsi) : p.Idle := by
  rcases h.cases with ⟨hi, -⟩ | ⟨hs, -⟩ | ⟨-, ⟨hs, -⟩ | ⟨hs, -⟩⟩
  · exact hi
  all_goals simp [InCsi, hs] at hin

/-- Among the parameters an ESC clears the registers. -/
theorem resembles_of_escape (hi : p.Idle) (hs : p.state = .csiParam) :
    (p.advance 0x1B).2 = [] ∧ Resembles (new.advance 0x1B).1 (p.advance 0x1B).1 := by
  obtain ⟨hu, ho, hp⟩ := hi
  have hadvance : p.advance 0x1B = ({ (new.advance 0x1B).1 with
      oscTruncated := p.oscTruncated, utf8Expected := p.utf8Expected }, []) := by
    simp [advance, hs, csiParam, ground, resetSequence, groundByte, goto, hu, ho, hp, new]
  rw [hadvance]
  exact ⟨rfl, .idle ⟨rfl, rfl, rfl⟩ (show State.escape ≠ .oscString by decide) p.oscTruncated
    p.utf8Expected⟩

/-- Elsewhere in a sequence an ESC is swallowed, and a bracket behind it is printed. -/
theorem feed_escape_bracket (hi : p.Idle) (hs : p.state = .csiEntry ∨ p.state = .csiIntermediate) :
    (p.feed [0x1B, 0x5B]).2 = [.print '['] := by
  have hescape : p.advance 0x1B = p.goto .ground := by
    rcases hs with hs | hs <;> simp [advance, hs, csiEntry, csiIntermediate]
  have hbracket : (advance { p with state := .ground } 0x5B).2 = [.print '['] := by
    simp [advance, ground, hi.1, groundByte]
  rw [feed_cons, hescape, goto, feed_cons, hbracket]
  rfl

/-- In a control sequence an ESC and what follows do what they do from the start exactly if the
parser is among the parameters. -/
theorem escapeAborts_iff (u : List UInt8) (hin : (new.feed u).1.InCsi) :
    (new.feed u).1.EscapeAborts ↔ (new.feed u).1.state = .csiParam := by
  have hidle := (settled_feed u).idle_of_inCsi hin
  generalize (new.feed u).1 = p at hin hidle ⊢
  constructor
  · intro h
    by_contra hs
    have helse : p.state = .csiEntry ∨ p.state = .csiIntermediate := by
      rcases hin with hentry | hparam | hinter
      · exact .inl hentry
      · exact absurd hparam hs
      · exact .inr hinter
    have hprinted := h [0x5B]
    rw [feed_escape_bracket hidle helse] at hprinted
    cases hprinted
  · intro hs w
    obtain ⟨hsilent, hresembles⟩ := resembles_of_escape hidle hs
    rw [feed_cons, feed_cons, hsilent, hresembles.feed w]
    rfl

/-- Behind `CSI 5` an ESC drops the sequence. -/
theorem numeral_escapeAborts_iff : (new.feed [0x1B, 0x5B, 0x35]).1.EscapeAborts ↔
    (new.feed [0x1B, 0x5B, 0x35]).1.state = .csiParam :=
  escapeAborts_iff [0x1B, 0x5B, 0x35] (.inr (.inl rfl))

/-- Behind `CSI ?` an ESC and `[A` print the two characters. -/
theorem marker_not_escapeAborts : (new.feed [0x1B, 0x5B, 0x3F]).1.InCsi ∧
    ¬ (new.feed [0x1B, 0x5B, 0x3F]).1.EscapeAborts := by
  refine ⟨.inl rfl, fun h => ?_⟩
  have hprinted : ((new.feed [0x1B, 0x5B, 0x3F]).1.feed [0x1B, 0x5B, 0x41]).2 ≠
      (new.feed [0x1B, 0x5B, 0x41]).2 := by decide
  exact hprinted (h [0x5B, 0x41])

end Ferrokey.Terminal.Parser
