import Ferrokey.Framing.Utf8
import Ferrokey.Terminal.CsiText

/-! # Text goes through the parser

In the ground state text without controls is printed, character by character, wherever
the stream is cut into reads. A character that was cut off before it is printed as a
replacement as soon as the next character begins; until then the parser waits for the
rest of it.
-/

namespace Ferrokey.Terminal

open Machine Protocol Framing

/-- A character that is neither a C0 control nor DEL. -/
abbrev TextChar := {c : Char // 0x1F < c.toNat ∧ c.toNat ≠ 0x7F}

/-- The bytes of a text. -/
def textBytes (s : List TextChar) : List UInt8 := utf8Bytes (s.map Subtype.val)

/-- The beginning of a character whose end is missing. -/
structure Truncated where
  ch : Char
  bytes : List UInt8
  nonempty : bytes ≠ []
  beginning : bytes <+: String.utf8EncodeChar ch
  proper : bytes ≠ String.utf8EncodeChar ch

namespace Parser

variable {p q : Parser}

/-- Feed one read after the other. -/
def feedAll (p : Parser) (chunks : List (List UInt8)) : Parser × List ParserAction :=
  (run feed p chunks, (outputs feed p chunks).flatten)

theorem feedAll_eq (p : Parser) (chunks : List (List UInt8)) :
    p.feedAll chunks = p.feed chunks.flatten := by
  induction chunks generalizing p with
  | nil => rfl
  | cons chunk chunks ih =>
    rw [List.flatten_cons, feed_append, ← ih]
    rfl

/-- The reads give these actions, and the parser is between characters in the ground state. -/
def Emits (p : Parser) (chunks : List (List UInt8)) (actions : List ParserAction) : Prop :=
  (p.feedAll chunks).2 = actions ∧ (p.feedAll chunks).1.state = .ground ∧
    (p.feedAll chunks).1.utf8 = []

/-! ### One character -/

/-- The parser inside a character, or right behind one. -/
def inChar (p : Parser) (utf8 : List UInt8) (utf8Expected : ℕ) : Parser :=
  { p with utf8, utf8Expected }

theorem expectedLen_eq (byte : UInt8) : expectedLen byte = sequenceLength byte := rfl

theorem decodeUtf8_encode (c : Char) : decodeUtf8 (String.utf8EncodeChar c) = [.print c] := by
  have hbytes : asBytes (String.ofList [c]) = String.utf8EncodeChar c := by
    simp [asBytes, List.utf8Encode_singleton, List.data_toByteArray]
  rw [decodeUtf8, fromUtf8_eq_some_iff.mpr hbytes]
  simp

theorem advance_ascii (hs : p.state = .ground) (hu : p.utf8 = []) (c : TextChar)
    (h : c.val.toNat ≤ 0x7F) :
    p.advance (UInt8.ofNat c.val.toNat) = (p, [.print c.val]) := by
  obtain ⟨hlo, hdel⟩ := c.2
  have hnat : (UInt8.ofNat c.val.toNat).toNat = c.val.toNat := by
    rw [UInt8.toNat_ofNat']
    omega
  have hprint : ¬ (UInt8.ofNat c.val.toNat ≤ 0x17 ∨ UInt8.ofNat c.val.toNat = 0x19 ∨
        (0x1C ≤ UInt8.ofNat c.val.toNat ∧ UInt8.ofNat c.val.toNat ≤ 0x1F)) ∧
      ¬ (UInt8.ofNat c.val.toNat = 0x18 ∨ UInt8.ofNat c.val.toNat = 0x1A ∨
        UInt8.ofNat c.val.toNat = 0x7F) ∧ UInt8.ofNat c.val.toNat ≠ 0x1B ∧
      (0x20 ≤ UInt8.ofNat c.val.toNat ∧ UInt8.ofNat c.val.toNat ≤ 0x7E) := by
    simp only [UInt8.le_iff_toNat_le, ne_eq, ← UInt8.toNat_inj, UInt8.reduceToNat, hnat]
    omega
  obtain ⟨hcontrol, hignored, hescape, hgraphic⟩ := hprint
  have hground : p.advance (UInt8.ofNat c.val.toNat) = p.groundByte (UInt8.ofNat c.val.toNat) := by
    simp [advance, hs, ground, hu]
  rw [hground, groundByte, if_neg hcontrol, if_neg hignored, if_neg hescape, if_pos hgraphic, hnat,
    Char.ofNat_toNat]

theorem advance_lead (hs : p.state = .ground) (hu : p.utf8 = []) {lead : UInt8}
    (h : sequenceLength lead ≠ 0) :
    p.advance lead = (p.inChar [lead] (sequenceLength lead), []) := by
  have hrange := lead_of_sequenceLength h
  have hlead : ¬ (lead ≤ 0x17 ∨ lead = 0x19 ∨ (0x1C ≤ lead ∧ lead ≤ 0x1F)) ∧
      ¬ (lead = 0x18 ∨ lead = 0x1A ∨ lead = 0x7F) ∧ lead ≠ 0x1B ∧
      ¬ (0x20 ≤ lead ∧ lead ≤ 0x7E) ∧ ¬ (0x80 ≤ lead ∧ lead ≤ 0x9F) := by
    simp only [UInt8.le_iff_toNat_le, ne_eq, ← UInt8.toNat_inj, UInt8.reduceToNat] at hrange ⊢
    omega
  obtain ⟨hcontrol, hignored, hescape, hgraphic, hc1⟩ := hlead
  have hground : p.advance lead = p.groundByte lead := by simp [advance, hs, ground, hu]
  rw [hground, groundByte, if_neg hcontrol, if_neg hignored, if_neg hescape, if_neg hgraphic,
    if_neg hc1, utf8Lead, expectedLen_eq, if_neg h]
  rfl

section

variable {kept : List UInt8} {n : ℕ} {byte : UInt8}

theorem advance_inChar (hs : p.state = .ground) (hk : kept ≠ []) (byte : UInt8) :
    (p.inChar kept n).advance byte = (p.inChar kept n).utf8Continue byte := by
  simp [advance, inChar, hs, ground, List.isEmpty_iff, hk]

/-- Inside a character a continuation byte is kept, and the last of them ends it. -/
theorem advance_continuation (hs : p.state = .ground) (hk : kept ≠ []) (h : IsContinuation byte) :
    (p.inChar kept n).advance byte = if kept.length + 1 = n then
        (p.inChar [] n, decodeUtf8 (kept ++ [byte]))
      else (p.inChar (kept ++ [byte]) n, []) := by
  have hrange : 0x80 ≤ byte ∧ byte ≤ 0xBF := h
  rw [advance_inChar hs hk, utf8Continue, if_pos hrange]
  simp [inChar]

/-- Inside a character any other byte gives the character up and is taken on its own. -/
theorem advance_interrupt (hs : p.state = .ground) (hk : kept ≠ []) (h : ¬ IsContinuation byte) :
    (p.inChar kept n).advance byte = (((p.inChar [] n).advance byte).1,
      .print replacement :: ((p.inChar [] n).advance byte).2) := by
  have hrange : ¬ (0x80 ≤ byte ∧ byte ≤ 0xBF) := h
  have hground : (p.inChar [] n).advance byte = (p.inChar [] n).groundByte byte := by
    simp [advance, inChar, hs, ground]
  rw [advance_inChar hs hk, utf8Continue, if_neg hrange, hground]
  rfl

theorem feed_continuations {bytes : List UInt8} (hbytes : ∀ b ∈ bytes, IsContinuation b)
    (hs : p.state = .ground) (hk : kept ≠ []) (hroom : kept.length + bytes.length < n) :
    (p.inChar kept n).feed bytes = (p.inChar (kept ++ bytes) n, []) := by
  induction bytes generalizing kept with
  | nil => rw [List.append_nil, feed_nil]
  | cons byte bytes ih =>
    rw [List.length_cons] at hroom
    have hstep : (p.inChar kept n).advance byte = (p.inChar (kept ++ [byte]) n, []) := by
      rw [advance_continuation hs hk (hbytes byte List.mem_cons_self), if_neg (by omega)]
    have hrest : ∀ b ∈ bytes, IsContinuation b := fun b hb => hbytes b (List.mem_cons_of_mem _ hb)
    have hlen : (kept ++ [byte]).length + bytes.length < n := by
      rw [List.length_append, List.length_singleton]
      omega
    rw [feed_cons_of_silent hstep, ih hrest (by simp) hlen, List.append_assoc,
      List.singleton_append]

end

theorem feed_char (hs : p.state = .ground) (hu : p.utf8 = []) (c : TextChar) : ∃ n,
    p.feed (String.utf8EncodeChar c) = (p.inChar [] n, [.print c.val]) := by
  by_cases hascii : c.val.toNat ≤ 0x7F
  · refine ⟨p.utf8Expected, ?_⟩
    rw [utf8EncodeChar_ascii hascii, feed_cons, advance_ascii hs hu c hascii, feed_nil, inChar,
      ← hu]
    rfl
  · obtain ⟨lead, rest, henc, hlen, hne, hcont⟩ :=
      utf8EncodeChar_sequence (Nat.not_le.mp hascii)
    obtain ⟨init, last, rfl⟩ : ∃ init last, rest = init ++ [last] :=
      ⟨_, _, (List.dropLast_append_getLast hne).symm⟩
    rw [List.length_append, List.length_singleton] at hlen
    have hinit : ∀ b ∈ init, IsContinuation b := fun b hb => hcont b (List.mem_append_left _ hb)
    have hlast : IsContinuation last := hcont last (by simp)
    have hlead := advance_lead hs hu (show sequenceLength lead ≠ 0 by omega)
    have hmiddle : (p.inChar [lead] (sequenceLength lead)).feed init =
        (p.inChar (lead :: init) (sequenceLength lead), []) :=
      feed_continuations hinit hs (by simp) (by simp; omega)
    have hend : (p.inChar (lead :: init) (sequenceLength lead)).advance last =
        (p.inChar [] (sequenceLength lead), [.print c.val]) := by
      have hwhole : lead :: init ++ [last] = String.utf8EncodeChar c.val := by rw [henc]; rfl
      rw [advance_continuation hs (by simp) hlast, if_pos (by simp; omega), hwhole,
        decodeUtf8_encode]
    refine ⟨sequenceLength lead, ?_⟩
    rw [henc, feed_cons_of_silent hlead, feed_append_of_silent hmiddle, feed_cons, hend, feed_nil]
    rfl

theorem feed_text (hs : p.state = .ground) (hu : p.utf8 = []) (s : List TextChar) : ∃ n,
    p.feed (textBytes s) = (p.inChar [] n, s.map fun c => .print c.val) := by
  induction s generalizing p with
  | nil => exact ⟨p.utf8Expected, by rw [inChar, ← hu]; rfl⟩
  | cons c s ih =>
    obtain ⟨n, hc⟩ := feed_char hs hu c
    obtain ⟨m, hrest⟩ := ih (p := p.inChar [] n) hs rfl
    refine ⟨m, ?_⟩
    change p.feed (String.utf8EncodeChar c.val ++ textBytes s) = _
    rw [feed_append, hc, hrest]
    rfl

/-! ### A text after what was cut off -/

theorem feed_truncated (hs : p.state = .ground) (hu : p.utf8 = []) (cut : Truncated) :
    ∃ n, p.feed cut.bytes = (p.inChar cut.bytes n, []) := by
  obtain ⟨lead, rest, hcut, hroom, hcont⟩ :=
    utf8EncodeChar_prefix cut.nonempty cut.beginning cut.proper
  have hlead := advance_lead hs hu (show sequenceLength lead ≠ 0 by omega)
  refine ⟨sequenceLength lead, ?_⟩
  rw [hcut, feed_cons_of_silent hlead]
  exact feed_continuations hcont hs (by simp) (by simp; omega)

theorem feed_truncated_text (hs : p.state = .ground) (hu : p.utf8 = []) (cut : Truncated)
    (c : TextChar) (s : List TextChar) : ∃ n, p.feed (cut.bytes ++ textBytes (c :: s)) =
      (p.inChar [] n, .print replacement :: (c :: s).map fun c => .print c.val) := by
  obtain ⟨n, hcut⟩ := feed_truncated hs hu cut
  obtain ⟨m, htext⟩ := feed_text (p := p.inChar [] n) hs rfl (c :: s)
  obtain ⟨byte, bytes, hfirst, hnot⟩ := utf8EncodeChar_first c.val
  have hbytes : textBytes (c :: s) = byte :: (bytes ++ textBytes s) := by
    change String.utf8EncodeChar c.val ++ textBytes s = _
    rw [hfirst, List.cons_append]
  refine ⟨m, ?_⟩
  rw [hbytes, feed_cons] at htext
  rw [feed_append_of_silent hcut, hbytes, feed_cons, advance_interrupt hs cut.nonempty hnot]
  exact congrArg (fun r => (r.1, .print replacement :: r.2)) htext

/-- In the ground state, between characters, text is printed as it is, however it is cut into
reads, also behind a character that was cut off, which is replaced when the text begins. -/
theorem transparent (hs : p.state = .ground) (hu : p.utf8 = []) :
    (∀ (s : List TextChar) (chunks : List (List UInt8)), chunks.flatten = textBytes s →
      p.Emits chunks (s.map fun c => .print c.val)) ∧
    ∀ (cut : Truncated) (c : TextChar) (s : List TextChar) (chunks : List (List UInt8)),
      chunks.flatten = cut.bytes ++ textBytes (c :: s) →
        p.Emits chunks (.print replacement :: (c :: s).map fun c => .print c.val) := by
  constructor
  · intro s chunks hchunks
    obtain ⟨n, htext⟩ := feed_text hs hu s
    rw [Emits, feedAll_eq, hchunks, htext]
    exact ⟨rfl, hs, rfl⟩
  · intro cut c s chunks hchunks
    obtain ⟨n, htext⟩ := feed_truncated_text hs hu cut c s
    rw [Emits, feedAll_eq, hchunks, htext]
    exact ⟨rfl, hs, rfl⟩

theorem new_transparent :
    (∀ (s : List TextChar) (chunks : List (List UInt8)), chunks.flatten = textBytes s →
      new.Emits chunks (s.map fun c => .print c.val)) ∧
    ∀ (cut : Truncated) (c : TextChar) (s : List TextChar) (chunks : List (List UInt8)),
      chunks.flatten = cut.bytes ++ textBytes (c :: s) →
        new.Emits chunks (.print replacement :: (c :: s).map fun c => .print c.val) :=
  transparent rfl rfl

/-- Before anything follows the first byte of a euro sign, nothing is printed for it. -/
theorem cutEuro_not_replaced : ∃ cut : Truncated,
    ¬ new.Emits [cut.bytes ++ textBytes []] [.print replacement] :=
  ⟨⟨'€', [0xE2], by decide, by decide, by decide⟩, fun h => absurd h.1 (by decide)⟩

end Parser

end Ferrokey.Terminal
