import Ferrokey.Framing.Incremental
import Ferrokey.Protocol.RoundTrip

/-! # The streaming decoder

`push` appends bytes to the buffer and takes complete frames off its front. It
returns all the messages of a push or a fatal error, so the messages decoded
in the same push as the error are lost with it.
-/

namespace Ferrokey.Protocol

open Framing

/-- The payload length of a complete frame at the front of a buffer; `none` is a partial
frame that waits for more. -/
def frameLen (buf : List UInt8) : Except CodecError (Option ℕ) :=
  if buf.length < headerLen then .ok none
  else if buf.take 4 ≠ magic then .error (.malformed s!"bad magic {hexBytes (buf.take 4)}")
  else
    let len := leNat ((buf.drop 4).take 2)
    if maxFrameLen < len then .error (.tooLarge len)
    else if buf.length < headerLen + len then .ok none
    else .ok (some len)

/-- One turn of the decoding loop: the message of a complete frame at the front and the
buffer behind it. -/
def nextMessage (buf : List UInt8) : Except CodecError (Option (Message × List UInt8)) :=
  match frameLen buf with
  | .error e => .error e
  | .ok none => .ok none
  | .ok (some len) =>
    match decodePayload ((buf.take (headerLen + len)).drop headerLen) with
    | .error e => .error e
    | .ok msg => .ok (some (msg, buf.drop (headerLen + len)))

section

variable {buf : List UInt8} {len : ℕ} {e : CodecError}

theorem frameLen_eq_some_iff : frameLen buf = .ok (some len) ↔
    buf.take 4 = magic ∧ leNat ((buf.drop 4).take 2) = len ∧ len ≤ maxFrameLen ∧
      headerLen + len ≤ buf.length := by
  unfold frameLen
  constructor
  · intro h
    split at h
    · cases h
    split at h
    · cases h
    dsimp only at h
    split at h
    · cases h
    split at h
    · cases h
    cases h
    simp_all
  · rintro ⟨hm, rfl, hmax, hlen⟩
    have hh : ¬ buf.length < headerLen := by omega
    simp [hh, hm, Nat.not_lt.mpr hmax, Nat.not_lt.mpr hlen]

/-- A buffer that is not a partial header keeps its header when more bytes come. -/
theorem header_append (h : headerLen ≤ buf.length) (x : List UInt8) :
    (buf ++ x).take 4 = buf.take 4 ∧ ((buf ++ x).drop 4).take 2 = (buf.drop 4).take 2 := by
  have h6 : 6 ≤ buf.length := h
  rw [List.take_append_of_le_length (by omega), List.drop_append_of_le_length (by omega),
    List.take_append_of_le_length (by simp; omega)]
  exact ⟨rfl, rfl⟩

theorem frameLen_append_error (h : frameLen buf = .error e) (x : List UInt8) :
    frameLen (buf ++ x) = .error e := by
  by_cases hh : buf.length < headerLen
  · simp [frameLen, hh] at h
  obtain ⟨htake, hdrop⟩ := header_append (Nat.not_lt.mp hh) x
  have hh' : ¬ (buf ++ x).length < headerLen := by simp; omega
  unfold frameLen at h ⊢
  rw [if_neg hh] at h
  rw [if_neg hh', htake, hdrop]
  split at h
  · next hm => rw [if_pos hm]; exact h
  next hm =>
  rw [if_neg hm]
  dsimp only at h ⊢
  split at h
  · next hmax => rw [if_pos hmax]; exact h
  · split at h <;> cases h

theorem frameLen_append_some (h : frameLen buf = .ok (some len)) (x : List UInt8) :
    frameLen (buf ++ x) = .ok (some len) := by
  obtain ⟨hm, hl, hmax, hlen⟩ := frameLen_eq_some_iff.mp h
  obtain ⟨htake, hdrop⟩ := header_append ((Nat.le_add_right _ len).trans hlen) x
  exact frameLen_eq_some_iff.mpr ⟨htake ▸ hm, hdrop ▸ hl, hmax, by simp; omega⟩

/-- What is left in the buffer while a frame is incomplete is bounded. -/
theorem length_lt_of_frameLen_none (h : frameLen buf = .ok none) :
    buf.length < headerLen + maxFrameLen := by
  by_cases hh : buf.length < headerLen
  · omega
  unfold frameLen at h
  rw [if_neg hh] at h
  split at h
  · cases h
  dsimp only at h
  split at h
  · cases h
  split at h
  · omega
  · cases h

theorem nextMessage_eq_some_iff {msg : Message} {rest : List UInt8} :
    nextMessage buf = .ok (some (msg, rest)) ↔ ∃ len, frameLen buf = .ok (some len) ∧
      decodePayload ((buf.take (headerLen + len)).drop headerLen) = .ok msg ∧
      rest = buf.drop (headerLen + len) := by
  unfold nextMessage
  constructor
  · intro h
    split at h
    · cases h
    · cases h
    next len hl =>
    split at h
    · cases h
    next msg' hd =>
    cases h
    exact ⟨len, hl, hd, rfl⟩
  · rintro ⟨len, hl, hd, rfl⟩
    simp [hl, hd]

theorem frameLen_of_nextMessage_none (h : nextMessage buf = .ok none) :
    frameLen buf = .ok none := by
  unfold nextMessage at h
  split at h
  · cases h
  · next hl => exact hl
  · split at h <;> cases h

end

/-- The decoding loop's view of a buffer. -/
def framer : Framer UInt8 Message CodecError where
  peel := nextMessage
  shorter := by
    intro buf msg rest h
    obtain ⟨len, hl, -, rfl⟩ := nextMessage_eq_some_iff.mp h
    have hlen := (frameLen_eq_some_iff.mp hl).2.2.2
    simp only [List.length_drop, headerLen] at hlen ⊢
    omega
  stable := by
    intro buf msg rest x h
    obtain ⟨len, hl, hd, rfl⟩ := nextMessage_eq_some_iff.mp h
    have hlen := (frameLen_eq_some_iff.mp hl).2.2.2
    refine nextMessage_eq_some_iff.mpr ⟨len, frameLen_append_some hl x, ?_, ?_⟩
    · rw [List.take_append_of_le_length hlen]
      exact hd
    · rw [List.drop_append_of_le_length hlen]
  fatal := by
    intro buf e x h
    cases hl : frameLen buf with
    | error e' =>
      have he : e' = e := by simpa [nextMessage, hl] using h
      simp [nextMessage, frameLen_append_error hl, he]
    | ok o =>
      cases o with
      | none => simp [nextMessage, hl] at h
      | some len =>
        have hlen := (frameLen_eq_some_iff.mp hl).2.2.2
        simp only [nextMessage, hl] at h
        simp only [nextMessage, frameLen_append_some hl, List.take_append_of_le_length hlen]
        cases hd : decodePayload ((buf.take (headerLen + len)).drop headerLen) with
        | error e' => rw [hd] at h; exact h
        | ok msg => rw [hd] at h; cases h

structure Decoder where
  buf : List UInt8
  deriving DecidableEq

namespace Decoder

def new : Decoder := ⟨[]⟩

def buffered (d : Decoder) : ℕ := d.buf.length

/-- Feed more bytes: all complete messages that could be parsed, or a fatal error that
drops what was buffered. -/
def push (d : Decoder) (bytes : List UInt8) : Decoder × Except CodecError (List Message) :=
  match framer.parse (d.buf ++ bytes) with
  | (_, .error e) => (⟨[]⟩, .error e)
  | (messages, .ok rest) =>
    if headerLen + maxFrameLen < rest.length then
      (⟨[]⟩, .error (.malformed
        s!"stream would exceed the maximum buffered frame size ({headerLen + maxFrameLen} bytes)"))
    else (⟨rest⟩, .ok messages)

/-- Push chunks in order, up to and including the first push that errs: the messages
delivered, and the error or the decoder at the end. -/
def feed : Decoder → List (List UInt8) → List Message × Except CodecError Decoder
  | d, [] => ([], .ok d)
  | d, c :: cs =>
    match d.push c with
    | (_, .error e) => ([], .error e)
    | (d', .ok messages) => (messages ++ (feed d' cs).1, (feed d' cs).2)

/-- The bound on the rest is never met: a push is the parse of the buffer. -/
theorem push_eq (d : Decoder) (bytes : List UInt8) :
    d.push bytes = match framer.parse (d.buf ++ bytes) with
      | (_, .error e) => (⟨[]⟩, .error e)
      | (messages, .ok rest) => (⟨rest⟩, .ok messages) := by
  unfold push
  split
  · rfl
  · next messages rest hp =>
    have hrest := length_lt_of_frameLen_none (frameLen_of_nextMessage_none (Framer.peel_rest hp))
    rw [if_neg (by omega)]

/-- Feeding a decoder is reading its buffer and the chunks through the framer. -/
theorem feed_eq (d : Decoder) (chunks : List (List UInt8)) :
    d.feed chunks = ((framer.feed d.buf chunks).1, (framer.feed d.buf chunks).2.map Decoder.mk) := by
  induction chunks generalizing d with
  | nil => rfl
  | cons c cs ih =>
    rw [feed, push_eq, Framer.feed]
    cases framer.parse (d.buf ++ c) with
    | mk messages r =>
      cases r with
      | error e => rfl
      | ok rest => simp [ih]

theorem new_waits : framer.peel new.buf = .ok none := rfl

end Decoder

section Frames

theorem nextMessage_encode {msg : Message} {frame : List UInt8} (h : encode msg = .ok frame)
    (x : List UInt8) : framer.peel (frame ++ x) = .ok (some (msg, x)) := by
  obtain ⟨payload, hp, rfl⟩ := encode_eq_ok_iff.mp h
  have hlen := length_encodePayload hp
  have hl : leNat (leBytes 2 payload.length) = payload.length :=
    leNat_leBytes (hlen.trans_lt (by decide))
  have hh : (magic ++ leBytes 2 payload.length).length = headerLen := by simp [magic, headerLen]
  refine nextMessage_eq_some_iff.mpr ⟨payload.length, frameLen_eq_some_iff.mpr ?_, ?_, ?_⟩
  · refine ⟨rfl, ?_, hlen, ?_⟩
    · simpa [magic] using hl
    · simp [magic, headerLen]
      omega
  · rw [← decodePayload_of_encodePayload hp, ← hh, List.append_assoc, List.take_length_add_append,
      List.drop_left, List.take_left]
  · rw [← hh, List.append_assoc, List.drop_length_add_append, List.drop_left]

end Frames

end Ferrokey.Protocol
