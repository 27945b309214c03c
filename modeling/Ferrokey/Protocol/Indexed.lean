import Ferrokey.Collections.Checked
import Ferrokey.Protocol.Decoder

/-! # Decoding with checked indices

The decoder as it indexes and slices its buffers. `none` is an index out of range, a
length below zero or a loop that has not ended. The results are those of the decoder
that takes its buffers apart by patterns.
-/

namespace Ferrokey.Protocol

open Framing

/-- A slice of bytes, refused where its bounds are out of order or out of range. -/
def slice (bytes : List UInt8) (i j : ℕ) : Option (List UInt8) :=
  if i ≤ j ∧ j ≤ bytes.length then some ((bytes.take j).drop i) else none

namespace Indexed

def frameLen (buf : List UInt8) : Option (Except CodecError (Option ℕ)) :=
  if buf.length < headerLen then some (.ok none)
  else do
    let head ← slice buf 0 4
    if head ≠ magic then some (.error (.malformed s!"bad magic {hexBytes head}"))
    else
      let lo ← buf[4]?
      let hi ← buf[5]?
      let len := leNat [lo, hi]
      if maxFrameLen < len then some (.error (.tooLarge len))
      else if buf.length < headerLen + len then some (.ok none)
      else some (.ok (some len))

def takeString (payload : List UInt8) (pos : ℕ) : Option (Except CodecError (String × ℕ)) := do
  let remaining ← Checked.sub payload.length pos
  if remaining < 2 then some (.error (.malformed "truncated string length"))
  else
    let lo ← payload[pos]?
    let hi ← payload[pos + 1]?
    let len := leNat [lo, hi]
    if maxStringLen < len then some (.error (.stringTooLong len))
    else if payload.length < pos + 2 + len then some (.error (.malformed "truncated string body"))
    else
      let body ← slice payload (pos + 2) (pos + 2 + len)
      match fromUtf8 body with
      | none => some (.error (.malformed "string is not valid UTF-8"))
      | some s => some (.ok (s, pos + 2 + len))

def decodeKey (payload : List UInt8) (msg : UInt16 → Message) :
    Option (Except CodecError Message) :=
  if payload.length ≠ 3 then
    some (.error (.malformed s!"key message with payload length {payload.length} (expected 3)"))
  else do
    let lo ← payload[1]?
    let hi ← payload[2]?
    some (.ok (msg (UInt16.ofNat (leNat [lo, hi]))))

def decodeNonce (payload : List UInt8) (msg : UInt32 → Message) :
    Option (Except CodecError Message) :=
  if payload.length ≠ 5 then
    some (.error (.malformed s!"ping/pong with payload length {payload.length} (expected 5)"))
  else do
    let a ← payload[1]?
    let b ← payload[2]?
    let c ← payload[3]?
    let d ← payload[4]?
    some (.ok (msg (UInt32.ofNat (leNat [a, b, c, d]))))

/-- A message that ends in a string. -/
def decodeText (payload : List UInt8) (pos : ℕ) (after : String) (msg : String → Message) :
    Option (Except CodecError Message) := do
  match ← takeString payload pos with
  | .error e => some (.error e)
  | .ok (text, pos) => some (noTrailing payload pos after (msg text))

def decodePayload (payload : List UInt8) : Option (Except CodecError Message) :=
  if payload.isEmpty then some (.error (.malformed "empty payload"))
  else do
    let op ← payload[0]?
    match Opcode.fromU8 op with
    | none => some (.error (.malformed s!"unknown opcode 0x{hex 2 op.toNat}"))
    | some .hello =>
      if payload.length < 2 then some (.error (.malformed "truncated hello"))
      else
        let version ← payload[1]?
        decodeText payload 2 "hello" (.hello version)
    | some .openSession => some (noTrailing payload 1 "open-session" .openSession)
    | some .keyDown => decodeKey payload .keyDown
    | some .keyUp => decodeKey payload .keyUp
    | some .keyRepeat => decodeKey payload .keyRepeat
    | some .releaseAll => some (noTrailing payload 1 "release-all" .releaseAll)
    | some .ping => decodeNonce payload .ping
    | some .pong => decodeNonce payload .pong
    | some .ok => some (noTrailing payload 1 "ok" .ok)
    | some .error =>
      if payload.length < 3 then some (.error (.malformed "truncated error"))
      else
        let lo ← payload[1]?
        let hi ← payload[2]?
        let v := UInt16.ofNat (leNat [lo, hi])
        match ErrorCode.fromU16 v with
        | none => some (.error (.malformed s!"unknown error code 0x{hex 4 v.toNat}"))
        | some code => decodeText payload 3 "error" (.error code)

/-- The decoding loop, with a bound on its turns: the buffer it leaves, and the messages
or the error it ends with. -/
def frames : ℕ → List UInt8 → List Message → Option (List UInt8 × Except CodecError (List Message))
  | 0, _, _ => none
  | n + 1, buf, messages => do
    match ← frameLen buf with
    | .error e => some (buf, .error e)
    | .ok none => some (buf, .ok messages)
    | .ok (some len) =>
      let payload ← slice buf headerLen (headerLen + len)
      let rest ← Checked.drain buf 0 (headerLen + len)
      match ← decodePayload payload with
      | .error e => some (rest, .error e)
      | .ok msg => frames n rest (messages ++ [msg])

/-- The branch of `push` that refuses an overfull buffer is taken. -/
def Overfull (buf : List UInt8) : Prop := headerLen + maxFrameLen < buf.length

instance (buf : List UInt8) : Decidable (Overfull buf) := inferInstanceAs (Decidable (_ < _))

def push (turns : ℕ) (d : Decoder) (bytes : List UInt8) :
    Option (Decoder × Except CodecError (List Message)) := do
  match ← frames turns (d.buf ++ bytes) [] with
  | (_, .error e) => some (⟨[]⟩, .error e)
  | (buf, .ok messages) =>
    if Overfull buf then
      some (⟨[]⟩, .error (.malformed
        s!"stream would exceed the maximum buffered frame size ({headerLen + maxFrameLen} bytes)"))
    else some (⟨buf⟩, .ok messages)

section

variable {payload : List UInt8} {pos : ℕ}

theorem frameLen_eq (buf : List UInt8) : frameLen buf = some (Protocol.frameLen buf) := by
  unfold frameLen Protocol.frameLen
  by_cases hh : buf.length < headerLen
  · rw [if_pos hh, if_pos hh]
  rw [if_neg hh, if_neg hh]
  -- a buffer with a whole header is six bytes and a rest
  rcases buf with _ | ⟨a, _ | ⟨b, _ | ⟨c, _ | ⟨d, _ | ⟨lo, _ | ⟨hi, rest⟩⟩⟩⟩⟩⟩
  case cons.cons.cons.cons.cons.cons =>
    have hs : slice (a :: b :: c :: d :: lo :: hi :: rest) 0 4 = some [a, b, c, d] := by
      simp [slice]
    simp only [hs, Option.bind_eq_bind, Option.bind_some, List.take_succ_cons, List.take_zero,
      List.drop_succ_cons, List.drop_zero, List.getElem?_cons_succ, List.getElem?_cons_zero]
    split
    · rfl
    split
    · rfl
    split <;> rfl
  all_goals exact absurd (by simp [headerLen]) hh

theorem slice_eq_drop_take {len : ℕ} (h : pos + len ≤ payload.length) :
    slice payload pos (pos + len) = some ((payload.drop pos).take len) := by
  rw [slice, if_pos ⟨Nat.le_add_right _ _, h⟩, List.drop_take, Nat.add_sub_cancel_left]

theorem takeString_eq (h : pos ≤ payload.length) :
    takeString payload pos = some (Protocol.takeString payload pos) := by
  have hl : (payload.drop pos).length = payload.length - pos := List.length_drop
  have h₀ : payload[pos]? = (payload.drop pos)[0]? := by simp
  have h₁ : payload[pos + 1]? = (payload.drop pos)[1]? := by simp
  have h₂ : payload.drop (pos + 2) = (payload.drop pos).drop 2 := by simp
  unfold takeString Protocol.takeString
  rw [Checked.sub_eq h, ← hl, h₀, h₁]
  rcases hd : payload.drop pos with _ | ⟨lo, _ | ⟨hi, body⟩⟩
  · rfl
  · rfl
  simp only [List.length_cons, Option.bind_eq_bind, Option.bind_some, List.getElem?_cons_zero,
    List.getElem?_cons_succ]
  rw [if_neg (by omega)]
  split
  · rfl
  split
  · rfl
  next hb =>
    rw [slice_eq_drop_take (Nat.not_lt.mp hb), h₂, hd]
    simp only [List.drop_succ_cons, List.drop_zero, Option.bind_some]
    cases fromUtf8 (body.take (leNat [lo, hi])) <;> rfl

theorem decodeKey_eq (payload : List UInt8) (msg : UInt16 → Message) :
    decodeKey payload msg = some (Protocol.decodeKey payload msg) := by
  unfold decodeKey Protocol.decodeKey
  rcases payload with _ | ⟨a, _ | ⟨b, _ | ⟨c, _ | ⟨d, rest⟩⟩⟩⟩ <;> simp

theorem decodeNonce_eq (payload : List UInt8) (msg : UInt32 → Message) :
    decodeNonce payload msg = some (Protocol.decodeNonce payload msg) := by
  unfold decodeNonce Protocol.decodeNonce
  rcases payload with _ | ⟨a, _ | ⟨b, _ | ⟨c, _ | ⟨d, _ | ⟨e, _ | ⟨f, rest⟩⟩⟩⟩⟩⟩ <;> simp

theorem decodeText_eq (h : pos ≤ payload.length) (after : String) (msg : String → Message) :
    decodeText payload pos after msg = some (Protocol.takeString payload pos >>= fun r =>
      noTrailing payload r.2 after (msg r.1)) := by
  rw [decodeText, takeString_eq h]
  cases Protocol.takeString payload pos <;> rfl

/-- No index of a payload is out of range. -/
theorem decodePayload_eq (payload : List UInt8) :
    decodePayload payload = some (Protocol.decodePayload payload) := by
  unfold decodePayload Protocol.decodePayload
  cases payload with
  | nil => rfl
  | cons op body =>
    simp only [List.isEmpty_cons, Bool.false_eq_true, if_false, List.getElem?_cons_zero,
      Option.bind_eq_bind, Option.bind_some]
    cases Opcode.fromU8 op with
    | none => rfl
    | some opcode =>
      cases opcode with
      | hello =>
        cases body with
        | nil => rfl
        | cons version body =>
          rw [if_neg (by simp)]
          exact decodeText_eq (by simp) _ _
      | openSession => rfl
      | keyDown => exact decodeKey_eq _ _
      | keyUp => exact decodeKey_eq _ _
      | keyRepeat => exact decodeKey_eq _ _
      | releaseAll => rfl
      | ping => exact decodeNonce_eq _ _
      | pong => exact decodeNonce_eq _ _
      | ok => rfl
      | error =>
        rcases body with _ | ⟨lo, _ | ⟨hi, body⟩⟩
        · rfl
        · rfl
        rw [if_neg (by simp)]
        simp only [List.getElem?_cons_succ, List.getElem?_cons_zero, Option.bind_some]
        cases ErrorCode.fromU16 (UInt16.ofNat (leNat [lo, hi])) with
        | none => rfl
        | some code => exact decodeText_eq (by simp) _ _

end

/-- The loop ends within one turn more than there are bytes, and its frames are those of the
buffer's parse. -/
theorem frames_eq {n : ℕ} {buf : List UInt8} (h : buf.length < n) (messages : List Message) :
    ∃ left, frames n buf messages = some (left, (framer.parse buf).2.map fun _ =>
        messages ++ (framer.parse buf).1) ∧
      ∀ rest, (framer.parse buf).2 = .ok rest → left = rest := by
  induction n generalizing buf messages with
  | zero => exact absurd h (Nat.not_lt_zero _)
  | succ n ih =>
    rw [frames, frameLen_eq]
    simp only [Option.bind_eq_bind, Option.bind_some]
    cases hf : Protocol.frameLen buf with
    | error e =>
      have hp : framer.peel buf = .error e := by simp [framer, nextMessage, hf]
      rw [Framer.parse_bad hp]
      exact ⟨buf, rfl, fun rest hr => by cases hr⟩
    | ok o =>
      cases o with
      | none =>
        have hp : framer.peel buf = .ok none := by simp [framer, nextMessage, hf]
        rw [Framer.parse_wait hp]
        exact ⟨buf, by simp [Except.map], fun rest hr => by cases hr; rfl⟩
      | some len =>
        have hl := (frameLen_eq_some_iff.mp hf).2.2.2
        simp only [slice_eq_drop_take hl, Checked.drain_eq (Nat.zero_le _) hl, Option.bind_some,
          decodePayload_eq, List.take_zero, List.nil_append]
        cases hd : Protocol.decodePayload ((buf.drop headerLen).take len) with
        | error e =>
          have hp : framer.peel buf = .error e := by
            simp [framer, nextMessage, hf, List.drop_take, hd]
          rw [Framer.parse_bad hp]
          exact ⟨_, rfl, fun rest hr => by cases hr⟩
        | ok msg =>
          have hp : framer.peel buf = .ok (some (msg, buf.drop (headerLen + len))) := by
            simp [framer, nextMessage, hf, List.drop_take, hd]
          have hs := (framer.shorter hp).trans_le (Nat.le_of_lt_succ h)
          obtain ⟨left, he, hr⟩ := ih hs (messages ++ [msg])
          rw [Framer.parse_frame hp]
          refine ⟨left, ?_, hr⟩
          simpa using he

/-- No index is out of range and the loop ends: a push is that of the decoder. -/
theorem push_eq {turns : ℕ} {d : Decoder} {bytes : List UInt8}
    (h : (d.buf ++ bytes).length < turns) : push turns d bytes = some (d.push bytes) := by
  obtain ⟨left, he, hr⟩ := frames_eq h []
  rw [push, he, Decoder.push]
  simp only [Option.bind_eq_bind, Option.bind_some, List.nil_append]
  rcases hp : framer.parse (d.buf ++ bytes) with ⟨messages, e | rest⟩
  · rfl
  · rw [hp] at hr
    obtain rfl := hr rest rfl
    by_cases ho : headerLen + maxFrameLen < left.length <;> simp [Except.map, Overfull, ho]

/-- The loop leaves a buffer that waits for the rest of one frame. -/
theorem frames_small {turns : ℕ} {buf left : List UInt8} {messages messages' : List Message}
    (h : frames turns buf messages = some (left, .ok messages')) :
    left.length < headerLen + maxFrameLen := by
  induction turns generalizing buf messages with
  | zero => cases h
  | succ n ih =>
    rw [frames, frameLen_eq] at h
    simp only [Option.bind_eq_bind, Option.bind_some] at h
    cases hf : Protocol.frameLen buf with
    | error e =>
      rw [hf] at h
      cases h
    | ok o =>
      rw [hf] at h
      cases o with
      | none =>
        cases h
        exact length_lt_of_frameLen_none hf
      | some len =>
        have hl := (frameLen_eq_some_iff.mp hf).2.2.2
        simp only [slice_eq_drop_take hl, Checked.drain_eq (Nat.zero_le _) hl, Option.bind_some,
          decodePayload_eq] at h
        cases hd : Protocol.decodePayload ((buf.drop headerLen).take len) with
        | error e =>
          rw [hd] at h
          cases h
        | ok msg =>
          rw [hd] at h
          exact ih h

end Indexed

namespace Decoder

/-- The decoder after pushes, good or bad. -/
def after (chunks : List (List UInt8)) : Decoder := chunks.foldl (fun d c => (d.push c).1) .new

/-- What a push of any bytes keeps to: it ends without an index out of range once it has more
turns than bytes, it leaves less than one frame buffered and nothing after an error, and the
branch for an overfull buffer is not taken, however many turns it has. -/
structure Bounded (d : Decoder) (bytes : List UInt8) : Prop where
  returns : ∀ turns, (d.buf ++ bytes).length < turns →
    Indexed.push turns d bytes = some (d.push bytes)
  small : (d.push bytes).1.buffered < headerLen + maxFrameLen
  cleared : ∀ e, (d.push bytes).2 = .error e → (d.push bytes).1.buffered = 0
  fits : ∀ turns left messages,
    Indexed.frames turns (d.buf ++ bytes) [] = some (left, .ok messages) → ¬ Indexed.Overfull left

theorem push_cleared {d : Decoder} {bytes : List UInt8} {e : CodecError}
    (h : (d.push bytes).2 = .error e) : (d.push bytes).1 = .new := by
  rw [push_eq] at h ⊢
  rcases hp : framer.parse (d.buf ++ bytes) with ⟨messages, e' | rest⟩
  · rfl
  · rw [hp] at h
    cases h

theorem push_small (d : Decoder) (bytes : List UInt8) :
    (d.push bytes).1.buffered < headerLen + maxFrameLen := by
  rw [push_eq]
  rcases hp : framer.parse (d.buf ++ bytes) with ⟨messages, e | rest⟩
  · exact Nat.lt_of_lt_of_le (Nat.succ_pos _) (Nat.le_add_right _ _)
  · exact length_lt_of_frameLen_none (frameLen_of_nextMessage_none (Framer.peel_rest hp))

/-- Every push after any pushes is bounded. -/
theorem after_bounded (chunks : List (List UInt8)) (bytes : List UInt8) :
    (after chunks).Bounded bytes := by
  constructor
  · intro turns h
    exact Indexed.push_eq h
  · exact push_small _ _
  · intro e h
    rw [push_cleared h]
    rfl
  · intro turns left messages h
    exact Nat.lt_asymm (Indexed.frames_small h)

end Decoder

end Ferrokey.Protocol
