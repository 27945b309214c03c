import Ferrokey.Protocol.Decoder

/-! # Fragmentation of the byte stream

What a stream contains is stated without the decoder: the messages whose frames
it starts with. A well-formed stream delivers them under every cut into chunks.
A hostile one errs under every cut in the same way, but what was delivered by
then depends on the chunk the error came in.
-/

namespace Ferrokey.Protocol

open Framing

/-- The encoder accepts each message and writes the frame beside it. -/
abbrev Encodes (msgs : List Message) (frames : List (List UInt8)) : Prop :=
  List.Forall₂ (fun msg frame => encode msg = .ok frame) msgs frames

/-- The messages of the maximal prefix of valid frames: the stream starts with their
frames, and no valid frame follows. -/
def MaximalFrames (s : List UInt8) (msgs : List Message) : Prop :=
  ∃ frames rest, Encodes msgs frames ∧ s = frames.flatten ++ rest ∧
    ∀ msg frame, encode msg = .ok frame → ¬ frame <+: rest

section

variable {buf rest : List UInt8} {msg : Message} {msgs : List Message}
  {frames : List (List UInt8)}

/-- What the loop takes off as a message is the frame of that message. -/
theorem encode_of_nextMessage (h : framer.peel buf = .ok (some (msg, rest))) :
    ∃ frame, encode msg = .ok frame ∧ buf = frame ++ rest := by
  obtain ⟨len, hl, hd, rfl⟩ := nextMessage_eq_some_iff.mp h
  obtain ⟨hm, hlen, -, hle⟩ := frameLen_eq_some_iff.mp hl
  have hp := encodePayload_of_decodePayload hd
  have hplen : ((buf.take (headerLen + len)).drop headerLen).length = len := by
    rw [List.length_drop, List.length_take, Nat.min_eq_left hle, Nat.add_sub_cancel_left]
  have hbytes : leBytes 2 len = (buf.drop 4).take 2 := by
    have h2 : ((buf.drop 4).take 2).length = 2 := by
      simp only [headerLen, List.length_take, List.length_drop] at hle ⊢
      omega
    have hb := leBytes_leNat ((buf.drop 4).take 2)
    rwa [h2, hlen] at hb
  refine ⟨_, encode_eq_ok_iff.mpr ⟨_, hp, rfl⟩, ?_⟩
  have hbody : buf.drop headerLen =
      (buf.take (headerLen + len)).drop headerLen ++ buf.drop (headerLen + len) := by
    have hcut : headerLen ≤ (buf.take (headerLen + len)).length := by
      rw [List.length_take, Nat.min_eq_left hle]
      exact Nat.le_add_right _ _
    rw [← List.drop_append_of_le_length hcut, List.take_append_drop]
  calc buf = buf.take 4 ++ ((buf.drop 4).take 2 ++ (buf.drop 4).drop 2) := by
        rw [List.take_append_drop, List.take_append_drop]
    _ = magic ++ (leBytes 2 len ++ buf.drop headerLen) := by
        rw [hm, hbytes, List.drop_drop]
        rfl
    _ = _ := by rw [hplen, hbody, List.append_assoc, List.append_assoc]

/-- Where no frame of a message is a prefix, the loop takes nothing off. -/
theorem parse_fst_nil (h : ∀ msg frame, encode msg = .ok frame → ¬ frame <+: buf) :
    (framer.parse buf).1 = [] := by
  cases hp : framer.peel buf with
  | error e => rw [Framer.parse_bad hp]
  | ok o =>
    cases o with
    | none => rw [Framer.parse_wait hp]
    | some r =>
      obtain ⟨frame, he, hb⟩ := encode_of_nextMessage hp
      exact absurd (hb ▸ List.prefix_append _ _) (h _ _ he)

theorem parse_encoded (h : Encodes msgs frames) (x : List UInt8) :
    framer.parse (frames.flatten ++ x) = (msgs ++ (framer.parse x).1, (framer.parse x).2) := by
  induction h with
  | nil => rfl
  | cons he _ ih =>
    rw [List.flatten_cons, List.append_assoc, Framer.parse_frame (nextMessage_encode he _), ih]
    rfl

/-- The decoding loop finds the maximal prefix of valid frames, which is unique. -/
theorem maximalFrames_iff {s : List UInt8} :
    MaximalFrames s msgs ↔ msgs = (framer.parse s).1 := by
  constructor
  · rintro ⟨frames, rest, he, rfl, hn⟩
    rw [parse_encoded he, parse_fst_nil hn, List.append_nil]
  · rintro rfl
    induction s using Framer.parse_induction (f := framer) with
    | bad buf e hp =>
      refine ⟨[], buf, by rw [Framer.parse_bad hp]; exact .nil, rfl, ?_⟩
      rintro msg frame he ⟨x, rfl⟩
      rw [nextMessage_encode he] at hp
      cases hp
    | wait buf hp =>
      refine ⟨[], buf, by rw [Framer.parse_wait hp]; exact .nil, rfl, ?_⟩
      rintro msg frame he ⟨x, rfl⟩
      rw [nextMessage_encode he] at hp
      cases hp
    | frame buf msg rest hp ih =>
      obtain ⟨frames, x, he, hx, hn⟩ := ih
      obtain ⟨frame, hm, hb⟩ := encode_of_nextMessage hp
      refine ⟨frame :: frames, x, ?_, ?_, hn⟩
      · rw [Framer.parse_frame hp]
        exact .cons hm he
      · rw [hb, hx, List.flatten_cons, List.append_assoc]

end

/-- However the frames of encodable messages are cut into chunks, a fresh decoder
delivers exactly these messages, never errs and keeps nothing. -/
theorem feed_encoded {msgs : List Message} {frames chunks : List (List UInt8)}
    (he : Encodes msgs frames) (hc : chunks.flatten = frames.flatten) :
    ∃ d, Decoder.new.feed chunks = (msgs, .ok d) ∧ d.buffered = 0 := by
  have hp : framer.parse (Decoder.new.buf ++ chunks.flatten) = (msgs, .ok []) := by
    have hnil : framer.parse [] = ([], .ok []) := Framer.parse_wait Decoder.new_waits
    have hall := parse_encoded he []
    rw [hnil, List.append_nil, List.append_nil] at hall
    rw [hc]
    exact hall
  refine ⟨⟨[]⟩, ?_, rfl⟩
  rw [Decoder.feed_eq, Framer.feed_snd Decoder.new_waits,
    Framer.feed_fst_of_ok Decoder.new_waits (congrArg Prod.snd hp), hp]
  rfl

theorem feed_encoded_ok_keyDown :
    ∃ d, Decoder.new.feed [[0x46, 0x4B], [], [0x30], [0x31, 1, 0, 0x80, 0x46],
      [0x4B, 0x30, 0x31, 3], [0, 0x10, 30], [0]] = ([.ok, .keyDown 30], .ok d) ∧
        d.buffered = 0 := by
  have he : Encodes [.ok, .keyDown 30]
      [[0x46, 0x4B, 0x30, 0x31, 1, 0, 0x80], [0x46, 0x4B, 0x30, 0x31, 3, 0, 0x10, 30, 0]] :=
    .cons rfl (.cons rfl .nil)
  exact feed_encoded he rfl

section Hostile

variable {chunks : List (List UInt8)}

theorem feed_snd_eq (chunks : List (List UInt8)) :
    (Decoder.new.feed chunks).2 = (framer.parse chunks.flatten).2.map Decoder.mk := by
  rw [Decoder.feed_eq, Framer.feed_snd Decoder.new_waits]
  rfl

/-- A feed without an error delivers the maximal prefix of valid frames. -/
theorem maximalFrames_of_feed_ok {d : Decoder} (h : (Decoder.new.feed chunks).2 = .ok d) :
    (framer.parse chunks.flatten).2 = .ok d.buf ∧
      MaximalFrames chunks.flatten (Decoder.new.feed chunks).1 := by
  have hr : (framer.parse chunks.flatten).2 = .ok d.buf := by
    rw [feed_snd_eq] at h
    cases hp : (framer.parse chunks.flatten).2 with
    | error e => rw [hp] at h; cases h
    | ok rest => rw [hp] at h; cases h; rfl
  refine ⟨hr, maximalFrames_iff.mpr ?_⟩
  rw [Decoder.feed_eq]
  exact Framer.feed_fst_of_ok Decoder.new_waits hr

/-- A feed with an error delivers what the chunks before the failing push contain. -/
theorem feed_error_split {e : CodecError} (h : (Decoder.new.feed chunks).2 = .error e) :
    ∃ pre c post d, chunks = pre ++ c :: post ∧
      Decoder.new.feed pre = ((Decoder.new.feed chunks).1, .ok d) ∧ (d.push c).2 = .error e := by
  have hr : (framer.parse chunks.flatten).2 = .error e := by
    rw [feed_snd_eq] at h
    cases hp : (framer.parse chunks.flatten).2 with
    | error e => rw [hp] at h; cases h; rfl
    | ok rest => rw [hp] at h; cases h
  obtain ⟨pre, c, post, hsplit, ⟨rest, hok⟩, hbad, hfst⟩ :=
    Framer.feed_fst_of_error Decoder.new_waits hr
  have hpre : Decoder.new.feed pre = ((Decoder.new.feed chunks).1, .ok ⟨rest⟩) := by
    refine Prod.ext ?_ ?_
    · rw [Decoder.feed_eq, Decoder.feed_eq, hfst, Framer.feed_fst_of_ok Decoder.new_waits hok]
    · rw [feed_snd_eq]
      exact congrArg _ hok
  have hparse : framer.parse (Decoder.new.buf ++ pre.flatten) =
      ((framer.parse (Decoder.new.buf ++ pre.flatten)).1, .ok rest) := Prod.ext rfl hok
  rw [Framer.parse_append hparse] at hbad
  refine ⟨pre, c, post, ⟨rest⟩, hsplit, hpre, ?_⟩
  rw [Decoder.push_eq]
  cases hp : framer.parse (rest ++ c) with
  | mk messages r =>
    rw [hp] at hbad
    obtain rfl : r = .error e := hbad
    rfl

end Hostile

/-- Two cuts of any stream end alike, in the same error or with the same bytes buffered.
Without an error both deliver the maximal prefix of valid frames. With one, each delivers
the maximal prefix of valid frames of the chunks before its failing push. -/
theorem feed_of_cuts {cs ds : List (List UInt8)} (h : cs.flatten = ds.flatten) :
    (Decoder.new.feed cs).2 = (Decoder.new.feed ds).2 ∧
      (∀ d, (Decoder.new.feed cs).2 = .ok d →
        MaximalFrames cs.flatten (Decoder.new.feed cs).1 ∧
          (Decoder.new.feed ds).1 = (Decoder.new.feed cs).1) ∧
      ∀ e, (Decoder.new.feed cs).2 = .error e → ∃ pre c post d, cs = pre ++ c :: post ∧
        Decoder.new.feed pre = ((Decoder.new.feed cs).1, .ok d) ∧ (d.push c).2 = .error e ∧
        MaximalFrames pre.flatten (Decoder.new.feed cs).1 ∧
        ∀ msgs, MaximalFrames cs.flatten msgs → (Decoder.new.feed cs).1 <+: msgs := by
  have hend : (Decoder.new.feed cs).2 = (Decoder.new.feed ds).2 := by
    rw [feed_snd_eq, feed_snd_eq, h]
  refine ⟨hend, fun d hd => ?_, fun e he => ?_⟩
  · obtain ⟨-, hcs⟩ := maximalFrames_of_feed_ok hd
    obtain ⟨-, hds⟩ := maximalFrames_of_feed_ok (hend ▸ hd)
    refine ⟨hcs, ?_⟩
    rw [maximalFrames_iff.mp hcs, maximalFrames_iff.mp hds, h]
  · obtain ⟨pre, c, post, d, hsplit, hpre, hpush⟩ := feed_error_split he
    have hmax : MaximalFrames pre.flatten (Decoder.new.feed cs).1 := by
      have hm := (maximalFrames_of_feed_ok (congrArg Prod.snd hpre)).2
      rwa [hpre] at hm
    refine ⟨pre, c, post, d, hsplit, hpre, hpush, hmax, fun msgs hmsgs => ?_⟩
    rw [maximalFrames_iff.mp hmax, maximalFrames_iff.mp hmsgs, hsplit, List.flatten_append]
    exact Framer.parse_prefix _ _

def okFrame : List UInt8 := [0x46, 0x4B, 0x30, 0x31, 1, 0, 0x80]

/-- Six bytes that complete a header without the magic. -/
def junk : List UInt8 := [0x4A, 0x55, 0x4E, 0x4B, 0x61, 0x62]

theorem feed_of_cuts_okFrame_junk :
    (Decoder.new.feed [okFrame, junk]).2 = (Decoder.new.feed [okFrame ++ junk]).2 ∧
      ∃ pre c post d, [okFrame, junk] = pre ++ c :: post ∧
        Decoder.new.feed pre = ([.ok], .ok d) ∧
        (d.push c).2 = .error (.malformed "bad magic [4a, 55, 4e, 4b]") := by
  have hcuts : [okFrame, junk].flatten = [okFrame ++ junk].flatten := rfl
  have herr : (Decoder.new.feed [okFrame, junk]).2 =
      .error (.malformed "bad magic [4a, 55, 4e, 4b]") := by decide
  obtain ⟨pre, c, post, d, hsplit, hpre, hpush, -⟩ := (feed_of_cuts hcuts).2.2 _ herr
  exact ⟨(feed_of_cuts hcuts).1, pre, c, post, d, hsplit, hpre, hpush⟩

/-- The same bytes deliver a message in two chunks and none in one. -/
theorem junk_cut_two_ways :
    ¬ ∀ cs ds : List (List UInt8), cs.flatten = ds.flatten →
      (Decoder.new.feed cs).1 = (Decoder.new.feed ds).1 := by
  intro h
  have hcut := h [okFrame, junk] [okFrame ++ junk] rfl
  revert hcut
  decide

end Ferrokey.Protocol
