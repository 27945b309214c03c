import Ferrokey.Framing.Incremental

/-! # Messages over a wire

A sender puts whole frames on a wire, until a frame breaks off; a reader takes the bytes off in
chunks of any length. What the reader has got, followed by what its buffer and the wire still
contain, is at any time what was sent.
-/

namespace Ferrokey.Framing

variable {α β ε : Type*} (f : Framer α β ε)

/-- The bytes are the frame of a message. -/
def Framer.Frames (b : β) (frame : List α) : Prop := ∀ x, f.peel (frame ++ x) = .ok (some (b, x))

/-- The messages that were sent and those that the reader has got, with the reader's buffer, the
bytes on the wire and what is left of a frame that broke off. -/
structure Channel (sent got : List β) (buf wire rest : List α) : Prop where
  waits : f.peel buf = .ok none
  pending : ∃ bs, f.parse (buf ++ wire) = (bs, .ok rest) ∧ sent = got ++ bs

namespace Channel

variable {f} {sent got : List β} {buf wire rest frame chunk : List α} {b : β}

theorem new (h : f.peel [] = .ok none) : Channel f [] [] [] [] [] where
  waits := h
  pending := ⟨[], Framer.parse_wait h, rfl⟩

theorem got_prefix (h : Channel f sent got buf wire rest) : got <+: sent := by
  obtain ⟨bs, -, hs⟩ := h.pending
  exact ⟨bs, hs.symm⟩

/-- With nothing on the wire everything has been got. -/
theorem got_eq (h : Channel f sent got buf [] rest) : got = sent := by
  obtain ⟨bs, hp, hs⟩ := h.pending
  rw [List.append_nil, Framer.parse_wait h.waits] at hp
  rw [hs, ← (Prod.mk.inj hp).1, List.append_nil]

theorem send (h : Channel f sent got buf wire []) (hf : f.Frames b frame) :
    Channel f (sent ++ [b]) got buf (wire ++ frame) [] := by
  obtain ⟨bs, hp, hs⟩ := h.pending
  have hnil : f.peel [] = .ok none := Framer.peel_rest hp
  have hframe : f.peel frame = .ok (some (b, [])) := by simpa using hf []
  refine ⟨h.waits, bs ++ [b], ?_, by rw [hs, List.append_assoc]⟩
  rw [← List.append_assoc, Framer.parse_append hp, List.nil_append, Framer.parse_frame hframe,
    Framer.parse_wait hnil]

theorem sendAll {bs : List β} {frames : List (List α)} (h : Channel f sent got buf wire [])
    (hf : List.Forall₂ f.Frames bs frames) :
    Channel f (sent ++ bs) got buf (wire ++ frames.flatten) [] := by
  induction hf generalizing sent wire with
  | nil => simpa using h
  | cons hb _ ih => simpa using ih (h.send hb)

/-- A frame that breaks off is no message and no error. -/
theorem peel_proper (hf : f.Frames b frame) {part more : List α} (hsplit : frame = part ++ more)
    (hmore : more ≠ []) : f.peel part = .ok none := by
  have hframe : f.peel (part ++ more) = .ok (some (b, [])) := by
    rw [← hsplit]
    simpa using hf []
  cases hp : f.peel part with
  | error e =>
    rw [f.fatal more hp] at hframe
    cases hframe
  | ok o =>
    cases o with
    | none => rfl
    | some r =>
      rw [f.stable more hp] at hframe
      obtain ⟨-, hnil⟩ := Prod.mk.inj (Option.some.inj (Except.ok.inj hframe))
      exact absurd (List.append_eq_nil_iff.mp hnil).2 hmore

theorem breakOff (h : Channel f sent got buf wire []) {part : List α}
    (hpart : f.peel part = .ok none) : Channel f sent got buf (wire ++ part) part := by
  obtain ⟨bs, hp, hs⟩ := h.pending
  refine ⟨h.waits, bs, ?_, hs⟩
  rw [← List.append_assoc, Framer.parse_append hp, List.nil_append, Framer.parse_wait hpart,
    List.append_nil]

/-- Whatever is read next is a part of what was sent. -/
theorem receive (h : Channel f sent got buf (chunk ++ wire) rest) :
    ∃ bs buf', f.parse (buf ++ chunk) = (bs, .ok buf') ∧
      Channel f sent (got ++ bs) buf' wire rest := by
  obtain ⟨all, hp, hs⟩ := h.pending
  rw [← List.append_assoc] at hp
  cases hc : f.parse (buf ++ chunk) with
  | mk bs r =>
    cases r with
    | error e =>
      rw [Framer.parse_append_error hc] at hp
      cases hp
    | ok buf' =>
      rw [Framer.parse_append hc] at hp
      obtain ⟨rfl, hr⟩ := Prod.mk.inj hp
      refine ⟨bs, buf', rfl, Framer.peel_rest hc, (f.parse (buf' ++ wire)).1, Prod.ext rfl hr, ?_⟩
      rw [hs, List.append_assoc]

end Channel

end Ferrokey.Framing
