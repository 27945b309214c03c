import Ferrokey.Protocol.Codec

/-! # The decoder accepts exactly what the encoder writes

Every payload has at most one spelling: `decodePayload` and `encodePayload` are
the two directions of one relation between payloads and messages.
-/

namespace Ferrokey.Protocol

open Framing

section Strings

variable {out rest : List UInt8} {s : String}

theorem pushString_eq_ok_iff {p : List UInt8} : pushString out s = .ok p ↔
    (asBytes s).length ≤ maxStringLen ∧
      p = out ++ leBytes 2 (asBytes s).length ++ asBytes s := by
  unfold pushString
  dsimp only
  split
  · next h => simp [Nat.not_le.mpr h]
  · next h => simp [Nat.not_lt.mp h, eq_comm]

theorem leNat_length {n : ℕ} (h : n ≤ maxStringLen) : leNat (leBytes 2 n) = n :=
  leNat_leBytes (h.trans_lt (by decide))

/-- A string is read after `out` exactly where it was pushed; `tail` is what follows. -/
theorem takeString_eq_ok_iff {pos : ℕ} :
    takeString (out ++ rest) out.length = .ok (s, pos) ↔
      (asBytes s).length ≤ maxStringLen ∧ pos = out.length + 2 + (asBytes s).length ∧
        ∃ tail, rest = leBytes 2 (asBytes s).length ++ asBytes s ++ tail := by
  rw [takeString, List.drop_left]
  constructor
  · intro h
    split at h
    · next lo hi body =>
      dsimp only at h
      split at h
      · cases h
      next hmax =>
      split at h
      · cases h
      next hlen =>
      split at h
      · cases h
      next s' hs =>
      cases h
      have hb := fromUtf8_eq_some_iff.mp hs
      have hl : (asBytes s).length = leNat [lo, hi] := by
        rw [hb, List.length_take, Nat.min_eq_left]
        simp only [List.length_append, List.length_cons] at hlen
        omega
      have hp : leBytes 2 (asBytes s).length = [lo, hi] := by
        rw [hl]
        exact leBytes_leNat [lo, hi]
      refine ⟨hl ▸ Nat.not_lt.mp hmax, by rw [hl], body.drop (leNat [lo, hi]), ?_⟩
      rw [hp, hb]
      simp
    · cases h
  · rintro ⟨hmax, rfl, tail, rfl⟩
    obtain ⟨lo, hi, hp⟩ : ∃ lo hi, leBytes 2 (asBytes s).length = [lo, hi] := ⟨_, _, rfl⟩
    have hl : leNat [lo, hi] = (asBytes s).length := hp ▸ leNat_length hmax
    have hu : fromUtf8 (asBytes s) = some s := fromUtf8_eq_some_iff.mpr rfl
    rw [hp]
    simp [hl, Nat.not_lt.mpr hmax, hu]
    omega

/-- A string that must be the last field is read exactly when it was pushed last. -/
theorem takeLast_eq_ok_iff (out rest : List UInt8) {after : String} {mk : String → Message}
    {m : Message} :
    (do let (s, pos) ← takeString (out ++ rest) out.length
        noTrailing (out ++ rest) pos after (mk s)) = Except.ok m ↔
      ∃ s, m = mk s ∧ pushString out s = .ok (out ++ rest) := by
  constructor
  · intro h
    cases ht : takeString (out ++ rest) out.length with
    | error e => rw [ht] at h; cases h
    | ok r =>
      obtain ⟨s, pos⟩ := r
      rw [ht] at h
      change noTrailing (out ++ rest) pos after (mk s) = .ok m at h
      obtain ⟨hmax, rfl, tail, rfl⟩ := takeString_eq_ok_iff.mp ht
      unfold noTrailing at h
      split at h
      · cases h
      next hend =>
      cases h
      have htail : tail = [] := by
        simp at hend
        exact List.length_eq_zero_iff.mp (by omega)
      exact ⟨s, rfl, pushString_eq_ok_iff.mpr ⟨hmax, by simp [htail]⟩⟩
  · rintro ⟨s, rfl, h⟩
    obtain ⟨hmax, hp⟩ := pushString_eq_ok_iff.mp h
    rw [List.append_assoc, List.append_cancel_left_eq] at hp
    have ht : takeString (out ++ rest) out.length =
        .ok (s, out.length + 2 + (asBytes s).length) :=
      takeString_eq_ok_iff.mpr ⟨hmax, rfl, [], by rw [List.append_nil, hp]⟩
    rw [ht]
    change noTrailing (out ++ rest) _ after (mk s) = _
    have hend : out.length + 2 + (asBytes s).length = (out ++ rest).length := by
      simp [hp, Nat.add_assoc]
    simp [noTrailing, hend]

end Strings

section Fields

variable {p body : List UInt8} {op : UInt8} {m : Message}

theorem noTrailing_eq_ok_iff {after : String} {m' : Message} :
    noTrailing (op :: body) 1 after m' = .ok m ↔ m = m' ∧ body = [] := by
  unfold noTrailing
  split <;> simp_all [eq_comm]

theorem leBytes_ofNat16 (lo hi : UInt8) :
    leBytes 2 (UInt16.ofNat (leNat [lo, hi])).toNat = [lo, hi] := by
  have hlt : leNat [lo, hi] < UInt16.size := (leNat_lt [lo, hi]).trans_eq (by simp [UInt16.size])
  rw [UInt16.toNat_ofNat_of_lt' hlt]
  exact leBytes_leNat [lo, hi]

theorem ofNat16_leBytes (v : UInt16) : UInt16.ofNat (leNat (leBytes 2 v.toNat)) = v := by
  rw [leNat_leBytes v.toNat_lt, UInt16.ofNat_toNat]

theorem leBytes_ofNat32 (a b c d : UInt8) :
    leBytes 4 (UInt32.ofNat (leNat [a, b, c, d])).toNat = [a, b, c, d] := by
  have hlt : leNat [a, b, c, d] < UInt32.size :=
    (leNat_lt [a, b, c, d]).trans_eq (by simp [UInt32.size])
  rw [UInt32.toNat_ofNat_of_lt' hlt]
  exact leBytes_leNat [a, b, c, d]

theorem ofNat32_leBytes (v : UInt32) : UInt32.ofNat (leNat (leBytes 4 v.toNat)) = v := by
  rw [leNat_leBytes v.toNat_lt, UInt32.ofNat_toNat]

theorem decodeKey_eq_ok_iff (op : UInt8) {mk : UInt16 → Message} :
    decodeKey (op :: body) mk = .ok m ↔ ∃ code, m = mk code ∧ body = leBytes 2 code.toNat := by
  constructor
  · intro h
    unfold decodeKey at h
    split at h
    · next lo hi heq =>
      obtain ⟨rfl, rfl⟩ := List.cons.inj heq
      cases h
      exact ⟨_, rfl, (leBytes_ofNat16 lo hi).symm⟩
    · cases h
  · rintro ⟨code, rfl, rfl⟩
    change Except.ok (mk (UInt16.ofNat (leNat (leBytes 2 code.toNat)))) = _
    rw [ofNat16_leBytes]

theorem decodeNonce_eq_ok_iff (op : UInt8) {mk : UInt32 → Message} :
    decodeNonce (op :: body) mk = .ok m ↔
      ∃ nonce, m = mk nonce ∧ body = leBytes 4 nonce.toNat := by
  constructor
  · intro h
    unfold decodeNonce at h
    split at h
    · next a b c d heq =>
      obtain ⟨rfl, rfl⟩ := List.cons.inj heq
      cases h
      exact ⟨_, rfl, (leBytes_ofNat32 a b c d).symm⟩
    · cases h
  · rintro ⟨nonce, rfl, rfl⟩
    change Except.ok (mk (UInt32.ofNat (leNat (leBytes 4 nonce.toNat)))) = _
    rw [ofNat32_leBytes]

end Fields

theorem encodePayload_of_decodePayload {p : List UInt8} {m : Message}
    (h : decodePayload p = .ok m) : encodePayload m = .ok p := by
  cases p with
  | nil => cases h
  | cons b body =>
  cases hop : Opcode.fromU8 b with
  | none => simp [decodePayload, hop] at h
  | some op =>
  obtain rfl := Opcode.toU8_of_fromU8 hop
  cases op with
  | hello =>
    cases body with
    | nil => cases h
    | cons version tail =>
      obtain ⟨s, rfl, hp⟩ := (takeLast_eq_ok_iff [Opcode.hello.toU8, version] tail).mp h
      exact hp
  | error =>
    match body with
    | [] | [_] => cases h
    | lo :: hi :: tail =>
      simp only [decodePayload, hop] at h
      split at h
      · cases h
      next code hcode =>
      obtain ⟨s, rfl, hp⟩ := (takeLast_eq_ok_iff [Opcode.error.toU8, lo, hi] tail).mp h
      rw [encodePayload, ErrorCode.code_of_fromU16 hcode, leBytes_ofNat16]
      exact hp
  | openSession =>
    obtain ⟨rfl, rfl⟩ := noTrailing_eq_ok_iff.mp h
    rfl
  | releaseAll =>
    obtain ⟨rfl, rfl⟩ := noTrailing_eq_ok_iff.mp h
    rfl
  | ok =>
    obtain ⟨rfl, rfl⟩ := noTrailing_eq_ok_iff.mp h
    rfl
  | keyDown =>
    obtain ⟨code, rfl, rfl⟩ := (decodeKey_eq_ok_iff _).mp h
    rfl
  | keyUp =>
    obtain ⟨code, rfl, rfl⟩ := (decodeKey_eq_ok_iff _).mp h
    rfl
  | keyRepeat =>
    obtain ⟨code, rfl, rfl⟩ := (decodeKey_eq_ok_iff _).mp h
    rfl
  | ping =>
    obtain ⟨nonce, rfl, rfl⟩ := (decodeNonce_eq_ok_iff _).mp h
    rfl
  | pong =>
    obtain ⟨nonce, rfl, rfl⟩ := (decodeNonce_eq_ok_iff _).mp h
    rfl

theorem decodePayload_of_encodePayload {p : List UInt8} {m : Message}
    (h : encodePayload m = .ok p) : decodePayload p = .ok m := by
  cases m with
  | hello version clientName =>
    obtain ⟨-, hp⟩ := pushString_eq_ok_iff.mp h
    rw [List.append_assoc] at hp
    rw [encodePayload, hp] at h
    rw [hp]
    exact (takeLast_eq_ok_iff _ _).mpr ⟨clientName, rfl, h⟩
  | error code msg =>
    obtain ⟨-, hp⟩ := pushString_eq_ok_iff.mp h
    rw [List.append_assoc] at hp
    rw [encodePayload, hp] at h
    have hcode := ofNat16_leBytes code.code
    obtain ⟨lo, hi, hb⟩ : ∃ lo hi, leBytes 2 code.code.toNat = [lo, hi] := ⟨_, _, rfl⟩
    rw [hb] at hcode h hp
    have hv : ErrorCode.fromU16 (UInt16.ofNat (leNat [lo, hi])) = some code := by
      rw [hcode, ErrorCode.fromU16_code]
    rw [hp]
    simp only [decodePayload, List.cons_append, List.nil_append, Opcode.fromU8_toU8, hv]
    exact (takeLast_eq_ok_iff _ _).mpr ⟨msg, rfl, h⟩
  | keyDown code =>
    cases h
    exact (decodeKey_eq_ok_iff Opcode.keyDown.toU8).mpr ⟨code, rfl, rfl⟩
  | keyUp code =>
    cases h
    exact (decodeKey_eq_ok_iff Opcode.keyUp.toU8).mpr ⟨code, rfl, rfl⟩
  | keyRepeat code =>
    cases h
    exact (decodeKey_eq_ok_iff Opcode.keyRepeat.toU8).mpr ⟨code, rfl, rfl⟩
  | ping nonce =>
    cases h
    exact (decodeNonce_eq_ok_iff Opcode.ping.toU8).mpr ⟨nonce, rfl, rfl⟩
  | pong nonce =>
    cases h
    exact (decodeNonce_eq_ok_iff Opcode.pong.toU8).mpr ⟨nonce, rfl, rfl⟩
  | openSession => cases h; rfl
  | releaseAll => cases h; rfl
  | ok => cases h; rfl

/-- The decoder accepts exactly the image of the encoder. -/
theorem decodePayload_eq_ok_iff (p : List UInt8) (m : Message) :
    decodePayload p = .ok m ↔ encodePayload m = .ok p :=
  ⟨encodePayload_of_decodePayload, decodePayload_of_encodePayload⟩

/-- No payload the encoder writes comes near the frame limit. -/
theorem length_encodePayload {p : List UInt8} {m : Message} (h : encodePayload m = .ok p) :
    p.length ≤ maxFrameLen := by
  have hmax : maxStringLen = 256 := rfl
  cases m with
  | hello version clientName =>
    obtain ⟨hs, rfl⟩ := pushString_eq_ok_iff.mp h
    simp [maxFrameLen]
    omega
  | error code msg =>
    obtain ⟨hs, rfl⟩ := pushString_eq_ok_iff.mp h
    simp [maxFrameLen]
    omega
  | _ => cases h; simp [maxFrameLen]

theorem encode_eq_ok_iff {frame : List UInt8} {m : Message} : encode m = .ok frame ↔
    ∃ payload, encodePayload m = .ok payload ∧
      frame = magic ++ leBytes 2 payload.length ++ payload := by
  unfold encode
  cases encodePayload m with
  | error e => simp [Except.map]
  | ok payload => simp [Except.map, eq_comm]

end Ferrokey.Protocol
