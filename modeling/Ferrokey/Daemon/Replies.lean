import Ferrokey.Daemon.Answers
import Ferrokey.Protocol.Codec
import Mathlib.Data.List.Perm.Subperm
import Mathlib.Data.String.Basic

/-! # Replies that can be sent

A reply is put into a frame before it is sent, and a frame takes texts of at most 256
bytes. All texts of the broker's own are short; those that carry a text from outside,
a client's error message or the kernel's answer to a write, need not be.
-/

namespace Ferrokey.Daemon

open Uinput Protocol

/-- The reply of an outcome, if it has one, can be put into a frame. -/
def Deliverable (out : Outcome) : Prop :=
  ∀ msg, out.message = some msg → ∃ frame, encode msg = .ok frame

section Lengths

theorem utf8Len_of_narrow {l : List Char} (h : ∀ c ∈ l, c.utf8Size = 1) :
    String.utf8Len l = l.length := by
  induction l with
  | nil => rfl
  | cons c l ih =>
    obtain ⟨hc, hl⟩ := List.forall_mem_cons.mp h
    rw [String.utf8Len_cons, ih hl, hc, List.length_cons]

theorem utf8Size_of_isDigit {c : Char} (h : c.isDigit = true) : c.utf8Size = 1 := by
  simp only [Char.isDigit, Bool.and_eq_true, decide_eq_true_eq] at h
  have hc : c.val ≤ 0x7f := h.2.trans (by decide)
  simp [Char.utf8Size, hc]

/-- A number below `10 ^ k` is printed in at most `k` bytes. -/
theorem utf8ByteSize_toString_le {n k : ℕ} (hk : 0 < k) (h : n < 10 ^ k) :
    (toString n).utf8ByteSize ≤ k := by
  have hd : ∀ c ∈ Nat.toDigits 10 n, c.utf8Size = 1 := fun c hc =>
    utf8Size_of_isDigit (Nat.isDigit_of_mem_toDigits (by decide) (by decide) hc)
  rw [Nat.toString_eq_repr, Nat.repr_eq_ofList_toDigits, String.utf8ByteSize_ofList,
    utf8Len_of_narrow hd]
  exact (Nat.length_toDigits_le_iff (by decide) hk).mpr h

theorem utf8ByteSize_code_le (code : UInt16) : (toString code).utf8ByteSize ≤ 5 :=
  utf8ByteSize_toString_le (n := code.toNat) (by decide) (code.toNat_lt.trans (by decide))

theorem utf8ByteSize_wide_code_le (code : UInt32) : (toString code).utf8ByteSize ≤ 10 :=
  utf8ByteSize_toString_le (n := code.toNat) (by decide) (code.toNat_lt.trans (by decide))

theorem utf8ByteSize_usize_le {n : ℕ} (h : n < 2 ^ 64) : (toString n).utf8ByteSize ≤ 20 :=
  utf8ByteSize_toString_le (by decide) (h.trans (by decide))

theorem utf8ByteSize_append_le {s t : String} {a b : ℕ} (hs : s.utf8ByteSize ≤ a)
    (ht : t.utf8ByteSize ≤ b) : (s ++ t).utf8ByteSize ≤ a + b :=
  String.utf8ByteSize_append.trans_le (Nat.add_le_add hs ht)

/-- A printed text between two fixed ones. -/
theorem utf8ByteSize_between_le {pre text post : String} {k n : ℕ} (ht : text.utf8ByteSize ≤ k)
    (h : pre.utf8ByteSize + k + post.utf8ByteSize ≤ n) :
    (pre ++ text ++ post).utf8ByteSize ≤ n :=
  (utf8ByteSize_append_le (utf8ByteSize_append_le le_rfl ht) le_rfl).trans h

end Lengths

section

variable {out : Outcome} {code : ErrorCode} {text : String}

theorem encode_error_iff :
    (∃ frame, encode (.error code text) = .ok frame) ↔ text.utf8ByteSize ≤ maxStringLen := by
  have hl : (asBytes text).length = text.utf8ByteSize := rfl
  simp only [encode, encodePayload, pushString, hl]
  constructor
  · rintro ⟨frame, h⟩
    by_contra hn
    rw [if_pos (Nat.lt_of_not_le hn)] at h
    cases h
  · intro h
    rw [if_neg (Nat.not_lt.mpr h)]
    exact ⟨_, rfl⟩

theorem deliverable_errClose_iff :
    Deliverable (errClose code text) ↔ text.utf8ByteSize ≤ maxStringLen := by
  have he : (∃ frame, encode (.error code text) = .ok frame) ↔ text.utf8ByteSize ≤ maxStringLen :=
    encode_error_iff
  rw [← he]
  constructor
  · intro h
    exact h _ rfl
  · rintro h msg ⟨⟩
    exact h

theorem deliverable_reply_error_iff :
    Deliverable (.reply (.error code text)) ↔ text.utf8ByteSize ≤ maxStringLen :=
  deliverable_errClose_iff

theorem deliverable_of_no_message (h : out.message = none) : Deliverable out := by
  intro msg hm
  rw [h] at hm
  cases hm

theorem deliverable_reply_ok : Deliverable (.reply .ok) := by
  rintro msg ⟨⟩
  exact ⟨_, rfl⟩

theorem deliverable_reply_pong (nonce : UInt32) : Deliverable (.reply (.pong nonce)) := by
  rintro msg ⟨⟩
  exact ⟨_, rfl⟩

end

section DeviceTexts

theorem utf8ByteSize_display_io (text : String) :
    (DeviceError.io text).display.utf8ByteSize = 19 + text.utf8ByteSize := by
  have hd : (DeviceError.io text).display = "device I/O failed: " ++ text := rfl
  rw [hd, String.utf8ByteSize_append]
  rfl

/-- Every device error but an I/O failure is short. -/
theorem utf8ByteSize_display_le (e : DeviceError) (h : ∀ text, e ≠ .io text) :
    e.display.utf8ByteSize ≤ maxStringLen := by
  cases e with
  | io text => exact absurd rfl (h text)
  | unknownKey code => exact utf8ByteSize_between_le (utf8ByteSize_code_le code) (by decide)
  | keyUpWithoutDown code => exact utf8ByteSize_between_le (utf8ByteSize_code_le code) (by decide)
  | rollover code =>
    exact (utf8ByteSize_append_le le_rfl (utf8ByteSize_code_le code)).trans (by decide)
  | keyBusy code => exact utf8ByteSize_between_le (utf8ByteSize_code_le code) (by decide)

/-- The ledger's texts leave room for the words that the daemon puts before them. -/
theorem utf8ByteSize_ledger_le {e : LedgerError}
    (h : (∃ c, e = .keyUpWithoutDown c) ∨ (∃ c, e = .keyBusy c) ∨
      ∃ c limit, limit < 2 ^ 64 ∧ e = .rollover c limit) :
    19 + e.display.utf8ByteSize ≤ maxStringLen := by
  have hb : e.display.utf8ByteSize ≤ 200 := by
    rcases h with ⟨c, rfl⟩ | ⟨c, rfl⟩ | ⟨c, limit, hl, rfl⟩
    · exact utf8ByteSize_between_le (utf8ByteSize_wide_code_le c) (by decide)
    · exact utf8ByteSize_between_le (utf8ByteSize_wide_code_le c) (by decide)
    · have ht : ("key_down for key " ++ toString c ++
          " exceeds the simultaneous-keys cap of ").utf8ByteSize ≤ 80 :=
        utf8ByteSize_between_le (utf8ByteSize_wide_code_le c) (by decide)
      exact (utf8ByteSize_append_le ht (utf8ByteSize_usize_le hl)).trans (by decide)
  have hm : maxStringLen = 256 := rfl
  omega

theorem deliverable_deviceErrorOutcome_iff (e : DeviceError) :
    Deliverable (deviceErrorOutcome e) ↔
      ∀ text, e = .io text → 19 + text.utf8ByteSize ≤ maxStringLen := by
  unfold deviceErrorOutcome
  rw [deliverable_errClose_iff]
  constructor
  · rintro h text rfl
    rwa [utf8ByteSize_display_io] at h
  · intro h
    by_cases hi : ∃ text, e = .io text
    · obtain ⟨text, rfl⟩ := hi
      rw [utf8ByteSize_display_io]
      exact h text rfl
    · exact utf8ByteSize_display_le e fun text he => hi ⟨text, he⟩

/-- A lost write whose text is taken for an I/O failure and leaves no room for the words the
daemon puts before it. -/
def LongFailure (d : UinputDevice) (code : UInt16) : Prop :=
  ∃ text, d.fd.answer d.fd.attempts = some text ∧ mapSink code ⟨text⟩ = .io text ∧
    maxStringLen < 19 + text.utf8ByteSize

theorem mapSink_eq_io_of_io {code : UInt16} {text text' : String}
    (h : mapSink code ⟨text⟩ = .io text') : text' = text := by
  unfold mapSink at h
  split at h
  · cases h
  split at h
  · cases h
  split at h
  · cases h
  split at h <;> cases h
  rfl

theorem deliverable_written_iff (s s' : ClientSession) (d : UinputDevice) (ledger : HeldLedger)
    (code : UInt16) (value : ℤ) :
    Deliverable (answered s s' d ledger code value).2.2 ↔ ¬ LongFailure d code := by
  unfold LongFailure
  cases hw : d.fd.answer d.fd.attempts with
  | none =>
    rw [answered_of_taken hw]
    refine iff_of_true (deliverable_of_no_message rfl) ?_
    rintro ⟨text, ⟨⟩, -⟩
  | some text =>
    rw [answered_of_lost hw, deliverable_deviceErrorOutcome_iff]
    constructor
    · rintro h ⟨text', ⟨⟩, hi, hl⟩
      exact absurd (h text hi) (Nat.not_le.mpr hl)
    · intro h text' hi
      obtain rfl := mapSink_eq_io_of_io hi
      exact Nat.not_lt.mp fun hl => h ⟨text', rfl, hi, hl⟩

theorem deliverable_ledger {code : UInt16} {e : LedgerError}
    (h : (∃ c, e = .keyUpWithoutDown c) ∨ (∃ c, e = .keyBusy c) ∨
      ∃ c limit, limit < 2 ^ 64 ∧ e = .rollover c limit) :
    Deliverable (deviceErrorOutcome (mapSink code ⟨e.display⟩)) := by
  rw [deliverable_deviceErrorOutcome_iff]
  intro text hi
  rw [mapSink_eq_io_of_io hi]
  exact utf8ByteSize_ledger_le h

/-- Whatever stops a key message before its write is answered with a short text. -/
theorem deliverable_stopped {s : ClientSession} {d : UinputDevice} {msg : Message} {out : Outcome}
    (hs : s.maxHeldKeys < 2 ^ 64) (hd : d.ledger.maxHeld < 2 ^ 64) (h : Stopped s d msg out) :
    Deliverable out := by
  cases h with
  | closed => exact deliverable_of_no_message rfl
  | incapable code =>
    exact deliverable_errClose_iff.mpr
      (utf8ByteSize_between_le (utf8ByteSize_code_le code) (by decide))
  | duplicate =>
    exact deliverable_errClose_iff.mpr
      ((utf8ByteSize_append_le le_rfl (utf8ByteSize_code_le _)).trans (by decide))
  | limit =>
    exact deliverable_errClose_iff.mpr
      (utf8ByteSize_between_le (utf8ByteSize_usize_le hs) (by decide))
  | unmatchedUp =>
    exact deliverable_errClose_iff.mpr
      (utf8ByteSize_between_le (utf8ByteSize_code_le _) (by decide))
  | unmatchedRepeat =>
    exact deliverable_errClose_iff.mpr
      (utf8ByteSize_between_le (utf8ByteSize_code_le _) (by decide))
  | busy => exact deliverable_ledger (Or.inr (Or.inl ⟨_, rfl⟩))
  | full => exact deliverable_ledger (Or.inr (Or.inr ⟨_, _, hd, rfl⟩))
  | notHeld => exact deliverable_ledger (Or.inl ⟨_, rfl⟩)

end DeviceTexts

section Messages

variable {s : ClientSession} {d : UinputDevice}

/-- The messages whose reply does not fit into a frame. -/
def RepliedLong (s : ClientSession) (d : UinputDevice) : Message → Prop
  | .error code text => maxStringLen < 21 + code.debug.utf8ByteSize + text.utf8ByteSize
  | .keyDown code => Reaches s d (.keyDown code) ∧ LongFailure d code
  | .keyUp code => Reaches s d (.keyUp code) ∧ LongFailure d code
  | .keyRepeat code => Reaches s d (.keyRepeat code) ∧ LongFailure d code
  | _ => False

theorem length_releaseKeys_le (d : UinputDevice) (codes : List UInt16) :
    (d.releaseKeys codes).2.length ≤ codes.length := by
  induction codes generalizing d with
  | nil => exact le_rfl
  | cons code codes ih =>
    rw [UinputDevice.releaseKeys, List.length_cons]
    split
    · exact Nat.succ_le_succ (ih _)
    · dsimp only
      split
      · exact (ih _).trans (Nat.le_succ _)
      · exact Nat.succ_le_succ (ih _)

theorem len_le_of_codes (held : BTreeSet UInt16) : held.elems.length ≤ 65536 := by
  have hn : (held.elems.map UInt16.toNat).Nodup :=
    held.nodup.map fun _ _ h => UInt16.toNat_inj.mp h
  have hs : held.elems.map UInt16.toNat ⊆ List.range 65536 := by
    intro n hm
    obtain ⟨code, -, rfl⟩ := List.mem_map.mp hm
    exact List.mem_range.mpr code.toNat_lt
  simpa using (List.subperm_of_subset hn hs).length_le

theorem deliverable_releaseAll :
    Deliverable (processMessage true s (⟨d⟩ : RealDevice) .releaseAll).2.2 := by
  cases ho : s.sessionOpen with
  | false => exact deliverable_of_no_message (by simp [processMessage, gate, ho, Outcome.message])
  | true =>
    simp only [processMessage, gate, ho, Bool.not_true, Bool.false_eq_true, if_false]
    split
    · exact deliverable_reply_ok
    · next errors _ he =>
      have hl : errors.length < 10 ^ 5 := by
        have hr : errors.length = (d.releaseKeys s.held.elems).2.length := by
          rw [← congrArg (fun r => r.2.length) he]
          exact List.length_map _
        have := length_releaseKeys_le d s.held.elems
        have := len_le_of_codes s.held
        omega
      exact deliverable_reply_error_iff.mpr
        (utf8ByteSize_between_le (utf8ByteSize_toString_le (by decide) hl) (by decide))

theorem deliverable_error_iff (code : ErrorCode) (text : String) :
    Deliverable (processMessage true s (⟨d⟩ : RealDevice) (.error code text)).2.2 ↔
      ¬ RepliedLong s d (.error code text) := by
  have hl : (s!"client sent ERROR({code.debug}): {text}").utf8ByteSize =
      21 + code.debug.utf8ByteSize + text.utf8ByteSize := by
    have h₁ : (toString "client sent ERROR(").utf8ByteSize = 18 := rfl
    have h₂ : (toString "): ").utf8ByteSize = 3 := rfl
    have h₃ : toString code.debug = code.debug := rfl
    have h₄ : toString text = text := rfl
    rw [String.utf8ByteSize_append, String.utf8ByteSize_append, String.utf8ByteSize_append, h₁, h₂,
      h₃, h₄]
    omega
  rw [RepliedLong, Nat.not_lt, ← hl]
  exact deliverable_errClose_iff

/-- A key message is answered with a short text unless it comes to a write that fails with a
long one. -/
theorem deliverable_key_iff {s' : ClientSession} {ledger : HeldLedger} {code : UInt16} {value : ℤ}
    {msg : Message} {reaches : Prop} (hs : s.maxHeldKeys < 2 ^ 64) (hd : d.ledger.maxHeld < 2 ^ 64)
    (h : (¬ reaches ∧ ∃ out, Stopped s d msg out ∧
        processMessage true s (⟨d⟩ : RealDevice) msg = (s, ⟨d⟩, out)) ∨
      (reaches ∧
        processMessage true s (⟨d⟩ : RealDevice) msg = answered s s' d ledger code value)) :
    Deliverable (processMessage true s (⟨d⟩ : RealDevice) msg).2.2 ↔
      ¬ (reaches ∧ LongFailure d code) := by
  rcases h with ⟨hn, out, hst, he⟩ | ⟨hr, he⟩
  · rw [he]
    exact iff_of_true (deliverable_stopped hs hd hst) fun h => hn h.1
  · simp only [he, deliverable_written_iff, hr, true_and]

/-- The reply to a message can be sent exactly when the message is not one that is answered
with a long text from outside. -/
theorem deliverable_iff (allowed : Bool) (s : ClientSession) (d : UinputDevice) (msg : Message)
    (hs : s.maxHeldKeys < 2 ^ 64) (hd : d.ledger.maxHeld < 2 ^ 64) :
    Deliverable (processMessage allowed s (⟨d⟩ : RealDevice) msg).2.2 ↔
      ¬ (allowed = true ∧ RepliedLong s d msg) := by
  cases allowed with
  | false =>
    exact iff_of_true (deliverable_errClose_iff.mpr (by decide)) fun h => Bool.noConfusion h.1
  | true =>
    simp only [true_and]
    cases msg with
    | hello version name =>
      refine iff_of_true ?_ id
      simp only [processMessage, Bool.not_true, Bool.false_eq_true, if_false]
      split
      · exact deliverable_errClose_iff.mpr (by decide)
      split
      · exact deliverable_errClose_iff.mpr (by decide)
      · exact deliverable_of_no_message rfl
    | openSession =>
      refine iff_of_true ?_ id
      simp only [processMessage, Bool.not_true, Bool.false_eq_true, if_false]
      split
      · exact deliverable_errClose_iff.mpr (by decide)
      split
      · exact deliverable_errClose_iff.mpr (by decide)
      · exact deliverable_reply_ok
    | keyDown code => exact deliverable_key_iff hs hd (keyDown_answer s d code)
    | keyUp code => exact deliverable_key_iff hs hd (keyUp_answer s d code)
    | keyRepeat code => exact deliverable_key_iff hs hd (keyRepeat_answer s d code)
    | releaseAll => exact iff_of_true deliverable_releaseAll id
    | ping nonce => exact iff_of_true (deliverable_reply_pong nonce) id
    | pong nonce => exact iff_of_true (deliverable_errClose_iff.mpr (by decide)) id
    | ok => exact iff_of_true (deliverable_errClose_iff.mpr (by decide)) id
    | error code text => exact deliverable_error_iff code text

/-- A session and a device with the source's default limits. -/
theorem deliverable_iff_default :
    Deliverable (processMessage true (.new 16) (⟨.new (fun _ => none) 16⟩ : RealDevice)
        (.error .malformed "bad frame")).2.2 ↔
      ¬ (true = true ∧
        RepliedLong (.new 16) (.new (fun _ => none) 16) (.error .malformed "bad frame")) :=
  deliverable_iff true _ _ _ (by decide) (by decide)

/-- The longest text that a client can send in an error is answered with one that the broker
cannot send. -/
theorem error_reply_not_deliverable :
    (∃ frame, encode (.error .malformed (String.ofList (List.replicate 256 'a'))) = .ok frame) ∧
    ¬ Deliverable (processMessage true (.new 16) (⟨.new (fun _ => none) 16⟩ : RealDevice)
      (.error .malformed (String.ofList (List.replicate 256 'a')))).2.2 := by
  have ha : ∀ c ∈ List.replicate 256 'a', c.utf8Size = 1 := by
    intro c hc
    rw [List.eq_of_mem_replicate hc]
    rfl
  have hl : (String.ofList (List.replicate 256 'a')).utf8ByteSize = 256 := by
    rw [String.utf8ByteSize_ofList, utf8Len_of_narrow ha, List.length_replicate]
  have hc : ErrorCode.malformed.debug.utf8ByteSize = 9 := rfl
  refine ⟨encode_error_iff.mpr hl.le, fun h => ?_⟩
  have hn := deliverable_error_iff .malformed _ |>.mp h
  rw [RepliedLong, hl, hc] at hn
  exact hn (by decide)

end Messages

end Ferrokey.Daemon
