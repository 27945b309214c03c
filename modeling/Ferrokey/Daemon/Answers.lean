import Ferrokey.Daemon.Session

/-! # What a message is answered with

A key message is stopped by a check of the session or by the ledger, with nothing
changed, or it comes to a device write. The answer of every message is read off
these two cases.
-/

namespace Ferrokey.Daemon

open Uinput Protocol

/-- The outcomes that refuse a message and end the connection. -/
def Outcome.Refuses : Outcome → Prop
  | .replyAndClose _ | .close => True
  | _ => False

def Outcome.message : Outcome → Option Message
  | .reply msg | .replyAndClose msg => some msg
  | .close | .keep => none

@[simp] theorem refuses_errClose (code : ErrorCode) (detail : String) :
    (errClose code detail).Refuses := trivial

@[simp] theorem refuses_deviceErrorOutcome (e : DeviceError) : (deviceErrorOutcome e).Refuses :=
  trivial

/-- The answers to key messages that are stopped before they come to a write. -/
inductive Stopped (s : ClientSession) (d : UinputDevice) : Message → Outcome → Prop where
  | closed {msg : Message} : s.sessionOpen = false → Stopped s d msg .close
  | incapable {msg : Message} (code : UInt16) : isCapable code = false →
      Stopped s d msg (errClose .unknownKey s!"key {code} not in capability set")
  | duplicate {code : UInt16} : code ∈ s.held → Stopped s d (.keyDown code)
      (errClose .invalidKeyState s!"duplicate KEY_DOWN for {code}")
  | limit {code : UInt16} : s.maxHeldKeys ≤ s.held.len → Stopped s d (.keyDown code)
      (errClose .invalidKeyState s!"session held-key limit ({s.maxHeldKeys}) reached")
  | unmatchedUp {code : UInt16} : code ∉ s.held → Stopped s d (.keyUp code)
      (errClose .invalidKeyState s!"KEY_UP for {code} without a matching KEY_DOWN")
  | unmatchedRepeat {code : UInt16} : code ∉ s.held → Stopped s d (.keyRepeat code)
      (errClose .invalidKeyState s!"KEY_REPEAT for {code} without a held key")
  | busy {code : UInt16} : code.toUInt32 ∈ d.ledger.held → Stopped s d (.keyDown code)
      (deviceErrorOutcome (mapSink code ⟨(LedgerError.keyBusy code.toUInt32).display⟩))
  | full {code : UInt16} : d.ledger.maxHeld ≤ d.ledger.held.len → Stopped s d (.keyDown code)
      (deviceErrorOutcome
        (mapSink code ⟨(LedgerError.rollover code.toUInt32 d.ledger.maxHeld).display⟩))
  | notHeld {code : UInt16} : code.toUInt32 ∉ d.ledger.held → Stopped s d (.keyUp code)
      (deviceErrorOutcome (mapSink code ⟨(LedgerError.keyUpWithoutDown code.toUInt32).display⟩))

/-- A write on behalf of a key message: the session moves on only when it is taken, the
ledger has moved already. -/
def answered (s s' : ClientSession) (d : UinputDevice) (ledger : HeldLedger) (code : UInt16)
    (value : ℤ) : ClientSession × RealDevice × Outcome :=
  match d.fd.answer d.fd.attempts with
  | none => (s', ⟨⟨d.fd.wrote code value, ledger⟩⟩, .keep)
  | some text => (s, ⟨⟨d.fd.lost, ledger⟩⟩, deviceErrorOutcome (mapSink code ⟨text⟩))

section

variable {s s' : ClientSession} {d : UinputDevice} {code : UInt16} {key : PhysicalKey}

/-- The shared checks stop a key message or hand its key to the message's own branch. -/
theorem withKey_stopped (s : ClientSession) (d : UinputDevice) (code : UInt16)
    (msg : Message) (body : PhysicalKey → ClientSession × RealDevice × Outcome) :
    (¬ (s.sessionOpen = true ∧ isCapable code = true) ∧
      ∃ out, Stopped s d msg out ∧ withKey s (⟨d⟩ : RealDevice) code body = (s, ⟨d⟩, out)) ∨
    (s.sessionOpen = true ∧ isCapable code = true ∧
      ∃ key, PhysicalKey.fromLinuxCode code.toUInt32 = some key ∧ toLinuxCode key = code ∧
        withKey s (⟨d⟩ : RealDevice) code body = body key) := by
  unfold withKey gate
  cases ho : s.sessionOpen
  · exact Or.inl ⟨by simp, .close, .closed ho, by simp⟩
  · cases hc : isCapable code
    · refine Or.inl ⟨by simp, _, .incapable code hc, ?_⟩
      simp [KeyDevice.isCapable, hc]
    · obtain ⟨key, hk⟩ := isCapable_iff.mp hc
      exact Or.inr ⟨rfl, rfl, key, hk, toLinuxCode_of_fromLinuxCode hk,
        by simp [KeyDevice.isCapable, hc, hk]⟩

/-- The write of an operation on a mapped code, with the error kind of a lost one. -/
theorem lift_emit_answer (hk : toLinuxCode key = code) (d : UinputDevice) (ledger : HeldLedger)
    (value : ℤ) :
    (d.fd.answer d.fd.attempts = none ∧
      RealDevice.lift key (d.emit ledger code value) =
        (⟨⟨d.fd.wrote code value, ledger⟩⟩, .ok ())) ∨
    ∃ text, d.fd.answer d.fd.attempts = some text ∧ RealDevice.lift key (d.emit ledger code value) =
      (⟨⟨d.fd.lost, ledger⟩⟩, .error (mapSink code ⟨text⟩)) := by
  cases hw : d.fd.answer d.fd.attempts with
  | none =>
    rw [UinputDevice.emit_of_answer hw]
    exact Or.inl ⟨rfl, rfl⟩
  | some text =>
    rw [UinputDevice.emit_of_failure hw, RealDevice.lift, hk]
    exact Or.inr ⟨text, rfl, rfl⟩

theorem answered_of_taken {ledger : HeldLedger} {value : ℤ}
    (h : d.fd.answer d.fd.attempts = none) :
    answered s s' d ledger code value = (s', ⟨⟨d.fd.wrote code value, ledger⟩⟩, .keep) := by
  simp [answered, h]

theorem answered_of_lost {ledger : HeldLedger} {value : ℤ} {text : String}
    (h : d.fd.answer d.fd.attempts = some text) :
    answered s s' d ledger code value =
      (s, ⟨⟨d.fd.lost, ledger⟩⟩, deviceErrorOutcome (mapSink code ⟨text⟩)) := by
  simp [answered, h]

theorem keyDown_answer (s : ClientSession) (d : UinputDevice) (code : UInt16) :
    (¬ Reaches s d (.keyDown code) ∧ ∃ out, Stopped s d (.keyDown code) out ∧
      processMessage true s (⟨d⟩ : RealDevice) (.keyDown code) = (s, ⟨d⟩, out)) ∨
    (Reaches s d (.keyDown code) ∧ processMessage true s (⟨d⟩ : RealDevice) (.keyDown code) =
      answered s { s with held := s.held.insert code } d (d.ledger.pressed code.toUInt32)
        code 1) := by
  simp only [processMessage, Bool.not_true, Bool.false_eq_true, if_false]
  rcases withKey_stopped s d code (.keyDown code) _ with
    ⟨hn, out, hs, he⟩ | ⟨ho, hc, key, hk, hl, he⟩
  · exact Or.inl ⟨fun h => hn ⟨h.1, h.2.1⟩, out, hs, he⟩
  rw [he]
  by_cases hs : code ∈ s.held
  · refine Or.inl ⟨fun h => h.2.2.1 hs, _, .duplicate hs, ?_⟩
    simp only [hs, BTreeSet.contains_iff, if_true]
  by_cases hm : s.maxHeldKeys ≤ s.held.len
  · refine Or.inl ⟨fun h => absurd h.2.2.2.1 (Nat.not_lt.mpr hm), _, .limit hm, ?_⟩
    simp only [hs, hm, BTreeSet.contains_iff, if_true, if_false]
  simp only [hs, hm, BTreeSet.contains_iff, if_false, KeyDevice.keyDown, RealDevice.keyDown,
    UinputDevice.keyDown_eq hk]
  by_cases hu : code.toUInt32 ∈ d.ledger.held
  · refine Or.inl ⟨fun h => h.2.2.2.2.1 hu, _, .busy hu, ?_⟩
    simp [HeldLedger.keyDown, hu, RealDevice.lift, Except.mapError, hl]
  by_cases hf : d.ledger.maxHeld ≤ d.ledger.held.len
  · refine Or.inl ⟨fun h => absurd h.2.2.2.2.2 (Nat.not_lt.mpr hf), _, .full hf, ?_⟩
    simp [HeldLedger.keyDown, hu, hf, RealDevice.lift, Except.mapError, hl]
  refine Or.inr ⟨⟨ho, hc, hs, Nat.lt_of_not_le hm, hu, Nat.lt_of_not_le hf⟩, ?_⟩
  rw [HeldLedger.keyDown_eq_ok_iff.mpr ⟨hu, Nat.lt_of_not_le hf, rfl⟩]
  rcases lift_emit_answer hl d (d.ledger.pressed code.toUInt32) 1 with ⟨hw, he⟩ | ⟨text, hw, he⟩
  · simp only [he, answered_of_taken hw]
  · simp only [he, answered_of_lost hw]

theorem keyUp_answer (s : ClientSession) (d : UinputDevice) (code : UInt16) :
    (¬ Reaches s d (.keyUp code) ∧ ∃ out, Stopped s d (.keyUp code) out ∧
      processMessage true s (⟨d⟩ : RealDevice) (.keyUp code) = (s, ⟨d⟩, out)) ∨
    (Reaches s d (.keyUp code) ∧ processMessage true s (⟨d⟩ : RealDevice) (.keyUp code) =
      answered s { s with held := s.held.remove code } d (d.ledger.released code.toUInt32)
        code 0) := by
  simp only [processMessage, Bool.not_true, Bool.false_eq_true, if_false]
  rcases withKey_stopped s d code (.keyUp code) _ with
    ⟨hn, out, hs, he⟩ | ⟨ho, hc, key, hk, hl, he⟩
  · exact Or.inl ⟨fun h => hn ⟨h.1, h.2.1⟩, out, hs, he⟩
  rw [he]
  by_cases hs : code ∈ s.held
  · simp only [BTreeSet.contains_iff.mpr hs, Bool.not_true, Bool.false_eq_true, if_false,
      KeyDevice.keyUp, RealDevice.keyUp, UinputDevice.keyUp_eq hk]
    by_cases hu : code.toUInt32 ∈ d.ledger.held
    · refine Or.inr ⟨⟨ho, hc, hs, hu⟩, ?_⟩
      rw [HeldLedger.keyUp_eq_ok_iff.mpr ⟨hu, rfl⟩]
      rcases lift_emit_answer hl d (d.ledger.released code.toUInt32) 0 with
        ⟨hw, he⟩ | ⟨text, hw, he⟩
      · simp only [he, answered_of_taken hw]
      · simp only [he, answered_of_lost hw]
    · refine Or.inl ⟨fun h => hu h.2.2.2, _, .notHeld hu, ?_⟩
      simp [HeldLedger.keyUp, hu, RealDevice.lift, Except.mapError, hl]
  · refine Or.inl ⟨fun h => hs h.2.2.1, _, .unmatchedUp hs, ?_⟩
    simp only [BTreeSet.contains_eq_false_iff.mpr hs, Bool.not_false, if_true]

theorem keyRepeat_answer (s : ClientSession) (d : UinputDevice) (code : UInt16) :
    (¬ Reaches s d (.keyRepeat code) ∧ ∃ out, Stopped s d (.keyRepeat code) out ∧
      processMessage true s (⟨d⟩ : RealDevice) (.keyRepeat code) = (s, ⟨d⟩, out)) ∨
    (Reaches s d (.keyRepeat code) ∧ processMessage true s (⟨d⟩ : RealDevice) (.keyRepeat code) =
      answered s s d d.ledger code 2) := by
  simp only [processMessage, Bool.not_true, Bool.false_eq_true, if_false]
  rcases withKey_stopped s d code (.keyRepeat code) _ with
    ⟨hn, out, hs, he⟩ | ⟨ho, hc, key, hk, hl, he⟩
  · exact Or.inl ⟨fun h => hn ⟨h.1, h.2.1⟩, out, hs, he⟩
  rw [he]
  by_cases hs : code ∈ s.held
  · refine Or.inr ⟨⟨ho, hc, hs⟩, ?_⟩
    simp only [BTreeSet.contains_iff.mpr hs, Bool.not_true, Bool.false_eq_true, if_false,
      KeyDevice.keyRepeat, RealDevice.keyRepeat, UinputDevice.keyRepeat_eq hk]
    rcases lift_emit_answer hl d d.ledger 2 with ⟨hw, he⟩ | ⟨text, hw, he⟩
    · simp only [he, answered_of_taken hw]
    · simp only [he, answered_of_lost hw]
  · refine Or.inl ⟨fun h => hs h.2.2, _, .unmatchedRepeat hs, ?_⟩
    simp only [BTreeSet.contains_eq_false_iff.mpr hs, Bool.not_false, if_true]

end

end Ferrokey.Daemon
