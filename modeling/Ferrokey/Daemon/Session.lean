import Ferrokey.Daemon.Device
import Ferrokey.Protocol.Message

/-! # Client sessions and the protocol core

A session is logical client state only: the two handshake flags and the keys it
has pressed. `processMessage` turns one decoded message into an outcome and a
few operations on the shared device.
-/

namespace Ferrokey.Daemon

open Uinput Protocol

inductive Outcome where
  | reply (msg : Message)
  | replyAndClose (msg : Message)
  | close
  | keep
  deriving DecidableEq

structure ClientSession where
  helloReceived : Bool
  sessionOpen : Bool
  held : BTreeSet UInt16
  maxHeldKeys : ℕ
  deriving DecidableEq

namespace ClientSession

def new (maxHeldKeys : ℕ) : ClientSession := ⟨false, false, .new, maxHeldKeys⟩

def drainHeld (s : ClientSession) : List UInt16 × ClientSession :=
  (s.held.elems, { s with held := .new })

end ClientSession

def errClose (code : ErrorCode) (detail : String) : Outcome := .replyAndClose (.error code detail)

def deviceErrorOutcome (e : DeviceError) : Outcome :=
  let errorCode : ErrorCode := match e with
    | .unknownKey _ => .unknownKey
    | .keyUpWithoutDown _ | .rollover _ | .keyBusy _ => .invalidKeyState
    | .io _ => .internal
  errClose errorCode e.display

/-- The handshake gate: OPEN_SESSION must precede key operations. -/
def gate (s : ClientSession) : Bool := s.sessionOpen

section

variable {δ : Type} [KeyDevice δ]

/-- The checks that every key message passes through before its own: the gate, the
capability set and the mapping to a key. -/
def withKey (s : ClientSession) (d : δ) (code : UInt16)
    (body : PhysicalKey → ClientSession × δ × Outcome) : ClientSession × δ × Outcome :=
  if !gate s then (s, d, .close)
  else if !KeyDevice.isCapable d code then
    (s, d, errClose .unknownKey s!"key {code} not in capability set")
  else
    match PhysicalKey.fromLinuxCode code.toUInt32 with
    | none => (s, d, errClose .unknownKey s!"key {code} unmapped")
    | some key => body key

/-- Process one decoded message against the session and the device. The rate limiter
runs on wall-clock time; `allowed` is its answer for this message. -/
def processMessage (allowed : Bool) (s : ClientSession) (d : δ) (msg : Message) :
    ClientSession × δ × Outcome :=
  if !allowed then (s, d, .replyAndClose (.error .rateLimited "rate limit exceeded"))
  else
    match msg with
    | .hello version _ =>
      if s.helloReceived then (s, d, errClose .malformed "duplicate HELLO")
      else
        let s' := { s with helloReceived := true }
        if version ≠ protocolVersion then
          (s', d, errClose .versionMismatch s!"expected version {protocolVersion}")
        else (s', d, .keep)
    | .openSession =>
      if !s.helloReceived then (s, d, errClose .handshake "HELLO must precede OPEN_SESSION")
      else if s.sessionOpen then (s, d, errClose .alreadyCreated "session already open")
      else ({ s with sessionOpen := true }, d, .reply .ok)
    | .keyDown code => withKey s d code fun key =>
      if s.held.contains code then
        (s, d, errClose .invalidKeyState s!"duplicate KEY_DOWN for {code}")
      else if s.maxHeldKeys ≤ s.held.len then
        (s, d, errClose .invalidKeyState s!"session held-key limit ({s.maxHeldKeys}) reached")
      else
        match KeyDevice.keyDown d key with
        | (d', .ok ()) => ({ s with held := s.held.insert code }, d', .keep)
        | (d', .error e) => (s, d', deviceErrorOutcome e)
    | .keyUp code => withKey s d code fun key =>
      if !s.held.contains code then
        (s, d, errClose .invalidKeyState s!"KEY_UP for {code} without a matching KEY_DOWN")
      else
        match KeyDevice.keyUp d key with
        | (d', .ok ()) => ({ s with held := s.held.remove code }, d', .keep)
        | (d', .error e) => (s, d', deviceErrorOutcome e)
    | .keyRepeat code => withKey s d code fun key =>
      if !s.held.contains code then
        (s, d, errClose .invalidKeyState s!"KEY_REPEAT for {code} without a held key")
      else
        match KeyDevice.keyRepeat d key with
        | (d', .ok ()) => (s, d', .keep)
        | (d', .error e) => (s, d', deviceErrorOutcome e)
    | .releaseAll =>
      if !gate s then (s, d, .close)
      else
        let h := s.drainHeld
        match KeyDevice.releaseKeys d h.1 with
        | (d', []) => (h.2, d', .reply .ok)
        | (d', errors) => (h.2, d', .reply (.error .internal
            s!"partial release failure: {errors.length} key(s)"))
    | .ping nonce => (s, d, .reply (.pong nonce))
    | .pong _ => (s, d, errClose .malformed "unexpected PONG from client")
    | .ok => (s, d, errClose .malformed "unexpected OK from client")
    | .error code msg =>
      (s, d, errClose .malformed s!"client sent ERROR({code.debug}): {msg}")

/-- A client leaves: its keys are taken from it and released on the device. -/
def disconnect (s : ClientSession) (d : δ) : δ × List DeviceError :=
  KeyDevice.releaseKeys d s.drainHeld.1

end

/-- A message that passes every check of the session and of the ledger, so that it
comes to a device write. -/
def Reaches (s : ClientSession) (d : UinputDevice) : Message → Prop
  | .keyDown code => s.sessionOpen = true ∧ isCapable code = true ∧ code ∉ s.held ∧
      s.held.len < s.maxHeldKeys ∧ code.toUInt32 ∉ d.ledger.held ∧
      d.ledger.held.len < d.ledger.maxHeld
  | .keyUp code => s.sessionOpen = true ∧ isCapable code = true ∧ code ∈ s.held ∧
      code.toUInt32 ∈ d.ledger.held
  | .keyRepeat code => s.sessionOpen = true ∧ isCapable code = true ∧ code ∈ s.held
  | .releaseAll => s.sessionOpen = true
  | _ => False

/-- Everything one message can do to a session's keys and to the real device. -/
inductive Effect (allowed : Bool) (s : ClientSession) (d : UinputDevice) :
    Message → ClientSession → UinputDevice → Prop where
  | quiet {msg : Message} {s' : ClientSession} : ¬ (allowed = true ∧ Reaches s d msg) →
      s'.held = s.held → Effect allowed s d msg s' d
  | press {code : UInt16} : allowed = true → Reaches s d (.keyDown code) →
      d.fd.answer d.fd.attempts = none →
      Effect allowed s d (.keyDown code) { s with held := s.held.insert code }
        ⟨d.fd.wrote code 1, d.ledger.pressed code.toUInt32⟩
  | pressLost {code : UInt16} {e : String} : allowed = true → Reaches s d (.keyDown code) →
      d.fd.answer d.fd.attempts = some e →
      Effect allowed s d (.keyDown code) s ⟨d.fd.lost, d.ledger.pressed code.toUInt32⟩
  | release {code : UInt16} : allowed = true → Reaches s d (.keyUp code) →
      d.fd.answer d.fd.attempts = none →
      Effect allowed s d (.keyUp code) { s with held := s.held.remove code }
        ⟨d.fd.wrote code 0, d.ledger.released code.toUInt32⟩
  | releaseLost {code : UInt16} {e : String} : allowed = true → Reaches s d (.keyUp code) →
      d.fd.answer d.fd.attempts = some e →
      Effect allowed s d (.keyUp code) s ⟨d.fd.lost, d.ledger.released code.toUInt32⟩
  | again {code : UInt16} : allowed = true → Reaches s d (.keyRepeat code) →
      d.fd.answer d.fd.attempts = none →
      Effect allowed s d (.keyRepeat code) s ⟨d.fd.wrote code 2, d.ledger⟩
  | againLost {code : UInt16} {e : String} : allowed = true → Reaches s d (.keyRepeat code) →
      d.fd.answer d.fd.attempts = some e →
      Effect allowed s d (.keyRepeat code) s ⟨d.fd.lost, d.ledger⟩
  | releaseAll : allowed = true → Reaches s d .releaseAll →
      Effect allowed s d .releaseAll { s with held := .new } (d.releaseKeys s.held.elems).1

section

variable {s : ClientSession} {d : UinputDevice} {code : UInt16}

/-- The shared checks either stop a key message with everything unchanged or hand its
key to the message's own branch. -/
theorem withKey_cases (s : ClientSession) (d : UinputDevice) (code : UInt16)
    (body : PhysicalKey → ClientSession × RealDevice × Outcome) :
    (¬ (s.sessionOpen = true ∧ isCapable code = true) ∧
      ∃ out, withKey s (⟨d⟩ : RealDevice) code body = (s, ⟨d⟩, out)) ∨
    (s.sessionOpen = true ∧ isCapable code = true ∧
      ∃ key, PhysicalKey.fromLinuxCode code.toUInt32 = some key ∧
        withKey s (⟨d⟩ : RealDevice) code body = body key) := by
  unfold withKey gate
  cases ho : s.sessionOpen
  · exact Or.inl ⟨by simp, .close, by simp⟩
  · cases hc : isCapable code
    · refine Or.inl ⟨by simp, errClose .unknownKey s!"key {code} not in capability set", ?_⟩
      simp [KeyDevice.isCapable, hc]
    · obtain ⟨key, hk⟩ := isCapable_iff.mp hc
      exact Or.inr ⟨rfl, rfl, key, hk, by simp [KeyDevice.isCapable, hc, hk]⟩

theorem keyDown_effect :
    Effect true s d (.keyDown code) (processMessage true s (⟨d⟩ : RealDevice) (.keyDown code)).1
      (processMessage true s (⟨d⟩ : RealDevice) (.keyDown code)).2.1.dev := by
  simp only [processMessage, Bool.not_true, Bool.false_eq_true, if_false]
  rcases withKey_cases s d code _ with ⟨hn, out, he⟩ | ⟨ho, hc, key, hk, he⟩
  · rw [he]
    exact .quiet (fun h => hn ⟨h.2.1, h.2.2.1⟩) rfl
  · rw [he]
    by_cases hs : code ∈ s.held
    · simp only [hs, BTreeSet.contains_iff, if_true]
      exact .quiet (fun h => h.2.2.2.1 hs) rfl
    by_cases hl : s.maxHeldKeys ≤ s.held.len
    · simp only [hs, hl, BTreeSet.contains_iff, if_true, if_false]
      exact .quiet (fun h => absurd h.2.2.2.2.1 (Nat.not_lt.mpr hl)) rfl
    simp only [hs, hl, BTreeSet.contains_iff, if_false, KeyDevice.keyDown, RealDevice.keyDown,
      UinputDevice.keyDown_eq hk]
    cases hd : d.ledger.keyDown code.toUInt32 with
    | error e =>
      refine .quiet (fun h => ?_) rfl
      rw [HeldLedger.keyDown_eq_ok_iff.mpr ⟨h.2.2.2.2.2.1, h.2.2.2.2.2.2, rfl⟩] at hd
      cases hd
    | ok ledger =>
      obtain ⟨hu, hm, rfl⟩ := HeldLedger.keyDown_eq_ok_iff.mp hd
      have hr : Reaches s d (.keyDown code) := ⟨ho, hc, hs, Nat.lt_of_not_le hl, hu, hm⟩
      rcases RealDevice.lift_emit key d (d.ledger.pressed code.toUInt32) code 1 with
        ⟨hw, hl⟩ | ⟨text, e, hw, hl⟩
      · rw [hl]
        exact .press rfl hr hw
      · rw [hl]
        exact .pressLost rfl hr hw

theorem keyUp_effect :
    Effect true s d (.keyUp code) (processMessage true s (⟨d⟩ : RealDevice) (.keyUp code)).1
      (processMessage true s (⟨d⟩ : RealDevice) (.keyUp code)).2.1.dev := by
  simp only [processMessage, Bool.not_true, Bool.false_eq_true, if_false]
  rcases withKey_cases s d code _ with ⟨hn, out, he⟩ | ⟨ho, hc, key, hk, he⟩
  · rw [he]
    exact .quiet (fun h => hn ⟨h.2.1, h.2.2.1⟩) rfl
  · rw [he]
    by_cases hs : s.held.contains code
    · simp only [hs, Bool.not_true, Bool.false_eq_true, if_false, KeyDevice.keyUp,
        RealDevice.keyUp, UinputDevice.keyUp_eq hk]
      cases hd : d.ledger.keyUp code.toUInt32 with
      | error e =>
        refine .quiet (fun h => ?_) rfl
        rw [HeldLedger.keyUp_eq_ok_iff.mpr ⟨h.2.2.2.2, rfl⟩] at hd
        cases hd
      | ok ledger =>
        obtain ⟨hu, rfl⟩ := HeldLedger.keyUp_eq_ok_iff.mp hd
        have hr : Reaches s d (.keyUp code) := ⟨ho, hc, BTreeSet.contains_iff.mp hs, hu⟩
        rcases RealDevice.lift_emit key d (d.ledger.released code.toUInt32) code 0 with
          ⟨hw, hl⟩ | ⟨text, e, hw, hl⟩
        · rw [hl]
          exact .release rfl hr hw
        · rw [hl]
          exact .releaseLost rfl hr hw
    · simp only [hs, Bool.not_false, if_true]
      exact .quiet (fun h => hs (BTreeSet.contains_iff.mpr h.2.2.2.1)) rfl

theorem keyRepeat_effect :
    Effect true s d (.keyRepeat code)
      (processMessage true s (⟨d⟩ : RealDevice) (.keyRepeat code)).1
      (processMessage true s (⟨d⟩ : RealDevice) (.keyRepeat code)).2.1.dev := by
  simp only [processMessage, Bool.not_true, Bool.false_eq_true, if_false]
  rcases withKey_cases s d code _ with ⟨hn, out, he⟩ | ⟨ho, hc, key, hk, he⟩
  · rw [he]
    exact .quiet (fun h => hn ⟨h.2.1, h.2.2.1⟩) rfl
  · rw [he]
    by_cases hs : s.held.contains code
    · have hr : Reaches s d (.keyRepeat code) := ⟨ho, hc, BTreeSet.contains_iff.mp hs⟩
      simp only [hs, Bool.not_true, Bool.false_eq_true, if_false, KeyDevice.keyRepeat,
        RealDevice.keyRepeat, UinputDevice.keyRepeat_eq hk]
      rcases RealDevice.lift_emit key d d.ledger code 2 with ⟨hw, hl⟩ | ⟨text, e, hw, hl⟩
      · rw [hl]
        exact .again rfl hr hw
      · rw [hl]
        exact .againLost rfl hr hw
    · simp only [hs, Bool.not_false, if_true]
      exact .quiet (fun h => hs (BTreeSet.contains_iff.mpr h.2.2.2)) rfl

theorem releaseAll_effect :
    Effect true s d .releaseAll (processMessage true s (⟨d⟩ : RealDevice) .releaseAll).1
      (processMessage true s (⟨d⟩ : RealDevice) .releaseAll).2.1.dev := by
  simp only [processMessage, Bool.not_true, Bool.false_eq_true, if_false]
  by_cases ho : s.sessionOpen = true
  · rw [if_neg (by simp [gate, ho])]
    simp only [KeyDevice.releaseKeys, RealDevice.releaseKeys, ClientSession.drainHeld]
    split <;> next h =>
      obtain ⟨rfl, -⟩ := Prod.mk.inj h
      exact .releaseAll rfl ho
  · rw [if_pos (by simp [gate, ho])]
    exact .quiet (fun h => ho h.2) rfl

/-- What `processMessage` does with the real device is one of the effects. -/
theorem processMessage_effect (allowed : Bool) (s : ClientSession) (d : UinputDevice)
    (msg : Message) :
    Effect allowed s d msg (processMessage allowed s (⟨d⟩ : RealDevice) msg).1
      (processMessage allowed s (⟨d⟩ : RealDevice) msg).2.1.dev := by
  cases allowed with
  | false => exact .quiet (fun h => Bool.noConfusion h.1) rfl
  | true =>
    cases msg with
    | keyDown code => exact keyDown_effect
    | keyUp code => exact keyUp_effect
    | keyRepeat code => exact keyRepeat_effect
    | releaseAll => exact releaseAll_effect
    | hello version name =>
      simp only [processMessage, Bool.not_true, Bool.false_eq_true, if_false]
      repeat' split
      all_goals exact .quiet (fun h => h.2) rfl
    | openSession =>
      simp only [processMessage, Bool.not_true, Bool.false_eq_true, if_false]
      repeat' split
      all_goals exact .quiet (fun h => h.2) rfl
    | ping nonce => exact .quiet (fun h => h.2) rfl
    | pong nonce => exact .quiet (fun h => h.2) rfl
    | ok => exact .quiet (fun h => h.2) rfl
    | error code text => exact .quiet (fun h => h.2) rfl

end

end Ferrokey.Daemon
