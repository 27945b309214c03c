import Ferrokey.Daemon.Handshake

/-! # What a fresh session accepts

A client that has greeted the daemon sends key messages and pings. Below the limits, a
fresh session accepts all of them exactly when they are a well-formed stream of key
events.
-/

namespace Ferrokey.Daemon

open Uinput Protocol Machine

/-- A key message as a key event. -/
def keyStroke : Message → Option (Stroke UInt16)
  | .keyDown code => some (.down code)
  | .keyUp code => some (.up code)
  | .keyRepeat code => some (.again code)
  | _ => none

/-- The messages of a client that has greeted. -/
def Ordinary : Message → Prop
  | .keyDown code | .keyUp code | .keyRepeat code => isCapable code = true
  | .ping _ => True
  | _ => False

/-- A session with a device to itself. -/
structure Peer where
  session : ClientSession
  device : RealDevice

namespace Peer

/-- A fresh session on a device that takes every write and has no key down. -/
def fresh (maxHeldKeys maxHeld : ℕ) : Peer :=
  ⟨.new maxHeldKeys, ⟨.new (fun _ => none) maxHeld⟩⟩

/-- The session processes a message that the rate limiter lets through. -/
def receive (p : Peer) (msg : Message) : Peer × Outcome :=
  let r := processMessage true p.session p.device msg
  (⟨r.1, r.2.1⟩, r.2.2)

/-- A press finds the session and the device below their limits. -/
def BelowLimits (p : Peer) : Message → Prop
  | .keyDown _ => p.session.held.len < p.session.maxHeldKeys ∧
      p.device.dev.ledger.held.len < p.device.dev.ledger.maxHeld
  | _ => True

def Accepts (p : Peer) (msg : Message) : Prop := ¬ (p.receive msg).2.Ends

/-- The session is open on a device that takes every write, and both hold these keys. -/
structure Holds (p : Peer) (held : Set UInt16) : Prop where
  opened : p.session.sessionOpen = true
  answers : ∀ n, p.device.dev.fd.answer n = none
  session : ∀ code, code ∈ p.session.held ↔ code ∈ held
  ledger : ∀ code : UInt16, code.toUInt32 ∈ p.device.dev.ledger.held ↔ code ∈ held

section

variable {p : Peer} {held : Set UInt16} {code : UInt16}

theorem Holds.withKey (h : p.Holds held) (hc : isCapable code = true) :
    ∃ key, PhysicalKey.fromLinuxCode code.toUInt32 = some key ∧
      ∀ body, withKey p.session p.device code body = body key := by
  obtain ⟨key, hk⟩ := isCapable_iff.mp hc
  refine ⟨key, hk, fun body => ?_⟩
  simp [Daemon.withKey, gate, h.opened, KeyDevice.isCapable, hc, hk]

theorem Holds.keyDown (h : p.Holds held) (hc : isCapable code = true)
    (hb : p.BelowLimits (.keyDown code)) : (p.Accepts (.keyDown code) ↔ code ∉ held) ∧
      (code ∉ held → (p.receive (.keyDown code)).1.Holds (insert code held)) := by
  obtain ⟨key, hk, he⟩ := h.withKey hc
  by_cases hm : code ∈ held
  · have hs : code ∈ p.session.held := (h.session code).mpr hm
    simp only [Accepts, receive, processMessage, Bool.not_true, Bool.false_eq_true, if_false, he]
    simp [hm, hs, errClose, Outcome.Ends]
  · have hs : code ∉ p.session.held := mt (h.session code).mp hm
    have hl : code.toUInt32 ∉ p.device.dev.ledger.held := mt (h.ledger code).mp hm
    have hr : p.receive (.keyDown code) = (⟨{ p.session with held := p.session.held.insert code },
        ⟨⟨p.device.dev.fd.wrote code 1, p.device.dev.ledger.pressed code.toUInt32⟩⟩⟩, .keep) := by
      simp only [receive, processMessage, Bool.not_true, Bool.false_eq_true, if_false, he]
      simp [hs, Nat.not_le.mpr hb.1, KeyDevice.keyDown, RealDevice.keyDown, UinputDevice.keyDown_eq hk,
        HeldLedger.keyDown_eq_ok_iff.mpr ⟨hl, hb.2, rfl⟩, UinputDevice.emit_of_answer (h.answers _),
        RealDevice.lift, Except.mapError]
    rw [Accepts, hr]
    refine ⟨by simp [Outcome.Ends, hm], fun _ => ?_⟩
    constructor
    · exact h.opened
    · exact h.answers
    · intro code'
      exact BTreeSet.mem_insert.trans (or_congr_right (h.session code'))
    · intro code'
      exact BTreeSet.mem_insert.trans (or_congr UInt16.toUInt32_inj (h.ledger code'))

theorem Holds.keyUp (h : p.Holds held) (hc : isCapable code = true) :
    (p.Accepts (.keyUp code) ↔ code ∈ held) ∧
      (code ∈ held → (p.receive (.keyUp code)).1.Holds (held \ {code})) := by
  obtain ⟨key, hk, he⟩ := h.withKey hc
  by_cases hm : code ∈ held
  · have hs : code ∈ p.session.held := (h.session code).mpr hm
    have hl : code.toUInt32 ∈ p.device.dev.ledger.held := (h.ledger code).mpr hm
    have hr : p.receive (.keyUp code) = (⟨{ p.session with held := p.session.held.remove code },
        ⟨⟨p.device.dev.fd.wrote code 0, p.device.dev.ledger.released code.toUInt32⟩⟩⟩, .keep) := by
      simp only [receive, processMessage, Bool.not_true, Bool.false_eq_true, if_false, he]
      simp [hs, KeyDevice.keyUp, RealDevice.keyUp, UinputDevice.keyUp_eq hk,
        HeldLedger.keyUp_eq_ok_iff.mpr ⟨hl, rfl⟩, UinputDevice.emit_of_answer (h.answers _),
        RealDevice.lift, Except.mapError]
    rw [Accepts, hr]
    refine ⟨by simp [Outcome.Ends, hm], fun _ => ?_⟩
    constructor
    · exact h.opened
    · exact h.answers
    · intro code'
      exact BTreeSet.mem_remove.trans (and_comm.trans (and_congr_left' (h.session code')))
    · intro code'
      refine BTreeSet.mem_remove.trans (and_comm.trans (and_congr (h.ledger code') ?_))
      exact not_congr UInt16.toUInt32_inj
  · have hs : code ∉ p.session.held := mt (h.session code).mp hm
    simp only [Accepts, receive, processMessage, Bool.not_true, Bool.false_eq_true, if_false, he]
    simp [hm, hs, errClose, Outcome.Ends]

theorem Holds.keyRepeat (h : p.Holds held) (hc : isCapable code = true) :
    (p.Accepts (.keyRepeat code) ↔ code ∈ held) ∧
      (code ∈ held → (p.receive (.keyRepeat code)).1.Holds held) := by
  obtain ⟨key, hk, he⟩ := h.withKey hc
  by_cases hm : code ∈ held
  · have hs : code ∈ p.session.held := (h.session code).mpr hm
    have hr : p.receive (.keyRepeat code) =
        (⟨p.session, ⟨⟨p.device.dev.fd.wrote code 2, p.device.dev.ledger⟩⟩⟩, .keep) := by
      simp only [receive, processMessage, Bool.not_true, Bool.false_eq_true, if_false, he]
      simp [hs, KeyDevice.keyRepeat, RealDevice.keyRepeat, UinputDevice.keyRepeat_eq hk,
        UinputDevice.emit_of_answer (h.answers _), RealDevice.lift, Except.mapError]
    rw [Accepts, hr]
    exact ⟨by simp [Outcome.Ends, hm], fun _ => ⟨h.opened, h.answers, h.session, h.ledger⟩⟩
  · have hs : code ∉ p.session.held := mt (h.session code).mp hm
    simp only [Accepts, receive, processMessage, Bool.not_true, Bool.false_eq_true, if_false, he]
    simp [hm, hs, errClose, Outcome.Ends]

/-- A key message is accepted when its event is possible while the held keys are down. -/
theorem Holds.step (h : p.Holds held) {msg : Message} {e : Stroke UInt16} (ho : Ordinary msg)
    (hb : p.BelowLimits msg) (he : keyStroke msg = some e) :
    (p.Accepts msg ↔ e.Legal held) ∧ (e.Legal held → (p.receive msg).1.Holds (e.after held)) := by
  match msg, e, he with
  | .keyDown code, _, rfl => exact h.keyDown ho hb
  | .keyUp code, _, rfl => exact h.keyUp ho
  | .keyRepeat code, _, rfl => exact h.keyRepeat ho

theorem Holds.accepts_iff (h : p.Holds held) {msgs : List Message} (ho : ∀ msg ∈ msgs, Ordinary msg)
    (hb : Steps receive BelowLimits p msgs) :
    Steps receive Accepts p msgs ↔ LegalFrom held (msgs.filterMap keyStroke) := by
  induction msgs generalizing p held with
  | nil => simp
  | cons msg msgs ih =>
    obtain ⟨ho, hos⟩ := List.forall_mem_cons.mp ho
    obtain ⟨hb, hbs⟩ := steps_cons_iff.mp hb
    rw [steps_cons_iff]
    cases hs : keyStroke msg with
    | none =>
      have hping : ∃ nonce, msg = .ping nonce := by
        cases msg with
        | ping nonce => exact ⟨nonce, rfl⟩
        | keyDown | keyUp | keyRepeat => cases hs
        | _ => cases ho
      obtain ⟨nonce, rfl⟩ := hping
      rw [List.filterMap_cons_none hs]
      exact (and_iff_right id).trans (ih h hos hbs)
    | some e =>
      obtain ⟨hacc, hnext⟩ := h.step ho hb hs
      rw [List.filterMap_cons_some hs, legalFrom_cons, hacc]
      exact and_congr_right fun hl => ih (hnext hl) hos hbs

end

/-- Below the limits, a fresh session accepts the messages of a client that greets first
exactly when its key messages are a well-formed stream. -/
theorem accepts_fresh_iff (maxHeldKeys maxHeld : ℕ) (name : String) {msgs : List Message}
    (ho : ∀ msg ∈ msgs, Ordinary msg)
    (hb : Steps receive BelowLimits (fresh maxHeldKeys maxHeld)
      (.hello protocolVersion name :: .openSession :: msgs)) :
    Steps receive Accepts (fresh maxHeldKeys maxHeld)
        (.hello protocolVersion name :: .openSession :: msgs) ↔
      WellFormed (msgs.filterMap keyStroke) := by
  have hopen : Holds ⟨⟨true, true, .new, maxHeldKeys⟩, (fresh maxHeldKeys maxHeld).device⟩ ∅ := by
    constructor
    · rfl
    · exact fun n => rfl
    · exact fun code => by simp
    · exact fun code => by simp [fresh, UinputDevice.new, HeldLedger.new]
  rw [steps_cons_iff, steps_cons_iff] at hb ⊢
  exact (and_iff_right id).trans ((and_iff_right id).trans (hopen.accepts_iff ho hb.2.2))

end Peer

end Ferrokey.Daemon
