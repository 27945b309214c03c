import Ferrokey.Daemon.Answers

/-! # What a refused message leaves behind

A message that ends the connection should leave the session and the ledger as they
were. Two kinds of refusal come after something has moved: a HELLO of another version
is refused after the session is marked as greeted, and a press or release whose write
is lost is refused after the ledger has moved.
-/

namespace Ferrokey.Daemon

open Uinput Protocol

/-- If the message is refused, the flags and keys of the session and the ledger of the device
are as before. -/
def Atomic (allowed : Bool) (s : ClientSession) (d : UinputDevice) (msg : Message) : Prop :=
  (processMessage allowed s (⟨d⟩ : RealDevice) msg).2.2.Refuses →
    (processMessage allowed s (⟨d⟩ : RealDevice) msg).1.helloReceived = s.helloReceived ∧
    (processMessage allowed s (⟨d⟩ : RealDevice) msg).1.sessionOpen = s.sessionOpen ∧
    (processMessage allowed s (⟨d⟩ : RealDevice) msg).1.held = s.held ∧
    (processMessage allowed s (⟨d⟩ : RealDevice) msg).2.1.dev.ledger = d.ledger

/-- The messages that are refused after something has moved. -/
def RefusedLate (s : ClientSession) (d : UinputDevice) : Message → Prop
  | .hello version _ => s.helloReceived = false ∧ version ≠ protocolVersion
  | .keyDown code => Reaches s d (.keyDown code) ∧ (d.fd.answer d.fd.attempts).isSome = true
  | .keyUp code => Reaches s d (.keyUp code) ∧ (d.fd.answer d.fd.attempts).isSome = true
  | _ => False

section

variable {allowed : Bool} {s s' : ClientSession} {d : UinputDevice} {msg : Message}

theorem atomic_of_unchanged (out : Outcome)
    (h : processMessage allowed s (⟨d⟩ : RealDevice) msg = (s, ⟨d⟩, out)) :
    Atomic allowed s d msg := by
  intro
  rw [h]
  exact ⟨rfl, rfl, rfl, rfl⟩

theorem atomic_of_not_refused
    (h : ¬ (processMessage allowed s (⟨d⟩ : RealDevice) msg).2.2.Refuses) :
    Atomic allowed s d msg :=
  fun hr => absurd hr h

/-- A message that comes to its write is atomic unless the write is lost and the ledger has
moved. -/
theorem atomic_written_iff {ledger : HeldLedger} {code : UInt16} {value : ℤ}
    (h : processMessage allowed s (⟨d⟩ : RealDevice) msg = answered s s' d ledger code value)
    (hm : ledger ≠ d.ledger) :
    Atomic allowed s d msg ↔ ¬ (d.fd.answer d.fd.attempts).isSome = true := by
  cases hw : d.fd.answer d.fd.attempts with
  | none =>
    have hr : Atomic allowed s d msg := by
      apply atomic_of_not_refused
      rw [h, answered_of_taken hw]
      exact id
    simp [hr]
  | some text =>
    have hr : ¬ Atomic allowed s d msg := by
      intro ha
      rw [Atomic, h, answered_of_lost hw] at ha
      exact hm (ha (refuses_deviceErrorOutcome _)).2.2.2
    simp [hr]

theorem pressed_ne {l : HeldLedger} {code : UInt32} (h : code ∉ l.held) : l.pressed code ≠ l := by
  intro he
  exact h (congrArg HeldLedger.held he ▸ BTreeSet.mem_insert.mpr (Or.inl rfl))

theorem released_ne {l : HeldLedger} {code : UInt32} (h : code ∈ l.held) :
    l.released code ≠ l := by
  intro he
  have hm : code ∈ (l.released code).held := by rwa [he]
  exact (BTreeSet.mem_remove.mp hm).1 rfl

theorem atomic_hello_iff (version : UInt8) (name : String) :
    Atomic true s d (.hello version name) ↔
      ¬ (s.helloReceived = false ∧ version ≠ protocolVersion) := by
  cases hg : s.helloReceived with
  | true =>
    have ha : Atomic true s d (.hello version name) :=
      atomic_of_unchanged (errClose .malformed "duplicate HELLO") (by
        simp [processMessage, hg])
    exact iff_of_true ha fun h => Bool.noConfusion h.1
  | false =>
    by_cases hv : version = protocolVersion
    · have ha : Atomic true s d (.hello version name) := by
        apply atomic_of_not_refused
        simp [processMessage, hg, hv, Outcome.Refuses]
      exact iff_of_true ha fun h => h.2 hv
    · have ha : ¬ Atomic true s d (.hello version name) := by
        simp [Atomic, processMessage, hg, hv]
      exact iff_of_false ha (not_not_intro ⟨rfl, hv⟩)

theorem atomic_openSession : Atomic true s d .openSession := by
  cases hg : s.helloReceived with
  | false =>
    exact atomic_of_unchanged
      (errClose .handshake "HELLO must precede OPEN_SESSION") (by simp [processMessage, hg])
  | true =>
    cases ho : s.sessionOpen with
    | true =>
      exact atomic_of_unchanged (errClose .alreadyCreated "session already open") (by
        simp [processMessage, hg, ho])
    | false =>
      apply atomic_of_not_refused
      simp [processMessage, hg, ho, Outcome.Refuses]

theorem atomic_releaseAll : Atomic true s d .releaseAll := by
  cases ho : s.sessionOpen with
  | false => exact atomic_of_unchanged .close (by simp [processMessage, gate, ho])
  | true =>
    apply atomic_of_not_refused
    simp only [processMessage, gate, ho, Bool.not_true, Bool.false_eq_true, if_false]
    split <;> exact id

/-- A message is refused with the session and the ledger as they were exactly when it is not
one of those refused late. -/
theorem atomic_iff (allowed : Bool) (s : ClientSession) (d : UinputDevice) (msg : Message) :
    Atomic allowed s d msg ↔ ¬ (allowed = true ∧ RefusedLate s d msg) := by
  cases allowed with
  | false =>
    exact iff_of_true (atomic_of_unchanged _ rfl) fun h => Bool.noConfusion h.1
  | true =>
    simp only [true_and]
    cases msg with
    | hello version name => exact atomic_hello_iff version name
    | keyDown code =>
      simp only [RefusedLate]
      rcases keyDown_answer s d code with ⟨hn, out, -, he⟩ | ⟨hr, he⟩
      · simp [hn, atomic_of_unchanged _ he]
      · simpa [hr] using atomic_written_iff he (pressed_ne hr.2.2.2.2.1)
    | keyUp code =>
      simp only [RefusedLate]
      rcases keyUp_answer s d code with ⟨hn, out, -, he⟩ | ⟨hr, he⟩
      · simp [hn, atomic_of_unchanged _ he]
      · simpa [hr] using atomic_written_iff he (released_ne hr.2.2.2)
    | keyRepeat code =>
      have ha : Atomic true s d (.keyRepeat code) := by
        rcases keyRepeat_answer s d code with ⟨-, out, -, he⟩ | ⟨-, he⟩
        · exact atomic_of_unchanged _ he
        · intro
          rw [he]
          unfold answered
          split <;> exact ⟨rfl, rfl, rfl, rfl⟩
      exact iff_of_true ha id
    | openSession => exact iff_of_true atomic_openSession id
    | releaseAll => exact iff_of_true atomic_releaseAll id
    | ping nonce => exact iff_of_true (atomic_of_unchanged _ rfl) id
    | pong nonce => exact iff_of_true (atomic_of_unchanged _ rfl) id
    | ok => exact iff_of_true (atomic_of_unchanged _ rfl) id
    | error code text => exact iff_of_true (atomic_of_unchanged _ rfl) id

/-- A new session that greets with version 1 is refused and left marked as greeted. -/
theorem hello_wrong_version_not_atomic :
    ¬ Atomic true (.new 16) (.new (fun _ => none) 16) (.hello 1 "") :=
  fun h => Bool.noConfusion (h trivial).1

end

end Ferrokey.Daemon
