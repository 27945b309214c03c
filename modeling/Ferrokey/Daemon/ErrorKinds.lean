import Ferrokey.Daemon.Answers

/-! # Error kinds of the real device

The ledger's refusals reach the daemon as texts, and the daemon looks for the names of
their kinds in them. The texts do not have these names, so every refusal is taken for an
I/O failure; what a refusal should be is stated here beside what it is.
-/

namespace Ferrokey.Daemon

open Uinput Protocol

/-- The operations on one key. -/
inductive KeyOp where
  | down | up | again
  deriving DecidableEq

def KeyOp.run (op : KeyOp) (d : RealDevice) (key : PhysicalKey) :
    RealDevice × Except DeviceError Unit :=
  match op with
  | .down => d.keyDown key
  | .up => d.keyUp key
  | .again => d.keyRepeat key

/-- The kind of error that a refusal of the ledger stands for, if the ledger refuses. -/
def KeyOp.refusal (op : KeyOp) (d : RealDevice) (key : PhysicalKey) : Option DeviceError :=
  let code := toLinuxCode key
  match op with
  | .down =>
    if code.toUInt32 ∈ d.dev.ledger.held then some (.keyBusy code)
    else if d.dev.ledger.maxHeld ≤ d.dev.ledger.held.len then some (.rollover code)
    else none
  | .up => if code.toUInt32 ∈ d.dev.ledger.held then none else some (.keyUpWithoutDown code)
  | .again => none

/-- The ledger lets the operation through. -/
def KeyOp.Accepted (op : KeyOp) (d : RealDevice) (key : PhysicalKey) : Prop :=
  match op with
  | .down => (toLinuxCode key).toUInt32 ∉ d.dev.ledger.held ∧
      d.dev.ledger.held.len < d.dev.ledger.maxHeld
  | .up => (toLinuxCode key).toUInt32 ∈ d.dev.ledger.held
  | .again => True

/-- The errors of an operation have the kinds of what went wrong, and the broker answers the
ledger's refusals as violations of the key state. -/
structure Mapped (op : KeyOp) (d : RealDevice) (key : PhysicalKey) : Prop where
  refused : ∀ e, op.refusal d key = some e → (op.run d key).2 = .error e
  answered : ∀ e, op.refusal d key = some e → ∀ e', (op.run d key).2 = .error e' →
    ∃ detail, deviceErrorOutcome e' = errClose .invalidKeyState detail
  io : ∀ text, (op.run d key).2 = .error (.io text) →
    op.refusal d key = none ∧ (d.dev.fd.answer d.dev.fd.attempts).isSome = true
  incapable : ∀ code, isCapable code = false →
    (UinputDevice.validateCapable code).mapError (mapSink code) = .error (.unknownKey code)

section

variable {op : KeyOp} {d : RealDevice} {key : PhysicalKey}

theorem refusal_eq_none_iff : op.refusal d key = none ↔ op.Accepted d key := by
  cases op with
  | down =>
    simp only [KeyOp.refusal, KeyOp.Accepted]
    split
    · next h => simp [h]
    · next h =>
      split
      · next hf => simp [Nat.not_lt.mpr hf]
      · next hf => simp [h, Nat.lt_of_not_le hf]
  | up =>
    simp only [KeyOp.refusal, KeyOp.Accepted]
    split <;> simp [*]
  | again => exact iff_of_true rfl trivial

/-- A refusal of the ledger arrives as an I/O failure. -/
theorem run_of_refusal {e : DeviceError} (h : op.refusal d key = some e) :
    ∃ text, (op.run d key).2 = .error (.io text) := by
  cases op with
  | down =>
    simp only [KeyOp.run, RealDevice.keyDown, RealDevice.lift, UinputDevice.keyDown_of_key]
    cases hd : d.dev.ledger.keyDown (toLinuxCode key).toUInt32 with
    | ok ledger =>
      obtain ⟨hu, hf, -⟩ := HeldLedger.keyDown_eq_ok_iff.mp hd
      have ha : KeyOp.Accepted .down d key := ⟨hu, hf⟩
      rw [refusal_eq_none_iff.mpr ha] at h
      cases h
    | error e' =>
      refine ⟨e'.display, congrArg Except.error (mapSink_ledger _ fun c hc => ?_)⟩
      rw [hc] at hd
      unfold HeldLedger.keyDown at hd
      split at hd
      · cases hd
      split at hd <;> cases hd
  | up =>
    simp only [KeyOp.run, RealDevice.keyUp, RealDevice.lift, UinputDevice.keyUp_of_key]
    cases hd : d.dev.ledger.keyUp (toLinuxCode key).toUInt32 with
    | ok ledger =>
      have ha : KeyOp.Accepted .up d key := (HeldLedger.keyUp_eq_ok_iff.mp hd).1
      rw [refusal_eq_none_iff.mpr ha] at h
      cases h
    | error e' =>
      refine ⟨e'.display, congrArg Except.error (mapSink_ledger _ fun c hc => ?_)⟩
      rw [hc] at hd
      unfold HeldLedger.keyUp at hd
      split at hd <;> cases hd
  | again => cases h

/-- An operation that the ledger lets through fails only with its write. -/
theorem run_of_accepted (h : op.Accepted d key) {e : DeviceError}
    (he : (op.run d key).2 = .error e) : (d.dev.fd.answer d.dev.fd.attempts).isSome = true := by
  have hw : ∀ ledger value, (RealDevice.lift key
      (d.dev.emit ledger (toLinuxCode key) value)).2 = .error e →
      (d.dev.fd.answer d.dev.fd.attempts).isSome = true := by
    intro ledger value hl
    rcases lift_emit_answer rfl d.dev ledger value with ⟨-, ha⟩ | ⟨text, hn, -⟩
    · rw [ha] at hl
      cases hl
    · rw [hn]
      rfl
  cases op with
  | down =>
    obtain ⟨hu, hf⟩ := h
    simp only [KeyOp.run, RealDevice.keyDown, UinputDevice.keyDown_of_key,
      HeldLedger.keyDown_eq_ok_iff.mpr ⟨hu, hf, rfl⟩] at he
    exact hw _ _ he
  | up =>
    simp only [KeyOp.run, RealDevice.keyUp, UinputDevice.keyUp_of_key,
      HeldLedger.keyUp_eq_ok_iff.mpr ⟨h, rfl⟩] at he
    exact hw _ _ he
  | again =>
    simp only [KeyOp.run, RealDevice.keyRepeat, UinputDevice.keyRepeat_of_key] at he
    exact hw _ _ he

/-- The text of an incapable code is the one that the daemon recognises. -/
theorem mapSink_incapable {code : UInt16} (h : isCapable code = false) :
    (UinputDevice.validateCapable code).mapError (mapSink code) = .error (.unknownKey code) := by
  have ht : withoutDigits s!"key code {code} outside the immutable capability set" =
      "key code  outside the immutable capability set".toList := by
    have hc : withoutDigits (toString code) = [] := withoutDigits_toString code.toNat
    rw [withoutDigits_append, withoutDigits_append, hc]
    decide +kernel
  have hf : textContains s!"key code {code} outside the immutable capability set" "capability" =
      true := by
    rw [textContains, decide_eq_true_iff, String.toList_append, String.toList_append]
    have hpart : "capability".toList <:+:
        (toString " outside the immutable capability set").toList := by decide +kernel
    exact hpart.trans (List.suffix_append _ _).isInfix
  rw [UinputDevice.validateCapable, h]
  simp only [Bool.false_eq_true, if_false, Except.mapError, mapSink, hf, if_true]
  rw [textContains_eq_false (by decide +kernel) (by rw [ht]; decide +kernel),
    textContains_eq_false (by decide +kernel) (by rw [ht]; decide +kernel),
    textContains_eq_false (by decide +kernel) (by rw [ht]; decide +kernel)]
  rfl

/-- The errors of an operation have their right kinds exactly when the ledger lets it
through. -/
theorem mapped_iff (op : KeyOp) (d : RealDevice) (key : PhysicalKey) :
    Mapped op d key ↔ op.Accepted d key := by
  constructor
  · intro h
    rw [← refusal_eq_none_iff]
    cases hr : op.refusal d key with
    | none => rfl
    | some e =>
      obtain ⟨text, ht⟩ := run_of_refusal hr
      rw [(h.io text ht).1] at hr
      cases hr
  · intro h
    have hr := refusal_eq_none_iff.mpr h
    constructor
    · intro e he
      rw [hr] at he
      cases he
    · intro e he
      rw [hr] at he
      cases he
    · exact fun text ht => ⟨hr, run_of_accepted h ht⟩
    · exact fun code hc => mapSink_incapable hc

/-- A second press of a held key comes back as an I/O failure. -/
theorem held_key_not_busy :
    ¬ Mapped .down ⟨((UinputDevice.new (fun _ => none) 16).keyDown .a).1⟩ .a := by
  intro h
  have hb := h.refused (.keyBusy 30) (by decide)
  exact absurd hb (by decide +kernel)

end

end Ferrokey.Daemon
