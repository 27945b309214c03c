import Ferrokey.Core.Key
import Ferrokey.Machine.KeyStream
import Ferrokey.Uinput.Ledger

/-! # The virtual keyboard device

The typed operations on the pre-created uinput device. Each one checks the
capability set, moves the ledger and then writes one key event; the write may
fail, and the ledger has moved by then. The kernel's answers to the writes are
part of the device's file descriptor.
-/

namespace Ferrokey.Uinput

open Machine

def isCapable (code : UInt16) : Bool :=
  capabilitySet.any (fun key => code.toUInt32 == key.linuxCode)

/-- The input code of a key; the source narrows it to 16 bits, where every code fits. -/
def toLinuxCode (key : PhysicalKey) : UInt16 := key.linuxCode.toUInt16

theorem toUInt32_toLinuxCode (key : PhysicalKey) :
    (toLinuxCode key).toUInt32 = key.linuxCode := by
  cases key <;> rfl

theorem toLinuxCode_injective : Function.Injective toLinuxCode := by
  intro key key' h
  have hcode : key.linuxCode.toNat = key'.linuxCode.toNat := by
    rw [← toUInt32_toLinuxCode, h, toUInt32_toLinuxCode]
  exact List.inj_on_of_nodup_map nodup_linuxCodes key.mem_capabilitySet key'.mem_capabilitySet hcode

theorem isCapable_toLinuxCode (key : PhysicalKey) : isCapable (toLinuxCode key) = true := by
  rw [isCapable, List.any_eq_true]
  exact ⟨key, key.mem_capabilitySet, by rw [toUInt32_toLinuxCode]; exact beq_self_eq_true _⟩

theorem isCapable_iff {code : UInt16} :
    isCapable code = true ↔ ∃ key, PhysicalKey.fromLinuxCode code.toUInt32 = some key := by
  rw [isCapable, List.any_eq_true]
  constructor
  · rintro ⟨key, hk, he⟩
    rw [eq_of_beq he]
    exact Option.isSome_iff_exists.mp (PhysicalKey.fromLinuxCode_isSome hk)
  · rintro ⟨key, h⟩
    exact ⟨key, PhysicalKey.mem_of_fromLinuxCode h,
      beq_iff_eq.mpr (PhysicalKey.linuxCode_of_fromLinuxCode h).symm⟩

theorem toLinuxCode_of_fromLinuxCode {code : UInt16} {key : PhysicalKey}
    (h : PhysicalKey.fromLinuxCode code.toUInt32 = some key) : toLinuxCode key = code := by
  rw [toLinuxCode, PhysicalKey.linuxCode_of_fromLinuxCode h, UInt16.toUInt16_toUInt32]

/-- One `EV_KEY` event: value 1 is a press, 0 a release and 2 an autorepeat. -/
structure InputEvent where
  code : UInt16
  value : ℤ
  deriving DecidableEq, Repr

def InputEvent.stroke (e : InputEvent) : Stroke UInt16 :=
  if e.value = 1 then .down e.code else if e.value = 0 then .up e.code else .again e.code

/-- The device's file descriptor: how the kernel answers each write in turn (`none` is
success, otherwise the text of the error), and the events it has taken. -/
structure Fd where
  answer : ℕ → Option String
  attempts : ℕ
  log : List InputEvent

def Fd.fresh (answer : ℕ → Option String) : Fd := ⟨answer, 0, []⟩

def Fd.wrote (fd : Fd) (code : UInt16) (value : ℤ) : Fd :=
  { fd with attempts := fd.attempts + 1, log := fd.log ++ [⟨code, value⟩] }

def Fd.lost (fd : Fd) : Fd := { fd with attempts := fd.attempts + 1 }

def Fd.writeOne (fd : Fd) (code : UInt16) (value : ℤ) : Fd × Except String Unit :=
  match fd.answer fd.attempts with
  | none => (fd.wrote code value, .ok ())
  | some e => (fd.lost, .error e)

structure SinkError where
  text : String
  deriving DecidableEq, Repr

/-- Write one release for each code; the errors are those of the writes that fail. -/
def Fd.writeReleases (fd : Fd) : List UInt16 → Fd × List SinkError
  | [] => (fd, [])
  | code :: codes =>
    let w := fd.writeOne code 0
    let r := w.1.writeReleases codes
    (r.1, match w.2 with
      | .ok () => r.2
      | .error e => ⟨e⟩ :: r.2)

theorem Fd.writeOne_attempts (fd : Fd) (code : UInt16) (value : ℤ) :
    (fd.writeOne code value).1.attempts = fd.attempts + 1 := by
  unfold writeOne
  split <;> rfl

theorem Fd.writeReleases_attempts (fd : Fd) (codes : List UInt16) :
    (fd.writeReleases codes).1.attempts = fd.attempts + codes.length := by
  induction codes generalizing fd with
  | nil => rfl
  | cons code codes ih =>
    rw [writeReleases, ih, writeOne_attempts, List.length_cons]
    omega

structure UinputDevice where
  fd : Fd
  ledger : HeldLedger

namespace UinputDevice

def new (answer : ℕ → Option String) (maxHeldKeys : ℕ) : UinputDevice :=
  ⟨.fresh answer, .new maxHeldKeys⟩

def heldCount (d : UinputDevice) : ℕ := d.ledger.len

def isHeld (d : UinputDevice) (code : UInt16) : Bool := d.ledger.isHeld code.toUInt32

def validateCapable (code : UInt16) : Except SinkError Unit :=
  if isCapable code then .ok ()
  else .error ⟨s!"key code {code} outside the immutable capability set"⟩

/-- Write an event on behalf of an operation that has moved the ledger. -/
def emit (d : UinputDevice) (ledger : HeldLedger) (code : UInt16) (value : ℤ) :
    UinputDevice × Except SinkError Unit :=
  let w := d.fd.writeOne code value
  (⟨w.1, ledger⟩, w.2.mapError SinkError.mk)

def keyDown (d : UinputDevice) (key : PhysicalKey) : UinputDevice × Except SinkError Unit :=
  let code := toLinuxCode key
  match validateCapable code with
  | .error e => (d, .error e)
  | .ok () =>
    match d.ledger.keyDown code.toUInt32 with
    | .error e => (d, .error ⟨e.display⟩)
    | .ok ledger => d.emit ledger code 1

def keyUp (d : UinputDevice) (key : PhysicalKey) : UinputDevice × Except SinkError Unit :=
  let code := toLinuxCode key
  match validateCapable code with
  | .error e => (d, .error e)
  | .ok () =>
    match d.ledger.keyUp code.toUInt32 with
    | .error e => (d, .error ⟨e.display⟩)
    | .ok ledger => d.emit ledger code 0

/-- Autorepeat a key; not a state transition. -/
def keyRepeat (d : UinputDevice) (key : PhysicalKey) : UinputDevice × Except SinkError Unit :=
  let code := toLinuxCode key
  match validateCapable code with
  | .error e => (d, .error e)
  | .ok () => d.emit d.ledger code 2

/-- Release exactly the given keys: every key is attempted, all errors are collected. -/
def releaseKeys (d : UinputDevice) : List UInt16 → UinputDevice × List SinkError
  | [] => (d, [])
  | code :: codes =>
    match d.ledger.keyUp code.toUInt32 with
    | .error e =>
      let r := d.releaseKeys codes
      (r.1, ⟨e.display⟩ :: r.2)
    | .ok ledger =>
      let w := d.emit ledger code 0
      let r := w.1.releaseKeys codes
      match w.2 with
      | .ok () => r
      | .error e => (r.1, e :: r.2)

def releaseAll (d : UinputDevice) : UinputDevice × List SinkError :=
  let r := d.ledger.drain
  let codes := r.1.map (fun c => if c.toNat < UInt16.size then c.toUInt16 else 0)
  { d with ledger := r.2 }.releaseKeys codes

section

variable {d : UinputDevice} {ledger : HeldLedger} {code : UInt16} {value : ℤ}

theorem emit_of_answer (h : d.fd.answer d.fd.attempts = none) :
    d.emit ledger code value = (⟨d.fd.wrote code value, ledger⟩, .ok ()) := by
  simp [emit, Fd.writeOne, h, Except.mapError]

theorem emit_of_failure {e : String} (h : d.fd.answer d.fd.attempts = some e) :
    d.emit ledger code value = (⟨d.fd.lost, ledger⟩, .error ⟨e⟩) := by
  simp [emit, Fd.writeOne, h, Except.mapError]

@[simp] theorem emit_ledger : (d.emit ledger code value).1.ledger = ledger := rfl

@[simp] theorem emit_answer : (d.emit ledger code value).1.fd.answer = d.fd.answer := by
  simp only [emit, Fd.writeOne]
  split <;> rfl

/-- Every key is in the capability set, so a press is the ledger's transition followed by
one write. -/
theorem keyDown_of_key (d : UinputDevice) (key : PhysicalKey) :
    d.keyDown key = match d.ledger.keyDown (toLinuxCode key).toUInt32 with
      | .error e => (d, .error ⟨e.display⟩)
      | .ok ledger => d.emit ledger (toLinuxCode key) 1 := by
  simp [keyDown, validateCapable, isCapable_toLinuxCode]

theorem keyUp_of_key (d : UinputDevice) (key : PhysicalKey) :
    d.keyUp key = match d.ledger.keyUp (toLinuxCode key).toUInt32 with
      | .error e => (d, .error ⟨e.display⟩)
      | .ok ledger => d.emit ledger (toLinuxCode key) 0 := by
  simp [keyUp, validateCapable, isCapable_toLinuxCode]

theorem keyRepeat_of_key (d : UinputDevice) (key : PhysicalKey) :
    d.keyRepeat key = d.emit d.ledger (toLinuxCode key) 2 := by
  simp [keyRepeat, validateCapable, isCapable_toLinuxCode]

/-- On a mapped code a press is the ledger's transition followed by one write. -/
theorem keyDown_eq {key : PhysicalKey}
    (h : PhysicalKey.fromLinuxCode code.toUInt32 = some key) :
    d.keyDown key = match d.ledger.keyDown code.toUInt32 with
      | .error e => (d, .error ⟨e.display⟩)
      | .ok ledger => d.emit ledger code 1 := by
  rw [keyDown_of_key, toLinuxCode_of_fromLinuxCode h]

theorem keyUp_eq {key : PhysicalKey}
    (h : PhysicalKey.fromLinuxCode code.toUInt32 = some key) :
    d.keyUp key = match d.ledger.keyUp code.toUInt32 with
      | .error e => (d, .error ⟨e.display⟩)
      | .ok ledger => d.emit ledger code 0 := by
  rw [keyUp_of_key, toLinuxCode_of_fromLinuxCode h]

theorem keyRepeat_eq {key : PhysicalKey}
    (h : PhysicalKey.fromLinuxCode code.toUInt32 = some key) :
    d.keyRepeat key = d.emit d.ledger code 2 := by
  rw [keyRepeat_of_key, toLinuxCode_of_fromLinuxCode h]

end

theorem releaseKeys_cons_held {d : UinputDevice} {code : UInt16} (codes : List UInt16)
    (h : code.toUInt32 ∈ d.ledger.held) :
    (d.releaseKeys (code :: codes)).1 =
      ((d.emit (d.ledger.released code.toUInt32) code 0).1.releaseKeys codes).1 := by
  rw [releaseKeys, HeldLedger.keyUp_eq_ok_iff.mpr ⟨h, rfl⟩]
  dsimp only
  split <;> rfl

theorem releaseKeys_cons_not_held {d : UinputDevice} {code : UInt16} (codes : List UInt16)
    (h : code.toUInt32 ∉ d.ledger.held) :
    (d.releaseKeys (code :: codes)).1 = (d.releaseKeys codes).1 := by
  simp [releaseKeys, HeldLedger.keyUp, h]

/-- Whether its writes succeed or not, releasing keys takes exactly them off the ledger. -/
theorem mem_releaseKeys_ledger (d : UinputDevice) (codes : List UInt16) (c : UInt32) :
    c ∈ (d.releaseKeys codes).1.ledger.held ↔
      c ∈ d.ledger.held ∧ ∀ code ∈ codes, code.toUInt32 ≠ c := by
  induction codes generalizing d with
  | nil => simp [releaseKeys]
  | cons code codes ih =>
    by_cases h : code.toUInt32 ∈ d.ledger.held
    · rw [releaseKeys_cons_held codes h, ih]
      simp only [emit_ledger, HeldLedger.released, BTreeSet.mem_remove, List.forall_mem_cons]
      tauto
    · rw [releaseKeys_cons_not_held codes h, ih, List.forall_mem_cons]
      have hne : c ∈ d.ledger.held → code.toUInt32 ≠ c := fun hc he => h (he ▸ hc)
      tauto

/-- What every single release of a held key keeps is kept by releasing any keys. -/
theorem releaseKeys_invariant (P : UinputDevice → Prop)
    (hs : ∀ (d : UinputDevice) (code : UInt16), P d →
      P (d.emit (d.ledger.released code.toUInt32) code 0).1)
    {d : UinputDevice} (h : P d) (codes : List UInt16) : P (d.releaseKeys codes).1 := by
  induction codes generalizing d with
  | nil => exact h
  | cons code codes ih =>
    by_cases hc : code.toUInt32 ∈ d.ledger.held
    · rw [releaseKeys_cons_held codes hc]
      exact ih (hs d code h)
    · rw [releaseKeys_cons_not_held codes hc]
      exact ih h

@[simp] theorem releaseKeys_maxHeld (d : UinputDevice) (codes : List UInt16) :
    (d.releaseKeys codes).1.ledger.maxHeld = d.ledger.maxHeld :=
  releaseKeys_invariant (fun d' => d'.ledger.maxHeld = d.ledger.maxHeld) (fun _ _ h => h) rfl codes

@[simp] theorem releaseKeys_answer (d : UinputDevice) (codes : List UInt16) :
    (d.releaseKeys codes).1.fd.answer = d.fd.answer :=
  releaseKeys_invariant (fun d' => d'.fd.answer = d.fd.answer)
    (fun _ _ h => emit_answer.trans h) rfl codes

theorem releaseKeys_len_le (d : UinputDevice) (codes : List UInt16) :
    (d.releaseKeys codes).1.ledger.held.len ≤ d.ledger.held.len := by
  apply releaseKeys_invariant (fun d' => d'.ledger.held.len ≤ d.ledger.held.len)
  · intro d' code h
    exact (BTreeSet.len_remove_le _ _).trans h
  · exact le_rfl

/-- When every write succeeds, releasing distinct held keys writes one release for each
of them, in order. -/
theorem releaseKeys_log {d : UinputDevice} (hw : ∀ n, d.fd.answer n = none) {codes : List UInt16}
    (hn : codes.Nodup) (hh : ∀ code ∈ codes, code.toUInt32 ∈ d.ledger.held) :
    (d.releaseKeys codes).1.fd.log = d.fd.log ++ codes.map (fun code => ⟨code, 0⟩) := by
  induction codes generalizing d with
  | nil => simp [releaseKeys]
  | cons code codes ih =>
    obtain ⟨hc, hn⟩ := List.nodup_cons.mp hn
    obtain ⟨h, hh⟩ := List.forall_mem_cons.mp hh
    have hh' : ∀ code' ∈ codes, code'.toUInt32 ∈ (d.ledger.released code.toUInt32).held := by
      intro code' hm
      refine BTreeSet.mem_remove.mpr ⟨fun he => hc ?_, hh code' hm⟩
      exact UInt16.toUInt32_inj.mp he ▸ hm
    have hr := ih (d := ⟨d.fd.wrote code 0, d.ledger.released code.toUInt32⟩) hw hn hh'
    rw [releaseKeys_cons_held codes h, emit_of_answer (hw _), hr]
    simp [Fd.wrote]

/-- Releasing keys writes releases of some of them, and nothing else. -/
theorem releaseKeys_writes (d : UinputDevice) (codes : List UInt16) :
    ∃ released : List UInt16, (d.releaseKeys codes).1.fd.log =
      d.fd.log ++ released.map (fun code => ⟨code, 0⟩) ∧ released ⊆ codes := by
  induction codes generalizing d with
  | nil => exact ⟨[], by simp [releaseKeys], List.Subset.refl []⟩
  | cons code codes ih =>
    by_cases hc : code.toUInt32 ∈ d.ledger.held
    · rw [releaseKeys_cons_held codes hc]
      obtain ⟨released, hlog, hsub⟩ := ih (d.emit (d.ledger.released code.toUInt32) code 0).1
      rw [hlog]
      cases hw : d.fd.answer d.fd.attempts with
      | none =>
        rw [emit_of_answer hw]
        exact ⟨code :: released, by simp [Fd.wrote], List.cons_subset_cons code hsub⟩
      | some e =>
        rw [emit_of_failure hw]
        exact ⟨released, rfl, List.subset_cons_of_subset code hsub⟩
    · rw [releaseKeys_cons_not_held codes hc]
      obtain ⟨released, hlog, hsub⟩ := ih d
      exact ⟨released, hlog, List.subset_cons_of_subset code hsub⟩

theorem releaseKeys_of_empty {d : UinputDevice} (h : d.ledger.held = .new) (codes : List UInt16) :
    d.releaseKeys codes =
      (d, codes.map fun code => ⟨(LedgerError.keyUpWithoutDown code.toUInt32).display⟩) := by
  induction codes with
  | nil => rfl
  | cons code codes ih =>
    have hc : code.toUInt32 ∉ d.ledger.held := by simp [h]
    simp [releaseKeys, HeldLedger.keyUp, hc, ih]

/-- The ledger is drained before the keys are released, so nothing is written and every key
that was held is reported as released without a press. -/
theorem releaseAll_eq (d : UinputDevice) :
    ∃ codes : List UInt16, codes.length = d.ledger.held.len ∧
      d.releaseAll = ({ d with ledger := d.ledger.drain.2 },
        codes.map fun code => ⟨(LedgerError.keyUpWithoutDown code.toUInt32).display⟩) :=
  ⟨_, List.length_map _, releaseKeys_of_empty rfl _⟩

/-- One release is written for each held key, in some order; the ledger is left empty and
the errors are those of the writes that failed. -/
def ReleasesHeld (d : UinputDevice) : Prop :=
  ∃ codes : List UInt16, (codes.map UInt16.toUInt32).Perm d.ledger.held.elems ∧
    d.releaseAll.1.fd = (d.fd.writeReleases codes).1 ∧
    d.releaseAll.2 = (d.fd.writeReleases codes).2 ∧
    d.releaseAll.1.ledger.held = .new

theorem isEmpty_of_releasesHeld {d : UinputDevice} (h : d.ReleasesHeld) :
    d.ledger.held.isEmpty = true := by
  obtain ⟨codes, hp, hfd, -, -⟩ := h
  obtain ⟨_, -, he⟩ := releaseAll_eq d
  have hn : codes.length = 0 := by
    have ha := congrArg Fd.attempts hfd
    rw [he, Fd.writeReleases_attempts] at ha
    exact Nat.left_eq_add.mp ha
  obtain rfl := List.length_eq_zero_iff.mp hn
  exact List.isEmpty_iff.mpr hp.nil_eq.symm

/-- Releasing everything releases what is held exactly when nothing is. -/
theorem releasesHeld_iff (d : UinputDevice) : d.ReleasesHeld ↔ d.ledger.held.isEmpty = true := by
  constructor
  · exact isEmpty_of_releasesHeld
  · intro h
    obtain ⟨codes, hl, he⟩ := releaseAll_eq d
    have hheld : d.ledger.held.elems = [] := List.isEmpty_iff.mp h
    obtain rfl : codes = [] := List.length_eq_zero_iff.mp (hl.trans (by simp [BTreeSet.len, hheld]))
    refine ⟨[], by simp [hheld], ?_, ?_, ?_⟩ <;> rw [he] <;> rfl

theorem releaseAll_strands_held_key :
    ¬ ((new (fun _ => none) 16).keyDown .a).1.ReleasesHeld :=
  fun h => absurd (isEmpty_of_releasesHeld h) (by decide)

end UinputDevice

end Ferrokey.Uinput
