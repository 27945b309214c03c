import Ferrokey.Daemon.Device
import Ferrokey.Machine.Runs

/-! # The recording device

The unit tests drive a device that only records. It reads its state off the
record, while the real device keeps a ledger. Both are given the same calls, on a
real device whose writes all succeed, and compared after every call.
-/

namespace Ferrokey.Daemon

open Machine Uinput

/-- The device of the unit tests: the events it took, and how often it released all. -/
structure MockKeyDevice where
  events : List InputEvent
  releasedAll : ℕ
  maxHeld : ℕ

namespace MockKeyDevice

def new : MockKeyDevice := ⟨[], 0, 16⟩

/-- The latest event of a code other than a repeat decides whether it is held. -/
def isHeld (m : MockKeyDevice) (code : UInt16) : Bool :=
  match m.events.reverse.find? fun e => e.code == code && e.value != 2 with
  | some e => e.value == 1
  | none => false

def pressed (m : MockKeyDevice) : List UInt16 :=
  (m.events.filter fun e => e.value == 1).map InputEvent.code

def heldCount (m : MockKeyDevice) : ℕ := (BTreeSet.ofList m.pressed).len

def push (m : MockKeyDevice) (code : UInt16) (value : ℤ) : MockKeyDevice :=
  { m with events := m.events ++ [⟨code, value⟩] }

def keyDown (m : MockKeyDevice) (key : PhysicalKey) : MockKeyDevice × Except DeviceError Unit :=
  let code := toLinuxCode key
  if !isCapable code then (m, .error (.unknownKey code))
  else if m.isHeld code then (m, .error (.keyBusy code))
  else if m.maxHeld ≤ m.heldCount then (m, .error (.rollover code))
  else (m.push code 1, .ok ())

def keyUp (m : MockKeyDevice) (key : PhysicalKey) : MockKeyDevice × Except DeviceError Unit :=
  let code := toLinuxCode key
  if !isCapable code then (m, .error (.unknownKey code))
  else if !m.isHeld code then (m, .error (.keyUpWithoutDown code))
  else (m.push code 0, .ok ())

def keyRepeat (m : MockKeyDevice) (key : PhysicalKey) : MockKeyDevice × Except DeviceError Unit :=
  let code := toLinuxCode key
  if !m.isHeld code then (m, .error (.keyUpWithoutDown code))
  else (m.push code 2, .ok ())

def releaseKeys (m : MockKeyDevice) : List UInt16 → MockKeyDevice × List DeviceError
  | [] => (m, [])
  | code :: codes =>
    if !m.isHeld code then
      let r := m.releaseKeys codes
      (r.1, .keyUpWithoutDown code :: r.2)
    else (m.push code 0).releaseKeys codes

/-- Release every code that was ever pressed, the latest press first. -/
def releaseAll (m : MockKeyDevice) : MockKeyDevice × List DeviceError :=
  { m with releasedAll := m.releasedAll + 1 }.releaseKeys m.pressed.reverse

section

variable {m : MockKeyDevice} {code : UInt16} {value : ℤ}

/-- While nothing was released, exactly the codes that were pressed are held. -/
theorem isHeld_iff (h : ∀ e ∈ m.events, e.value = 1 ∨ e.value = 2) :
    m.isHeld code = true ↔ code ∈ m.pressed := by
  unfold isHeld
  cases hf : m.events.reverse.find? fun e => e.code == code && e.value != 2 with
  | some e =>
    have hm : e ∈ m.events := List.mem_reverse.mp (List.mem_of_find?_eq_some hf)
    obtain ⟨rfl, hv⟩ : e.code = code ∧ e.value ≠ 2 := by simpa using List.find?_some hf
    have hone : e.value = 1 := (h e hm).resolve_right hv
    have hp : e.code ∈ m.pressed :=
      List.mem_map.mpr ⟨e, List.mem_filter.mpr ⟨hm, by simp [hone]⟩, rfl⟩
    simp [hone, hp]
  | none =>
    have hno : code ∉ m.pressed := by
      intro hp
      obtain ⟨e, he, rfl⟩ := List.mem_map.mp hp
      obtain ⟨hm, hv⟩ := List.mem_filter.mp he
      have hn := List.find?_eq_none.mp hf e (List.mem_reverse.mpr hm)
      simp only [beq_iff_eq] at hv
      simp [hv] at hn
    simp [hno]

theorem pressed_push (m : MockKeyDevice) (code : UInt16) (value : ℤ) :
    (m.push code value).pressed =
    m.pressed ++ if value = 1 then [code] else [] := by
  unfold pressed push
  rw [List.filter_append, List.map_append]
  by_cases h : value = 1 <;> simp [h]

theorem heldCount_eq (h : m.pressed.Nodup) : m.heldCount = m.pressed.length :=
  BTreeSet.len_ofList h

theorem releaseKeys_events (m : MockKeyDevice) (codes : List UInt16) :
    ∃ released : List UInt16, (m.releaseKeys codes).1.events =
      m.events ++ released.map (fun code => ⟨code, 0⟩) := by
  induction codes generalizing m with
  | nil => exact ⟨[], by simp [releaseKeys]⟩
  | cons code codes ih =>
    rw [releaseKeys]
    split
    · exact ih m
    · obtain ⟨released, h⟩ := ih (m.push code 0)
      exact ⟨code :: released, h.trans (by simp [push])⟩

/-- Releasing does not change how many keys the record counts as held. -/
theorem releaseKeys_pressed (m : MockKeyDevice) (codes : List UInt16) :
    (m.releaseKeys codes).1.pressed = m.pressed := by
  obtain ⟨released, h⟩ := releaseKeys_events m codes
  have hz : (released.map fun code => (⟨code, 0⟩ : InputEvent)).filter
      (fun e => e.value == 1) = [] := by
    simp [List.filter_eq_nil_iff]
  rw [pressed, h, List.filter_append, hz, List.append_nil]
  rfl

theorem releaseKeys_events_ne (h : m.isHeld code = true) (codes : List UInt16) :
    (m.releaseKeys (code :: codes)).1.events ≠ m.events := by
  rw [releaseKeys, if_neg (by simp [h])]
  obtain ⟨released, he⟩ := releaseKeys_events (m.push code 0) codes
  rw [he]
  simp [push]

end

instance keyDevice : KeyDevice MockKeyDevice where
  keyDown := keyDown
  keyUp := keyUp
  keyRepeat := keyRepeat
  releaseKeys := releaseKeys
  releaseAll := releaseAll
  isCapable _ code := Uinput.isCapable code
  isHeld := isHeld
  heldCount := heldCount

end MockKeyDevice

inductive DeviceErrorKind where
  | unknownKey | keyUpWithoutDown | rollover | keyBusy | io
  deriving DecidableEq, Repr

def DeviceError.kind : DeviceError → DeviceErrorKind
  | .unknownKey _ => .unknownKey
  | .keyUpWithoutDown _ => .keyUpWithoutDown
  | .rollover _ => .rollover
  | .keyBusy _ => .keyBusy
  | .io _ => .io

inductive DeviceCall where
  | keyDown (key : PhysicalKey)
  | keyUp (key : PhysicalKey)
  | keyRepeat (key : PhysicalKey)
  | releaseKeys (codes : List UInt16)
  | releaseAll
  deriving DecidableEq, Repr

def errorsOf : Except DeviceError Unit → List DeviceError
  | .ok () => []
  | .error e => [e]

/-- Carry out one call; the kinds of its errors are the answer. -/
def perform {δ : Type} [KeyDevice δ] (d : δ) (c : DeviceCall) : δ × List DeviceErrorKind :=
  let r : δ × List DeviceError := match c with
    | .keyDown key => let r := KeyDevice.keyDown d key; (r.1, errorsOf r.2)
    | .keyUp key => let r := KeyDevice.keyUp d key; (r.1, errorsOf r.2)
    | .keyRepeat key => let r := KeyDevice.keyRepeat d key; (r.1, errorsOf r.2)
    | .releaseKeys codes => KeyDevice.releaseKeys d codes
    | .releaseAll => KeyDevice.releaseAll d
  (r.1, r.2.map DeviceError.kind)

/-- The two devices under the same calls, with their answers. -/
structure DevicePair where
  mock : MockKeyDevice
  real : RealDevice
  answers : List (List DeviceErrorKind × List DeviceErrorKind)

namespace DevicePair

/-- A fresh pair; every write of the real device succeeds. -/
def new : DevicePair := ⟨.new, ⟨.new (fun _ => none) 16⟩, []⟩

def step (p : DevicePair) (c : DeviceCall) : DevicePair × Unit :=
  let r := perform p.mock c
  let r' := perform p.real c
  (⟨r.1, r'.1, p.answers ++ [(r.2, r'.2)]⟩, ())

/-- The devices gave the same answers, report the same keys held and took the same events. -/
structure Alike (p : DevicePair) : Prop where
  answers : ∀ a ∈ p.answers, a.1 = a.2
  isHeld : ∀ code, KeyDevice.isHeld p.mock code = KeyDevice.isHeld p.real code
  heldCount : KeyDevice.heldCount p.mock = KeyDevice.heldCount p.real
  events : p.mock.events = p.real.dev.fd.log

/-- The call is accepted and releases nothing. -/
def OnlyPresses (p : DevicePair) : DeviceCall → Prop
  | .keyDown key => p.real.dev.isHeld (toLinuxCode key) = false ∧ p.real.dev.heldCount < 16
  | .keyUp _ => False
  | .keyRepeat key => p.real.dev.isHeld (toLinuxCode key) = true
  | .releaseKeys codes => codes = []
  | .releaseAll => p.real.dev.heldCount = 0

/-- The devices are alike, nothing was released, and the ledger holds what was pressed. -/
structure Inv (p : DevicePair) : Prop where
  maxHeld : p.mock.maxHeld = 16
  ledgerMaxHeld : p.real.dev.ledger.maxHeld = 16
  writes : ∀ n, p.real.dev.fd.answer n = none
  answers : ∀ a ∈ p.answers, a.1 = a.2
  events : p.mock.events = p.real.dev.fd.log
  noRelease : ∀ e ∈ p.mock.events, e.value = 1 ∨ e.value = 2
  nodup : p.mock.pressed.Nodup
  held : ∀ code : UInt16, code.toUInt32 ∈ p.real.dev.ledger.held ↔ code ∈ p.mock.pressed
  len : p.real.dev.ledger.held.len = p.mock.pressed.length

namespace Inv

variable {p : DevicePair} {key : PhysicalKey}

theorem new : Inv new where
  maxHeld := rfl
  ledgerMaxHeld := by decide
  writes _ := rfl
  answers _ h := absurd h List.not_mem_nil
  events := rfl
  noRelease _ h := absurd h List.not_mem_nil
  nodup := .nil
  held _ := iff_of_false (BTreeSet.not_mem_new _) List.not_mem_nil
  len := rfl

theorem mock_isHeld_iff (h : Inv p) {code : UInt16} :
    p.mock.isHeld code = true ↔ code ∈ p.mock.pressed :=
  MockKeyDevice.isHeld_iff h.noRelease

theorem real_isHeld_iff (h : Inv p) {code : UInt16} :
    p.real.dev.isHeld code = true ↔ code ∈ p.mock.pressed := by
  rw [UinputDevice.isHeld, HeldLedger.isHeld, BTreeSet.contains_iff, h.held]

theorem alike (h : Inv p) : p.Alike where
  answers := h.answers
  isHeld _ := Bool.eq_iff_iff.mpr (h.mock_isHeld_iff.trans h.real_isHeld_iff.symm)
  heldCount := (MockKeyDevice.heldCount_eq h.nodup).trans h.len.symm
  events := h.events

section Calls

variable (h : Inv p)
include h

/-- A press or a repeat that both devices take keeps them alike. -/
theorem push_step {c : DeviceCall} {value : ℤ} {ledger : HeldLedger}
    (hm : perform p.mock c = (p.mock.push (toLinuxCode key) value, []))
    (hr : perform p.real c = (⟨⟨p.real.dev.fd.wrote (toLinuxCode key) value, ledger⟩⟩, []))
    (hv : value = 1 ∧ toLinuxCode key ∉ p.mock.pressed ∧
        ledger = p.real.dev.ledger.pressed (toLinuxCode key).toUInt32 ∨
      value = 2 ∧ ledger = p.real.dev.ledger) : Inv (p.step c).1 := by
  have hstep : (p.step c).1 = ⟨p.mock.push (toLinuxCode key) value,
      ⟨⟨p.real.dev.fd.wrote (toLinuxCode key) value, ledger⟩⟩, p.answers ++ [([], [])]⟩ := by
    rw [step, hm, hr]
  have hans : ∀ a ∈ p.answers ++ [([], [])], a.1 = a.2 := by
    intro a ha
    rcases List.mem_append.mp ha with ha | ha
    · exact h.answers a ha
    · rw [List.mem_singleton.mp ha]
  have hev : p.mock.events ++ [⟨toLinuxCode key, value⟩] =
      p.real.dev.fd.log ++ [⟨toLinuxCode key, value⟩] := by rw [h.events]
  have hno : ∀ e ∈ p.mock.events ++ [⟨toLinuxCode key, value⟩], e.value = 1 ∨ e.value = 2 := by
    intro e he
    rcases List.mem_append.mp he with he | he
    · exact h.noRelease e he
    · rw [List.mem_singleton.mp he]
      exact hv.imp And.left And.left
  have hpush := p.mock.pressed_push (toLinuxCode key) value
  rw [hstep]
  rcases hv with ⟨rfl, hnew, rfl⟩ | ⟨rfl, rfl⟩
  · rw [if_pos rfl] at hpush
    refine ⟨h.maxHeld, h.ledgerMaxHeld, h.writes, hans, hev, hno, ?_, ?_, ?_⟩
    · rw [hpush, ← List.concat_eq_append]
      exact h.nodup.concat hnew
    · intro code
      simp [hpush, HeldLedger.pressed, UInt16.toUInt32_inj, h.held, or_comm]
    · rw [hpush, List.length_append, ← h.len]
      exact BTreeSet.len_insert (mt (h.held _).mp hnew)
  · rw [if_neg (by decide), List.append_nil] at hpush
    exact ⟨h.maxHeld, h.ledgerMaxHeld, h.writes, hans, hev, hno, hpush ▸ h.nodup,
      fun code => hpush ▸ h.held code, hpush ▸ h.len⟩

theorem emit_real (ledger : HeldLedger) (value : ℤ) :
    RealDevice.lift key (p.real.dev.emit ledger (toLinuxCode key) value) =
      (⟨⟨p.real.dev.fd.wrote (toLinuxCode key) value, ledger⟩⟩, .ok ()) := by
  rw [UinputDevice.emit_of_answer (h.writes _)]
  rfl

theorem perform_keyDown (hn : toLinuxCode key ∉ p.mock.pressed)
    (hl : p.mock.pressed.length < 16) :
    perform p.mock (.keyDown key) = (p.mock.push (toLinuxCode key) 1, []) ∧
      perform p.real (.keyDown key) =
        (⟨⟨p.real.dev.fd.wrote (toLinuxCode key) 1,
          p.real.dev.ledger.pressed (toLinuxCode key).toUInt32⟩⟩, []) := by
  constructor
  · have hm : p.mock.keyDown key = (p.mock.push (toLinuxCode key) 1, .ok ()) := by
      have hh : p.mock.isHeld (toLinuxCode key) = false := by
        rwa [Bool.eq_false_iff, Ne, h.mock_isHeld_iff]
      have hc : ¬ p.mock.maxHeld ≤ p.mock.heldCount := by
        rw [h.maxHeld, MockKeyDevice.heldCount_eq h.nodup]
        omega
      simp [MockKeyDevice.keyDown, isCapable_toLinuxCode, hh, hc]
    simp [perform, KeyDevice.keyDown, hm, errorsOf]
  · have hk : p.real.dev.ledger.keyDown (toLinuxCode key).toUInt32 =
        .ok (p.real.dev.ledger.pressed (toLinuxCode key).toUInt32) :=
      HeldLedger.keyDown_eq_ok_iff.mpr
        ⟨mt (h.held _).mp hn, by rw [h.len, h.ledgerMaxHeld]; exact hl, rfl⟩
    have hr : p.real.keyDown key = (⟨⟨p.real.dev.fd.wrote (toLinuxCode key) 1,
        p.real.dev.ledger.pressed (toLinuxCode key).toUInt32⟩⟩, .ok ()) := by
      rw [RealDevice.keyDown, UinputDevice.keyDown_of_key, hk]
      exact h.emit_real _ 1
    simp [perform, KeyDevice.keyDown, hr, errorsOf]

theorem perform_keyRepeat_real :
    perform p.real (.keyRepeat key) =
      (⟨⟨p.real.dev.fd.wrote (toLinuxCode key) 2, p.real.dev.ledger⟩⟩, []) := by
  have hr : p.real.keyRepeat key =
      (⟨⟨p.real.dev.fd.wrote (toLinuxCode key) 2, p.real.dev.ledger⟩⟩, .ok ()) := by
    rw [RealDevice.keyRepeat, UinputDevice.keyRepeat_of_key]
    exact h.emit_real _ 2
  simp [perform, KeyDevice.keyRepeat, hr, errorsOf]

omit h in
theorem perform_keyRepeat_mock :
    perform p.mock (.keyRepeat key) = if p.mock.isHeld (toLinuxCode key)
      then (p.mock.push (toLinuxCode key) 2, []) else (p.mock, [.keyUpWithoutDown]) := by
  cases hh : p.mock.isHeld (toLinuxCode key) <;>
    simp [perform, KeyDevice.keyRepeat, MockKeyDevice.keyRepeat, hh, errorsOf, DeviceError.kind]

theorem perform_nothing {c : DeviceCall} {mock : MockKeyDevice} {real : RealDevice}
    (hm : perform p.mock c = (mock, [])) (hr : perform p.real c = (real, []))
    (he : mock.events = p.mock.events) (hx : mock.maxHeld = p.mock.maxHeld)
    (hf : real.dev.fd = p.real.dev.fd) (hl : real.dev.ledger = p.real.dev.ledger) :
    Inv (p.step c).1 := by
  have hp : mock.pressed = p.mock.pressed := by rw [MockKeyDevice.pressed, he]; rfl
  have hstep : (p.step c).1 = ⟨mock, real, p.answers ++ [([], [])]⟩ := by rw [step, hm, hr]
  rw [hstep]
  refine ⟨hx.trans h.maxHeld, hl ▸ h.ledgerMaxHeld, hf ▸ h.writes, ?_, ?_, he ▸ h.noRelease,
    hp ▸ h.nodup, fun code => hp ▸ hl ▸ h.held code, hp ▸ hl ▸ h.len⟩
  · intro a ha
    rcases List.mem_append.mp ha with ha | ha
    · exact h.answers a ha
    · rw [List.mem_singleton.mp ha]
  · exact he.trans (hf ▸ h.events)

theorem step_of_onlyPresses {c : DeviceCall} (hc : p.OnlyPresses c) : Inv (p.step c).1 := by
  cases c with
  | keyDown key =>
    obtain ⟨hn, hl⟩ := hc
    have hnew : toLinuxCode key ∉ p.mock.pressed := by
      rw [← h.real_isHeld_iff, hn]
      exact Bool.false_ne_true
    obtain ⟨hm, hr⟩ := h.perform_keyDown hnew (h.len ▸ hl)
    exact h.push_step hm hr (Or.inl ⟨rfl, hnew, rfl⟩)
  | keyUp key => exact hc.elim
  | keyRepeat key =>
    have hh : p.mock.isHeld (toLinuxCode key) = true :=
      h.mock_isHeld_iff.mpr (h.real_isHeld_iff.mp hc)
    refine h.push_step ?_ h.perform_keyRepeat_real (Or.inr ⟨rfl, rfl⟩)
    rw [perform_keyRepeat_mock, if_pos hh]
  | releaseKeys codes =>
    obtain rfl : codes = [] := hc
    exact h.perform_nothing rfl rfl rfl rfl rfl rfl
  | releaseAll =>
    have hlen : p.mock.pressed = [] := List.length_eq_zero_iff.mp (h.len.symm.trans hc)
    have hheld : p.real.dev.ledger.held = .new := BTreeSet.eq_new hc
    obtain ⟨codes, hl, he⟩ := UinputDevice.releaseAll_eq p.real.dev
    obtain rfl : codes = [] := List.length_eq_zero_iff.mp (hl.trans hc)
    have hm : perform p.mock .releaseAll =
        ({ p.mock with releasedAll := p.mock.releasedAll + 1 }, []) := by
      simp [perform, KeyDevice.releaseAll, MockKeyDevice.releaseAll, hlen,
        MockKeyDevice.releaseKeys]
    have hr : perform p.real .releaseAll =
        (⟨{ p.real.dev with ledger := p.real.dev.ledger.drain.2 }⟩, []) := by
      simp [perform, KeyDevice.releaseAll, RealDevice.releaseAll, he]
    refine h.perform_nothing hm hr rfl rfl rfl ?_
    rw [HeldLedger.drain, ← hheld]

omit h in
theorem answers_step {c : DeviceCall} (hp : (p.step c).1.Alike) :
    (perform p.mock c).2 = (perform p.real c).2 :=
  hp.answers ((perform p.mock c).2, (perform p.real c).2) (List.mem_append_right _ (by simp))

omit h in
/-- The real device reports every refusal of its ledger as an I/O failure. -/
theorem real_refusal (d : UinputDevice) {e : LedgerError} (he : ∀ c, e ≠ .notCapable c) :
    (errorsOf (RealDevice.lift key (d, .error ⟨e.display⟩)).2).map DeviceError.kind = [.io] := by
  have hm := mapSink_ledger (toLinuxCode key) he
  simp [RealDevice.lift, Except.mapError, errorsOf, hm, DeviceError.kind]

theorem refused_keyDown
    (hc : toLinuxCode key ∈ p.mock.pressed ∨ 16 ≤ p.mock.pressed.length) :
    (perform p.mock (.keyDown key)).2 ≠ (perform p.real (.keyDown key)).2 := by
  have hreal : ∃ e : LedgerError, (∀ c, e ≠ .notCapable c) ∧
      p.real.dev.ledger.keyDown (toLinuxCode key).toUInt32 = .error e := by
    unfold HeldLedger.keyDown
    split
    next => exact ⟨_, by simp, rfl⟩
    next hn =>
      have hnp : toLinuxCode key ∉ p.mock.pressed :=
        fun hin => hn (BTreeSet.contains_iff.mpr ((h.held _).mpr hin))
      rw [if_pos (by rw [h.len, h.ledgerMaxHeld]; exact hc.resolve_left hnp)]
      exact ⟨_, by simp, rfl⟩
  obtain ⟨e, he, hk⟩ := hreal
  have hmock : ∃ e : DeviceError, e.kind ≠ .io ∧
      p.mock.keyDown key = (p.mock, .error e) := by
    simp only [MockKeyDevice.keyDown, isCapable_toLinuxCode, Bool.not_true, Bool.false_eq_true,
      if_false]
    split
    next => exact ⟨_, by simp [DeviceError.kind], rfl⟩
    next hn =>
      have hfull : p.mock.maxHeld ≤ p.mock.heldCount := by
        rw [h.maxHeld, MockKeyDevice.heldCount_eq h.nodup]
        exact hc.resolve_left (mt h.mock_isHeld_iff.mpr hn)
      rw [if_pos hfull]
      exact ⟨_, by simp [DeviceError.kind], rfl⟩
  obtain ⟨e', hkind, hm⟩ := hmock
  have hio : (perform p.real (.keyDown key)).2 = [.io] := by
    simp only [perform, KeyDevice.keyDown, RealDevice.keyDown, UinputDevice.keyDown_of_key, hk]
    exact real_refusal p.real.dev he
  rw [hio]
  simpa [perform, KeyDevice.keyDown, hm, errorsOf] using hkind

/-- A released key stays counted by the record. -/
theorem not_alike_of_released {c : DeviceCall}
    (hm : (perform p.mock c).1.pressed = p.mock.pressed)
    (hr : (perform p.real c).1.dev.ledger.held.len < p.real.dev.ledger.held.len) :
    ¬ (p.step c).1.Alike := by
  intro hp
  have hcount : (perform p.mock c).1.heldCount = (perform p.real c).1.dev.ledger.held.len :=
    hp.heldCount
  rw [MockKeyDevice.heldCount_eq (hm ▸ h.nodup), hm, ← h.len] at hcount
  omega

theorem not_alike_keyUp (key : PhysicalKey) : ¬ (p.step (.keyUp key)).1.Alike := by
  by_cases hk : toLinuxCode key ∈ p.mock.pressed
  · have hin : (toLinuxCode key).toUInt32 ∈ p.real.dev.ledger.held := (h.held _).mpr hk
    have hm : p.mock.keyUp key = (p.mock.push (toLinuxCode key) 0, .ok ()) := by
      simp [MockKeyDevice.keyUp, isCapable_toLinuxCode, h.mock_isHeld_iff.mpr hk]
    have hr : (p.real.keyUp key).1.dev.ledger =
        p.real.dev.ledger.released (toLinuxCode key).toUInt32 := by
      rw [RealDevice.keyUp, UinputDevice.keyUp_of_key,
        HeldLedger.keyUp_eq_ok_iff.mpr ⟨hin, rfl⟩]
      rfl
    apply h.not_alike_of_released
    · simp [perform, KeyDevice.keyUp, hm, MockKeyDevice.pressed_push]
    · simp only [perform, KeyDevice.keyUp, hr]
      exact BTreeSet.len_remove_lt hin
  · intro hp
    have hnin : (toLinuxCode key).toUInt32 ∉ p.real.dev.ledger.held := mt (h.held _).mp hk
    have hm : p.mock.keyUp key = (p.mock, .error (.keyUpWithoutDown (toLinuxCode key))) := by
      simp [MockKeyDevice.keyUp, isCapable_toLinuxCode, mt h.mock_isHeld_iff.mp hk]
    have hr : (perform p.real (.keyUp key)).2 = [.io] := by
      simp only [perform, KeyDevice.keyUp, RealDevice.keyUp, UinputDevice.keyUp_of_key,
        HeldLedger.keyUp, BTreeSet.contains_eq_false_iff.mpr hnin, Bool.false_eq_true, if_false]
      exact real_refusal p.real.dev (by simp)
    have ha := (answers_step hp).trans hr
    simp [perform, KeyDevice.keyUp, hm, errorsOf, DeviceError.kind] at ha

theorem not_alike_releaseKeys (code : UInt16) (codes : List UInt16) :
    ¬ (p.step (.releaseKeys (code :: codes))).1.Alike := by
  by_cases hk : code ∈ p.mock.pressed
  · have hin : code.toUInt32 ∈ p.real.dev.ledger.held := (h.held _).mpr hk
    apply h.not_alike_of_released
    · exact MockKeyDevice.releaseKeys_pressed p.mock _
    · change (p.real.dev.releaseKeys (code :: codes)).1.ledger.held.len < _
      rw [UinputDevice.releaseKeys_cons_held codes hin]
      calc _ ≤ (p.real.dev.ledger.held.remove code.toUInt32).len :=
            UinputDevice.releaseKeys_len_le _ codes
        _ < _ := BTreeSet.len_remove_lt hin
  · intro hp
    have hnin : code.toUInt32 ∉ p.real.dev.ledger.held := mt (h.held _).mp hk
    have hm := mt h.mock_isHeld_iff.mp hk
    have hio := mapSink_ledger code (e := .keyUpWithoutDown code.toUInt32) (by simp)
    have ha := answers_step hp
    simp [perform, KeyDevice.releaseKeys, MockKeyDevice.releaseKeys, hm, RealDevice.releaseKeys,
      UinputDevice.releaseKeys, HeldLedger.keyUp, hnin, hio, DeviceError.kind] at ha

theorem not_alike_releaseAll (hn : p.mock.pressed ≠ []) :
    ¬ (p.step .releaseAll).1.Alike := by
  intro hp
  obtain ⟨_, -, hr⟩ := UinputDevice.releaseAll_eq p.real.dev
  have hlog : (perform p.real .releaseAll).1.dev.fd.log = p.real.dev.fd.log := by
    simp [perform, KeyDevice.releaseAll, RealDevice.releaseAll, hr]
  have hev : p.mock.releaseAll.1.events = p.mock.events :=
    (hp.events.trans hlog).trans h.events.symm
  obtain ⟨code, codes, hl⟩ := List.exists_cons_of_ne_nil (mt List.reverse_eq_nil_iff.mp hn)
  have hheld : p.mock.isHeld code = true := by
    apply h.mock_isHeld_iff.mpr
    rw [← List.mem_reverse, hl]
    exact List.mem_cons_self
  have hne := MockKeyDevice.releaseKeys_events_ne
    (m := { p.mock with releasedAll := p.mock.releasedAll + 1 }) hheld codes
  rw [← hl] at hne
  exact hne hev

/-- Only an accepted call that releases nothing leaves the devices alike. -/
theorem onlyPresses_of_alike {c : DeviceCall} (hp : (p.step c).1.Alike) : p.OnlyPresses c := by
  cases c with
  | keyDown key =>
    by_contra hc
    have hor : toLinuxCode key ∈ p.mock.pressed ∨ 16 ≤ p.mock.pressed.length := by
      rw [← h.real_isHeld_iff, ← h.len]
      by_contra hno
      obtain ⟨hn, hl⟩ := not_or.mp hno
      exact hc ⟨Bool.eq_false_iff.mpr hn, Nat.lt_of_not_le hl⟩
    exact h.refused_keyDown hor (answers_step hp)
  | keyUp key => exact h.not_alike_keyUp key hp
  | keyRepeat key =>
    have ha := answers_step hp
    rw [h.perform_keyRepeat_real, perform_keyRepeat_mock] at ha
    split at ha
    next hh => exact h.real_isHeld_iff.mpr (h.mock_isHeld_iff.mp hh)
    next => simp at ha
  | releaseKeys codes =>
    cases codes with
    | nil => rfl
    | cons code codes => exact absurd hp (h.not_alike_releaseKeys code codes)
  | releaseAll =>
    by_contra hc
    refine h.not_alike_releaseAll ?_ hp
    rintro hnil
    exact hc (h.len.trans (by rw [hnil]; rfl))

end Calls

end Inv

/-- The devices are alike throughout a run exactly when every call of it is accepted and
releases nothing. -/
theorem always_alike_iff (calls : List DeviceCall) :
    Always step Alike new calls ↔ Steps step OnlyPresses new calls :=
  always_iff_steps Inv Inv.new (fun _ h => h.alike) (fun _ _ h hc => h.step_of_onlyPresses hc)
    (fun _ _ h hc hp => hc (h.onlyPresses_of_alike hp)) calls

/-- After a press and a release the record still counts the key. -/
theorem pressAndRelease_still_counted :
    ¬ Always step Alike new [.keyDown .a, .keyUp .a] :=
  fun h => absurd (h _ List.prefix_rfl).heldCount (by decide)

end DevicePair

end Ferrokey.Daemon
