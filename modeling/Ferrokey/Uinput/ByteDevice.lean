import Ferrokey.Uinput.Emit

/-! # The device over its descriptor

The operations of the virtual keyboard once more, now down to the bytes of each write. What the
kernel reads of them is what the device of events records, and the ledger knows the keys that the
kernel takes to be down, but for those whose last press or release was lost.
-/

namespace Ferrokey.Uinput

open Machine Framing Emit

structure ByteDevice where
  file : EventFile
  ledger : HeldLedger

namespace ByteDevice

def adopt (calls : ℕ → List WriteAnswer) (maxHeldKeys : ℕ) : ByteDevice :=
  ⟨.fresh calls, .new maxHeldKeys⟩

def heldCount (d : ByteDevice) : ℕ := d.ledger.len

def isHeld (d : ByteDevice) (code : UInt16) : Bool := d.ledger.isHeld code.toUInt32

/-- Write an event on behalf of an operation that has moved the ledger. -/
def emit (d : ByteDevice) (ledger : HeldLedger) (code : UInt16) (value : ℤ) :
    ByteDevice × Except SinkError Unit :=
  let w := d.file.writeOne code value
  (⟨w.1, ledger⟩, w.2.mapError SinkError.mk)

def keyDown (d : ByteDevice) (key : PhysicalKey) : ByteDevice × Except SinkError Unit :=
  let code := toLinuxCode key
  match UinputDevice.validateCapable code with
  | .error e => (d, .error e)
  | .ok () =>
    match d.ledger.keyDown code.toUInt32 with
    | .error e => (d, .error ⟨e.display⟩)
    | .ok ledger => d.emit ledger code 1

def keyUp (d : ByteDevice) (key : PhysicalKey) : ByteDevice × Except SinkError Unit :=
  let code := toLinuxCode key
  match UinputDevice.validateCapable code with
  | .error e => (d, .error e)
  | .ok () =>
    match d.ledger.keyUp code.toUInt32 with
    | .error e => (d, .error ⟨e.display⟩)
    | .ok ledger => d.emit ledger code 0

def keyRepeat (d : ByteDevice) (key : PhysicalKey) : ByteDevice × Except SinkError Unit :=
  let code := toLinuxCode key
  match UinputDevice.validateCapable code with
  | .error e => (d, .error e)
  | .ok () => d.emit d.ledger code 2

def releaseKeys (d : ByteDevice) : List UInt16 → ByteDevice × List SinkError
  | [] => (d, [])
  | code :: codes =>
    match d.ledger.keyUp code.toUInt32 with
    | .error e =>
      let r := d.releaseKeys codes
      (r.1, ⟨e.display⟩ :: r.2)
    | .ok ledger =>
      let w := d.emit ledger code 0
      let r := w.1.releaseKeys codes
      match w.2 with
      | .ok () => r
      | .error e => (r.1, e :: r.2)

def releaseAll (d : ByteDevice) : ByteDevice × List SinkError :=
  let r := d.ledger.drain
  let codes := r.1.map (fun c => if c.toNat < UInt16.size then c.toUInt16 else 0)
  { d with ledger := r.2 }.releaseKeys codes

end ByteDevice

/-- What has been written, as the kernel takes it and as the device of events records it. The
entries are the batches that the kernel was offered, one after the other. -/
structure Mirrors (entries : List Entry) (b : ByteDevice) (d : UinputDevice) : Prop where
  whole : ∀ k, Whole (b.file.calls k)
  answer : ∀ k, d.fd.answer k = refusal (b.file.calls k)
  attempts : d.fd.attempts = b.file.batches
  ledger : b.ledger = d.ledger
  recorded : b.file.record = entries.map Entry.batch
  log : d.fd.log = (entries.filter fun en => 2 ≤ en.images).map Entry.event
  proper : ∀ en ∈ entries, Proper en.event
  cut : ∀ en ∈ entries, 2 ≤ en.images ∨ ∃ k, d.fd.answer k ≠ none
  capable : ∀ code : UInt16, code.toUInt32 ∈ d.ledger.held → isCapable code = true
  down : ∀ code, code ∈ leftDown (entries.map fun en => en.event.stroke) ↔
    code.toUInt32 ∈ d.ledger.held

/-- The two devices are under some batches. -/
def Mirror (b : ByteDevice) (d : UinputDevice) : Prop := ∃ entries, Mirrors entries b d

namespace Mirrors

variable {entries : List Entry} {b : ByteDevice} {d : UinputDevice} {ledger : HeldLedger}
  {code : UInt16} {value : ℤ}

theorem adopt {calls : ℕ → List WriteAnswer} (hwhole : ∀ k, Whole (calls k)) (maxHeldKeys : ℕ) :
    Mirrors [] (.adopt calls maxHeldKeys) (.new (fun k => refusal (calls k)) maxHeldKeys) where
  whole := hwhole
  answer _ := rfl
  attempts := rfl
  ledger := rfl
  recorded := rfl
  log := rfl
  proper := by simp
  cut := by simp
  capable code h := absurd h (BTreeSet.not_mem_new _)
  down code := iff_of_false (by simp) (BTreeSet.not_mem_new _)

theorem taken (h : Mirrors entries b d) : b.file.taken = entries.flatMap Entry.bytes := by
  rw [EventFile.taken, h.recorded, List.flatMap_map]
  rfl

theorem down_eq (h : Mirrors entries b d) :
    leftDown (entries.map fun en => en.event.stroke) = {c | c.toUInt32 ∈ d.ledger.held} :=
  Set.ext h.down

/-- A batch that is offered to the kernel is one more entry, on whichever ledger. -/
theorem snoc (h : Mirrors entries b d) {k : ℕ} {fd : Fd} (hproper : Proper ⟨code, value⟩)
    (hledger : ∀ c : UInt16, c.toUInt32 ∈ ledger.held ↔
      c ∈ (InputEvent.stroke ⟨code, value⟩).after {c | c.toUInt32 ∈ d.ledger.held})
    (hanswer : fd.answer = d.fd.answer) (hattempts : fd.attempts = d.fd.attempts + 1)
    (hlog : fd.log = d.fd.log ++ if 2 ≤ k then [⟨code, value⟩] else [])
    (hcut : 2 ≤ k ∨ ∃ n, d.fd.answer n ≠ none) :
    Mirrors (entries ++ [⟨⟨code, value⟩, k⟩])
      ⟨{ b.file with record := b.file.record ++ [(Entry.mk ⟨code, value⟩ k).batch] }, ledger⟩
      ⟨fd, ledger⟩ where
  whole := h.whole
  answer n := (congrFun hanswer n).trans (h.answer n)
  attempts := by
    rw [hattempts, h.attempts]
    simp [EventFile.batches]
  ledger := rfl
  recorded := by rw [h.recorded, List.map_append, List.map_singleton]
  log := by
    rw [hlog, h.log, List.filter_append, List.map_append, List.filter_singleton]
    by_cases hk : 2 ≤ k <;> simp [hk]
  proper en hen := by
    rcases List.mem_append.mp hen with hen | hen
    · exact h.proper en hen
    · rwa [List.mem_singleton.mp hen]
  cut en hen := by
    rw [hanswer]
    rcases List.mem_append.mp hen with hen | hen
    · exact h.cut en hen
    · rwa [List.mem_singleton.mp hen]
  capable c hc := by
    have hleaves : c ∈ leaves {c | c.toUInt32 ∈ d.ledger.held}
        [InputEvent.stroke ⟨code, value⟩] := (hledger c).mp hc
    rcases down_of_mem_leaves hleaves with hc | hc
    · exact h.capable c hc
    · have hcode : c = code := by
        have hstroke := List.mem_singleton.mp hc
        unfold InputEvent.stroke at hstroke
        grind
      exact hcode ▸ hproper.1
  down c := by
    rw [List.map_append, leftDown_append, h.down_eq, hledger]
    rfl

/-- An event is written alike on both devices, when the ledger has moved as the event says. -/
theorem emit (h : Mirrors entries b d) (hproper : Proper ⟨code, value⟩)
    (hledger : ∀ c : UInt16, c.toUInt32 ∈ ledger.held ↔
      c ∈ (InputEvent.stroke ⟨code, value⟩).after {c | c.toUInt32 ∈ d.ledger.held}) :
    (b.emit ledger code value).2 = (d.emit ledger code value).2 ∧
      Mirror (b.emit ledger code value).1 (d.emit ledger code value).1 := by
  obtain ⟨k, hw, hk⟩ := writeOne_entry (h.whole b.file.batches) code value
  have hanswer : d.fd.answer d.fd.attempts = refusal (b.file.calls b.file.batches) := by
    rw [h.answer, h.attempts]
  rw [ByteDevice.emit, hw]
  cases hrefused : refusal (b.file.calls b.file.batches) with
  | none =>
    rw [UinputDevice.emit_of_answer (hanswer.trans hrefused)]
    have hlog : (d.fd.wrote code value).log =
        d.fd.log ++ if 2 ≤ k then [⟨code, value⟩] else [] := by
      rw [if_pos (hk.mp hrefused)]
      rfl
    exact ⟨rfl, _, h.snoc hproper hledger rfl rfl hlog (Or.inl (hk.mp hrefused))⟩
  | some e =>
    have hlost : refusal (b.file.calls b.file.batches) ≠ none := by simp [hrefused]
    have hfails : d.fd.answer d.fd.attempts ≠ none := hanswer ▸ hlost
    rw [UinputDevice.emit_of_failure (hanswer.trans hrefused)]
    have hlog : d.fd.lost.log = d.fd.log ++ if 2 ≤ k then [⟨code, value⟩] else [] := by
      rw [if_neg (mt hk.mpr hlost)]
      exact (List.append_nil _).symm
    exact ⟨rfl, _, h.snoc hproper hledger rfl rfl hlog (Or.inr ⟨_, hfails⟩)⟩

end Mirrors

namespace Mirror

variable {b : ByteDevice} {d : UinputDevice}

theorem ledger (h : Mirror b d) : b.ledger = d.ledger := by
  obtain ⟨entries, h⟩ := h
  exact h.ledger

theorem keyDown (h : Mirror b d) (key : PhysicalKey) :
    (b.keyDown key).2 = (d.keyDown key).2 ∧ Mirror (b.keyDown key).1 (d.keyDown key).1 := by
  rw [ByteDevice.keyDown, UinputDevice.keyDown, h.ledger]
  simp only [UinputDevice.validateCapable, isCapable_toLinuxCode, if_true]
  cases hdown : d.ledger.keyDown (toLinuxCode key).toUInt32 with
  | error e => exact ⟨rfl, h⟩
  | ok ledger =>
    obtain ⟨-, -, rfl⟩ := HeldLedger.keyDown_eq_ok_iff.mp hdown
    obtain ⟨entries, h⟩ := h
    refine h.emit ⟨isCapable_toLinuxCode key, Or.inr (Or.inl rfl)⟩ fun c => ?_
    rw [HeldLedger.pressed, BTreeSet.mem_insert, UInt16.toUInt32_inj]
    rfl

theorem release (h : Mirror b d) {code : UInt16} (hheld : code.toUInt32 ∈ d.ledger.held) :
    let ledger := d.ledger.released code.toUInt32
    (b.emit ledger code 0).2 = (d.emit ledger code 0).2 ∧
      Mirror (b.emit ledger code 0).1 (d.emit ledger code 0).1 := by
  obtain ⟨entries, h⟩ := h
  refine h.emit ⟨h.capable code hheld, Or.inl rfl⟩ fun c => ?_
  rw [HeldLedger.released, BTreeSet.mem_remove, Ne, UInt16.toUInt32_inj, and_comm]
  rfl

theorem keyUp (h : Mirror b d) (key : PhysicalKey) :
    (b.keyUp key).2 = (d.keyUp key).2 ∧ Mirror (b.keyUp key).1 (d.keyUp key).1 := by
  rw [ByteDevice.keyUp, UinputDevice.keyUp, h.ledger]
  simp only [UinputDevice.validateCapable, isCapable_toLinuxCode, if_true]
  cases hup : d.ledger.keyUp (toLinuxCode key).toUInt32 with
  | error e => exact ⟨rfl, h⟩
  | ok ledger =>
    obtain ⟨hheld, rfl⟩ := HeldLedger.keyUp_eq_ok_iff.mp hup
    exact h.release hheld

theorem keyRepeat (h : Mirror b d) (key : PhysicalKey) :
    (b.keyRepeat key).2 = (d.keyRepeat key).2 ∧
      Mirror (b.keyRepeat key).1 (d.keyRepeat key).1 := by
  rw [ByteDevice.keyRepeat, UinputDevice.keyRepeat, h.ledger]
  simp only [UinputDevice.validateCapable, isCapable_toLinuxCode, if_true]
  obtain ⟨entries, h⟩ := h
  exact h.emit ⟨isCapable_toLinuxCode key, Or.inr (Or.inr rfl)⟩ fun c => Iff.rfl

theorem releaseKeys (h : Mirror b d) (codes : List UInt16) :
    (b.releaseKeys codes).2 = (d.releaseKeys codes).2 ∧
      Mirror (b.releaseKeys codes).1 (d.releaseKeys codes).1 := by
  induction codes generalizing b d with
  | nil => exact ⟨rfl, h⟩
  | cons code codes ih =>
    rw [ByteDevice.releaseKeys, UinputDevice.releaseKeys, h.ledger]
    cases hup : d.ledger.keyUp code.toUInt32 with
    | error e =>
      obtain ⟨herrors, hnext⟩ := ih h
      exact ⟨congrArg (_ :: ·) herrors, hnext⟩
    | ok ledger =>
      obtain ⟨hheld, rfl⟩ := HeldLedger.keyUp_eq_ok_iff.mp hup
      obtain ⟨hresult, hone⟩ := h.release hheld
      obtain ⟨herrors, hnext⟩ := ih hone
      dsimp only
      rw [hresult]
      cases (d.emit (d.ledger.released code.toUInt32) code 0).2 with
      | ok u => exact ⟨herrors, hnext⟩
      | error e => exact ⟨congrArg (e :: ·) herrors, hnext⟩

end Mirror

end Ferrokey.Uinput
