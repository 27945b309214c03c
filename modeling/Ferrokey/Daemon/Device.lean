import Ferrokey.Uinput.Device
import Mathlib.Data.List.Infix

/-! # The daemon's keyboard device

The closed set of operations the protocol core has on a keyboard, and the real
implementation over the uinput device. Errors of the real device arrive as texts
and are sorted into the daemon's error kinds by what the texts contain.
-/

namespace Ferrokey.Daemon

open Uinput

inductive DeviceError where
  | unknownKey (code : UInt16)
  | keyUpWithoutDown (code : UInt16)
  | rollover (code : UInt16)
  | keyBusy (code : UInt16)
  | io (text : String)
  deriving DecidableEq, Repr

def DeviceError.display : DeviceError → String
  | .unknownKey code => s!"key code {code} is not in the explicit capability set"
  | .keyUpWithoutDown code => s!"key_up for key {code} without a matching key_down"
  | .rollover code => s!"rollover limit exceeded while pressing {code}"
  | .keyBusy code => s!"key {code} is already held (duplicate down / cross-session ownership)"
  | .io text => s!"device I/O failed: {text}"

/-- A keyboard the broker can command. -/
class KeyDevice (δ : Type) where
  keyDown : δ → PhysicalKey → δ × Except DeviceError Unit
  keyUp : δ → PhysicalKey → δ × Except DeviceError Unit
  keyRepeat : δ → PhysicalKey → δ × Except DeviceError Unit
  releaseKeys : δ → List UInt16 → δ × List DeviceError
  releaseAll : δ → δ × List DeviceError
  isCapable : δ → UInt16 → Bool
  isHeld : δ → UInt16 → Bool
  heldCount : δ → ℕ

def textContains (msg pat : String) : Bool := decide (pat.toList <:+: msg.toList)

/-- Sort the text of a sink error into an error kind. -/
def mapSink (code : UInt16) (e : Uinput.SinkError) : DeviceError :=
  if textContains e.text "KeyUpWithoutDown" then .keyUpWithoutDown code
  else if textContains e.text "Rollover" then .rollover code
  else if textContains e.text "KeyBusy" then .keyBusy code
  else if textContains e.text "capability" then .unknownKey code
  else .io e.text

/-- A text without its numbers. -/
def withoutDigits (text : String) : List Char := text.toList.filter fun c => !c.isDigit

@[simp] theorem withoutDigits_toString (n : ℕ) : withoutDigits (toString n) = [] := by
  rw [withoutDigits, List.filter_eq_nil_iff]
  intro c hc
  rw [Nat.toString_eq_repr, Nat.repr_eq_ofList_toDigits, String.toList_ofList] at hc
  simp [Nat.isDigit_of_mem_toDigits (by decide) (by decide) hc]

@[simp] theorem withoutDigits_append (s t : String) :
    withoutDigits (s ++ t) = withoutDigits s ++ withoutDigits t := by
  rw [withoutDigits, String.toList_append, List.filter_append]
  rfl

/-- A pattern without digits that does not occur in a text stripped of its numbers does not
occur in the text. -/
theorem textContains_eq_false {msg pat : String} (hp : withoutDigits pat = pat.toList)
    (h : ¬ pat.toList <:+: withoutDigits msg) : textContains msg pat = false := by
  rw [textContains, decide_eq_false_iff_not]
  intro hc
  exact h (hp ▸ hc.filter _)

theorem mapSink_eq_io {text : String} (code : UInt16)
    (h : ∀ pat ∈ ["KeyUpWithoutDown", "Rollover", "KeyBusy", "capability"],
      ¬ pat.toList <:+: withoutDigits text) : mapSink code ⟨text⟩ = .io text := by
  simp only [List.forall_mem_cons] at h
  obtain ⟨h₁, h₂, h₃, h₄, -⟩ := h
  have hc : ∀ {pat}, withoutDigits pat = pat.toList → ¬ pat.toList <:+: withoutDigits text →
      ¬ textContains text pat = true := by
    intro pat hp hn
    rw [textContains_eq_false hp hn]
    exact Bool.false_ne_true
  unfold mapSink
  rw [if_neg (hc (by decide) h₁), if_neg (hc (by decide) h₂), if_neg (hc (by decide) h₃),
    if_neg (hc (by decide) h₄)]

/-- The texts of the ledger's refusals do not name their kinds, so the daemon takes every
one of them for an I/O failure. -/
theorem mapSink_ledger (code : UInt16) {e : LedgerError} (h : ∀ c, e ≠ .notCapable c) :
    mapSink code ⟨e.display⟩ = .io e.display := by
  apply mapSink_eq_io
  cases e with
  | notCapable c => exact absurd rfl (h c)
  | keyUpWithoutDown c =>
    have hd : (LedgerError.keyUpWithoutDown c).display = "key_up for key " ++ toString c.toNat ++
        " without a matching key_down (impossible transition)" := rfl
    rw [hd, withoutDigits_append, withoutDigits_append, withoutDigits_toString]
    decide +kernel
  | rollover c limit =>
    have hd : (LedgerError.rollover c limit).display = "key_down for key " ++ toString c.toNat ++
        " exceeds the simultaneous-keys cap of " ++ toString limit := rfl
    rw [hd]
    simp only [withoutDigits_append, withoutDigits_toString]
    decide +kernel
  | keyBusy c =>
    have hd : (LedgerError.keyBusy c).display = "key_down for key " ++ toString c.toNat ++
        " while already held (duplicate down / cross-session ownership)" := rfl
    rw [hd, withoutDigits_append, withoutDigits_append, withoutDigits_toString]
    decide +kernel

structure RealDevice where
  dev : UinputDevice

namespace RealDevice

/-- Give an operation's result the daemon's error kind for a key. -/
def lift (key : PhysicalKey) (r : UinputDevice × Except Uinput.SinkError Unit) :
    RealDevice × Except DeviceError Unit :=
  (⟨r.1⟩, r.2.mapError (mapSink (toLinuxCode key)))

/-- The write of an operation is taken or lost; the ledger has moved either way. -/
theorem lift_emit (key : PhysicalKey) (d : UinputDevice) (ledger : HeldLedger) (code : UInt16)
    (value : ℤ) :
    (d.fd.answer d.fd.attempts = none ∧
      lift key (d.emit ledger code value) = (⟨⟨d.fd.wrote code value, ledger⟩⟩, .ok ())) ∨
    ∃ text e, d.fd.answer d.fd.attempts = some text ∧
      lift key (d.emit ledger code value) = (⟨⟨d.fd.lost, ledger⟩⟩, .error e) := by
  cases hw : d.fd.answer d.fd.attempts with
  | none =>
    rw [UinputDevice.emit_of_answer hw]
    exact Or.inl ⟨rfl, rfl⟩
  | some text =>
    rw [UinputDevice.emit_of_failure hw]
    exact Or.inr ⟨text, _, rfl, rfl⟩

def keyDown (d : RealDevice) (key : PhysicalKey) : RealDevice × Except DeviceError Unit :=
  lift key (d.dev.keyDown key)

def keyUp (d : RealDevice) (key : PhysicalKey) : RealDevice × Except DeviceError Unit :=
  lift key (d.dev.keyUp key)

def keyRepeat (d : RealDevice) (key : PhysicalKey) : RealDevice × Except DeviceError Unit :=
  lift key (d.dev.keyRepeat key)

/-- Every error of the batch is reported under the first code of the batch. -/
def releaseKeys (d : RealDevice) (codes : List UInt16) : RealDevice × List DeviceError :=
  let r := d.dev.releaseKeys codes
  (⟨r.1⟩, r.2.map (mapSink (codes.head?.getD 0)))

def releaseAll (d : RealDevice) : RealDevice × List DeviceError :=
  let r := d.dev.releaseAll
  (⟨r.1⟩, r.2.map (fun e => .io e.text))

instance : KeyDevice RealDevice where
  keyDown := keyDown
  keyUp := keyUp
  keyRepeat := keyRepeat
  releaseKeys := releaseKeys
  releaseAll := releaseAll
  isCapable _ code := Uinput.isCapable code
  isHeld d code := d.dev.isHeld code
  heldCount d := d.dev.heldCount

end RealDevice

end Ferrokey.Daemon
