import Ferrokey.Core.Driver

/-! # The terminal key sink

The terminal destination turns keys into bytes. The sink keeps its own view of the
held modifiers, one bit for each kind, and of Caps Lock, from the key events it is
given. The encoder and the terminal's modes are parameters: they decide which bytes
are sent, and nothing else.
-/

namespace Ferrokey.Terminal

open Machine

inductive TerminalSinkError where
  | io (text : String)
  | notRunning
  deriving DecidableEq, Repr

def TerminalSinkError.display : TerminalSinkError → String
  | .io text => s!"terminal write failed: {text}"
  | .notRunning => "terminal is not running"

/-- Anything that can receive encoded terminal input. -/
class TerminalInputSink (τ : Type) where
  send : τ → List UInt8 → τ × Except TerminalSinkError Unit

/-- An input sink that takes whatever it is sent. -/
def NeverFails (τ : Type) [TerminalInputSink τ] : Prop :=
  ∀ (t : τ) (bytes : List UInt8), (TerminalInputSink.send t bytes).2 = .ok ()

/-- The bytes of a key under some modifiers and terminal modes, if it has any. -/
structure TerminalKeyEncoder (μ : Type) where
  encode : PhysicalKey → ModifierSet → μ → Option (List UInt8)

/-- Whether the unmodified character of a key is a letter. -/
def isLetterKey : PhysicalKey → Bool
  | .a | .b | .c | .d | .e | .f | .g | .h | .i | .j | .k | .l | .m | .n | .o | .p | .q | .r | .s
  | .t | .u | .v | .w | .x | .y | .z => true
  | _ => false

structure TerminalKeySink (μ τ : Type) where
  encoder : TerminalKeyEncoder μ
  modes : μ
  sink : τ
  heldMods : ModifierSet
  capsLock : Bool
  encodedEvents : UInt64
  rejectedEvents : UInt64

namespace TerminalKeySink

variable {μ τ : Type}

def new (encoder : TerminalKeyEncoder μ) (modes : μ) (sink : τ) : TerminalKeySink μ τ :=
  ⟨encoder, modes, sink, .empty, false, 0, 0⟩

/-- The modifiers a key is encoded with: Caps Lock inverts shift on letter keys. -/
def effectiveMods (t : TerminalKeySink μ τ) (key : PhysicalKey) : ModifierSet :=
  if t.capsLock && isLetterKey key then
    if t.heldMods.contains (.ofKind .shift) then t.heldMods.remove (.ofKind .shift)
    else t.heldMods.insert (.ofKind .shift)
  else t.heldMods

variable [TerminalInputSink τ]

def encodeAndSend (t : TerminalKeySink μ τ) (key : PhysicalKey) :
    TerminalKeySink μ τ × Except TerminalSinkError Unit :=
  match t.encoder.encode key (t.effectiveMods key) t.modes with
  | some bytes =>
    let r := TerminalInputSink.send t.sink bytes
    ({ t with sink := r.1, encodedEvents := t.encodedEvents + 1 }, r.2)
  | none => ({ t with rejectedEvents := t.rejectedEvents + 1 }, .ok ())

def keyDown (t : TerminalKeySink μ τ) (key : PhysicalKey) :
    TerminalKeySink μ τ × Except SinkError Unit :=
  match key.modifierKind with
  | some kind => ({ t with heldMods := t.heldMods.insert (.ofKind kind) }, .ok ())
  | none =>
    if key.isLockKey then (t, .ok ())
    else
      let r := t.encodeAndSend key
      (r.1, r.2.mapError fun e => ⟨e.display⟩)

/-- Releases send nothing; the one of Caps Lock toggles the sink's view of it. -/
def keyUp (t : TerminalKeySink μ τ) (key : PhysicalKey) :
    TerminalKeySink μ τ × Except SinkError Unit :=
  (match key.modifierKind with
    | some kind => { t with heldMods := t.heldMods.remove (.ofKind kind) }
    | none => if key = .capsLock then { t with capsLock := !t.capsLock } else t, .ok ())

instance keySink : KeySink (TerminalKeySink μ τ) where
  keyDown := keyDown
  keyUp := keyUp
  keyRepeat := keyDown
  releaseAll t := ({ t with heldMods := .empty }, .ok ())

end TerminalKeySink

/-- What an event does to the sink's held modifiers. -/
def modsAfter (mods : ModifierSet) : Stroke PhysicalKey → ModifierSet
  | .down key | .again key =>
    match key.modifierKind with
    | some kind => mods.insert (.ofKind kind)
    | none => mods
  | .up key =>
    match key.modifierKind with
    | some kind => mods.remove (.ofKind kind)
    | none => mods

/-- What an event does to the sink's view of Caps Lock. -/
def capsAfter (caps : Bool) : Stroke PhysicalKey → Bool
  | .up .capsLock => !caps
  | _ => caps

section

variable {μ τ : Type} [TerminalInputSink τ]

theorem encodeAndSend_eq (h : NeverFails τ) (t : TerminalKeySink μ τ) (key : PhysicalKey) :
    (t.encodeAndSend key).2 = .ok () ∧ (t.encodeAndSend key).1.heldMods = t.heldMods ∧
      (t.encodeAndSend key).1.capsLock = t.capsLock := by
  unfold TerminalKeySink.encodeAndSend
  split
  · exact ⟨h _ _, rfl, rfl⟩
  · exact ⟨rfl, rfl, rfl⟩

theorem keyDown_eq (h : NeverFails τ) (t : TerminalKeySink μ τ) (key : PhysicalKey) :
    (t.keyDown key).2 = .ok () ∧ (t.keyDown key).1.heldMods = modsAfter t.heldMods (.down key) ∧
      (t.keyDown key).1.capsLock = t.capsLock := by
  simp only [TerminalKeySink.keyDown, modsAfter]
  cases key.modifierKind with
  | some kind => exact ⟨rfl, rfl, rfl⟩
  | none =>
    cases key.isLockKey with
    | true => exact ⟨rfl, rfl, rfl⟩
    | false =>
      obtain ⟨hok, hmods, hcaps⟩ := encodeAndSend_eq h t key
      exact ⟨by simp [hok, Except.mapError], hmods, hcaps⟩

omit [TerminalInputSink τ] in
theorem keyUp_eq (t : TerminalKeySink μ τ) (key : PhysicalKey) :
    (t.keyUp key).1.heldMods = modsAfter t.heldMods (.up key) ∧
      (t.keyUp key).1.capsLock = capsAfter t.capsLock (.up key) := by
  unfold TerminalKeySink.keyUp modsAfter capsAfter
  cases key <;> exact ⟨rfl, rfl⟩

/-- A sink that never fails takes every event. -/
theorem take_eq (h : NeverFails τ) (t : TerminalKeySink μ τ) (stroke : Stroke PhysicalKey) :
    (KeySink.take t stroke).2 = .ok () ∧
      (KeySink.take t stroke).1.heldMods = modsAfter t.heldMods stroke ∧
      (KeySink.take t stroke).1.capsLock = capsAfter t.capsLock stroke := by
  cases stroke with
  | down key => exact keyDown_eq h t key
  | up key => exact ⟨rfl, keyUp_eq t key⟩
  | again key => exact keyDown_eq h t key

theorem deliver_eq (h : NeverFails τ) (t : TerminalKeySink μ τ)
    (strokes : List (Stroke PhysicalKey)) :
    (deliver t strokes).2 = .ok () ∧
      (deliver t strokes).1.heldMods = strokes.foldl modsAfter t.heldMods ∧
      (deliver t strokes).1.capsLock = strokes.foldl capsAfter t.capsLock := by
  induction strokes generalizing t with
  | nil => exact ⟨rfl, rfl, rfl⟩
  | cons stroke strokes ih =>
    obtain ⟨hok, hmods, hcaps⟩ := take_eq h t stroke
    rw [deliver]
    cases ht : KeySink.take t stroke with
    | mk t' result =>
      rw [ht] at hok hmods hcaps
      obtain rfl : result = .ok () := hok
      rw [List.foldl_cons, List.foldl_cons, ← hmods, ← hcaps]
      exact ih t'

end

end Ferrokey.Terminal
