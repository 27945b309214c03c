import Ferrokey.Surface.Touch
import Mathlib.Algebra.Order.Ring.Rat

/-! # The pointer bridge

The bridge turns pointer and touch events into key presses and releases. It keeps
which key each pointer button, and the touch, is holding, so that a release goes to
the key that was pressed. What the view has under a point, and what its keys stand
for, is asked at each event.
-/

namespace Ferrokey.App

open Machine Surface

/-- A call on the user interface. -/
inductive UiCall where
  | keyPressed (name : String)
  | keyReleased (name : String)
  deriving DecidableEq, Repr

def UiCall.stroke : UiCall → Stroke String
  | keyPressed name => .down name
  | keyReleased name => .up name

/-- What the active view says about points and key names. -/
structure KeyboardView where
  keyAt : ℚ → ℚ → Option String
  touchKeyAt : ℚ → ℚ → Option String
  shellSequenceFor : String → Option (List (List String))
  chordFor : String → Option (List String)
  isPhysicalKey : String → Bool

/-- Press each member in order, release in reverse. -/
def playChord (chord : List String) : List UiCall :=
  chord.map .keyPressed ++ chord.reverse.map .keyReleased

def playSequence (sequence : List (List String)) : List UiCall := sequence.flatMap playChord

namespace KeyboardView

def isActionable (view : KeyboardView) (name : String) : Bool :=
  (view.shellSequenceFor name).isSome || (view.chordFor name).isSome || view.isPhysicalKey name

/-- What a press on a key calls, and whether it holds the key: a shell sequence or a chord
is played at once, and a decorative key does nothing. -/
def press (view : KeyboardView) (name : String) : List UiCall × Bool :=
  match view.shellSequenceFor name with
  | some sequence => (playSequence sequence, false)
  | none =>
    match view.chordFor name with
    | some chord => (playChord chord, false)
    | none => if view.isActionable name then ([.keyPressed name], true) else ([], false)

end KeyboardView

/-- The key that each pointer button, and the active touch, is holding. -/
structure PointerBridge where
  pointerDown : BTreeMap PointerButton String
  touchDown : Option String

namespace PointerBridge

def new : PointerBridge := ⟨.new, none⟩

/-- Translate one raw surface event into key actions. -/
def handleEvent (b : PointerBridge) (view : KeyboardView) :
    SurfaceEvent ℚ → PointerBridge × List UiCall
  | .pointerPressed x y button =>
    match view.keyAt x y with
    | some name =>
      let r := view.press name
      (if r.2 then { b with pointerDown := b.pointerDown.insert button name } else b, r.1)
    | none => (b, [])
  | .pointerReleased _ _ button =>
    ({ b with pointerDown := b.pointerDown.remove button },
      (b.pointerDown.get button).toList.map .keyReleased)
  | .pointerLeft =>
    ({ b with pointerDown := .new }, b.pointerDown.values.map .keyReleased)
  | .touchPressed x y =>
    if b.touchDown.isNone then
      match view.touchKeyAt x y with
      | some name =>
        let r := view.press name
        (if r.2 then { b with touchDown := some name } else b, r.1)
      | none => (b, [])
    else (b, [])
  | .touchReleased _ _ | .touchCancelled =>
    ({ b with touchDown := none }, b.touchDown.toList.map .keyReleased)
  | .pointerMoved _ _ | .touchMoved _ _ | .resized _ _ | .closeRequested => (b, [])

end PointerBridge

/-- What can hold a key: a pointer button, or the touch. -/
inductive Source where
  | button (b : PointerButton)
  | touch
  deriving DecidableEq, Repr

def PointerBridge.heldBy (b : PointerBridge) : Source → Option String
  | .button button => b.pointerDown.get button
  | .touch => b.touchDown

/-- The sources whose keys an event is about. -/
def Source.concernedBy : Source → SurfaceEvent ℚ → Bool
  | .button b, .pointerPressed _ _ b' | .button b, .pointerReleased _ _ b' => decide (b = b')
  | .button _, .pointerLeft => true
  | .touch, .touchPressed _ _ | .touch, .touchReleased _ _ | .touch, .touchCancelled => true
  | _, _ => false

/-- The event lifts the source. -/
def Source.LiftedBy : Source → SurfaceEvent ℚ → Prop
  | .button b, .pointerReleased _ _ b' => b = b'
  | .touch, .touchReleased _ _ => True
  | _, _ => False

/-- The key that a press of a pointer button holds, at a point. -/
def KeyboardView.heldAt (view : KeyboardView) (x y : ℚ) : Option String :=
  (view.keyAt x y).filter fun name => (view.press name).2

section Press

variable (view : KeyboardView) (held : Set String)

theorem leaves_playSequence (sequence : List (List String)) :
    leaves held ((playSequence sequence).map UiCall.stroke) ⊆ held := by
  induction sequence generalizing held with
  | nil => exact Set.Subset.refl held
  | cons chord chords ih =>
    rw [playSequence, List.flatMap_cons, List.map_append, leaves_append]
    apply (ih _).trans
    rw [playChord, List.map_append, List.map_map, List.map_map]
    exact leaves_chord_subset held chord

/-- A press leaves its key down only if it holds it, and nothing more. -/
theorem mem_leaves_press {name key : String}
    (h : key ∈ leaves held ((view.press name).1.map UiCall.stroke)) :
    key ∈ held ∨ ((view.press name).2 = true ∧ key = name) := by
  unfold KeyboardView.press at h ⊢
  split at h
  · exact Or.inl (leaves_playSequence held _ h)
  split at h
  · next chord _ =>
    have hchord := leaves_playSequence held [chord]
    rw [playSequence, List.flatMap_singleton] at hchord
    exact Or.inl (hchord h)
  · by_cases hact : view.isActionable name = true
    · rw [if_pos hact] at h ⊢
      rcases h with rfl | h
      · exact Or.inr ⟨rfl, rfl⟩
      · exact Or.inl h
    · rw [if_neg hact] at h
      exact Or.inl h

/-- Releasing every key that is down leaves none down. -/
theorem not_mem_leaves_released {keys : List String} (h : ∀ key ∈ held, key ∈ keys)
    (key : String) : key ∉ leaves held ((keys.map UiCall.keyReleased).map UiCall.stroke) := by
  rw [List.map_map]
  apply not_mem_leaves_ups
  by_cases hk : key ∈ held
  · exact Or.inr (h key hk)
  · exact Or.inl hk

end Press

namespace PointerBridge

variable {b : PointerBridge} {view : KeyboardView} {ev : SurfaceEvent ℚ} {source : Source}

/-- An event leaves the keys of the sources it is not about alone. -/
theorem heldBy_of_not_concerned (h : source.concernedBy ev = false) :
    (b.handleEvent view ev).1.heldBy source = b.heldBy source := by
  cases source with
  | touch =>
    cases ev with
    | pointerPressed x y button =>
      simp only [handleEvent]
      split
      · split <;> rfl
      · rfl
    | touchPressed | touchReleased | touchCancelled => cases h
    | _ => rfl
  | button button =>
    cases ev with
    | pointerPressed x y button' =>
      have hne : button ≠ button' := of_decide_eq_false h
      simp only [handleEvent]
      split
      · split
        · exact BTreeMap.get_insert.trans (if_neg hne)
        · rfl
      · rfl
    | pointerReleased x y button' =>
      have hne : button ≠ button' := of_decide_eq_false h
      exact BTreeMap.get_remove.trans (if_neg hne)
    | pointerLeft => cases h
    | touchPressed x y =>
      simp only [handleEvent]
      split
      · split
        · split <;> rfl
        · rfl
      · rfl
    | _ => rfl

/-- A lifted source gets its key released. -/
theorem keyReleased_of_lifted {key : String} (h : source.LiftedBy ev)
    (hk : b.heldBy source = some key) : .keyReleased key ∈ (b.handleEvent view ev).2 := by
  match source, ev, h with
  | .button _, .pointerReleased _ _ button, rfl =>
    have hget : b.pointerDown.get button = some key := hk
    simp [handleEvent, hget]
  | .touch, .touchReleased _ _, _ =>
    have htouch : b.touchDown = some key := hk
    simp [handleEvent, htouch]

theorem heldBy_of_pointerPressed {pressed : Set String} {x y : ℚ} {button : PointerButton}
    (h : ∀ key ∈ pressed, b.heldBy (.button button) = some key)
    (hone : ∀ held name, b.heldBy (.button button) = some held →
      view.heldAt x y = some name → held = name) :
    let r := b.handleEvent view (.pointerPressed x y button)
    ∀ key ∈ leaves pressed (r.2.map UiCall.stroke), r.1.heldBy (.button button) = some key := by
  simp only [handleEvent]
  cases hat : view.keyAt x y with
  | none => exact h
  | some name =>
    intro key hk
    have hmem := mem_leaves_press view pressed hk
    dsimp only
    cases hp : (view.press name).2 with
    | false =>
      rcases hmem with hm | ⟨hh, -⟩
      · exact h key hm
      · exact absurd (hp.symm.trans hh) Bool.false_ne_true
    | true =>
      rw [if_pos rfl, heldBy, BTreeMap.get_insert, if_pos rfl]
      rcases hmem with hm | ⟨-, rfl⟩
      · have hat' : view.heldAt x y = some name := by simp [KeyboardView.heldAt, hat, hp]
        rw [hone key name (h key hm) hat']
      · rfl

theorem heldBy_of_touchPressed {pressed : Set String} {x y : ℚ}
    (h : ∀ key ∈ pressed, b.heldBy .touch = some key) :
    let r := b.handleEvent view (.touchPressed x y)
    ∀ key ∈ leaves pressed (r.2.map UiCall.stroke), r.1.heldBy .touch = some key := by
  simp only [handleEvent]
  cases ht : b.touchDown with
  | some name => simpa [ht, heldBy] using h
  | none =>
    have hnone : ∀ key, key ∉ pressed := by
      intro key hk
      have hkey := h key hk
      rw [heldBy, ht] at hkey
      cases hkey
    cases hat : view.touchKeyAt x y with
    | none => exact fun key hk => absurd hk (hnone key)
    | some name =>
      intro key hk
      rcases mem_leaves_press view pressed hk with hm | ⟨hh, rfl⟩
      · exact absurd hm (hnone key)
      · simp [heldBy, hh]

/-- The keys that a source has down are known to the bridge, as long as the source is not
pressed on another key than the one it holds. -/
theorem heldBy_of_mem_leaves {pressed : Set String} (h : ∀ key ∈ pressed, b.heldBy source = some key)
    (hc : source.concernedBy ev = true)
    (hone : ∀ x y button held name, ev = .pointerPressed x y button →
      b.heldBy (.button button) = some held → view.heldAt x y = some name → held = name) :
    ∀ key ∈ leaves pressed ((b.handleEvent view ev).2.map UiCall.stroke),
      (b.handleEvent view ev).1.heldBy source = some key := by
  match source, ev, hc with
  | .button button, .pointerPressed x y button', hc =>
    obtain rfl : button = button' := of_decide_eq_true hc
    exact heldBy_of_pointerPressed h fun held name => hone x y button held name rfl
  | .touch, .touchPressed x y, _ => exact heldBy_of_touchPressed h
  | .button button, .pointerReleased x y button', hc =>
    obtain rfl : button = button' := of_decide_eq_true hc
    intro key hk
    refine absurd hk (not_mem_leaves_released pressed ?_ key)
    exact fun key hk => Option.mem_toList.mpr (h key hk)
  | .button button, .pointerLeft, _ =>
    intro key hk
    refine absurd hk (not_mem_leaves_released pressed ?_ key)
    exact fun key hk => BTreeMap.mem_values.mpr ⟨button, h key hk⟩
  | .touch, .touchReleased _ _, _ | .touch, .touchCancelled, _ =>
    intro key hk
    refine absurd hk (not_mem_leaves_released pressed ?_ key)
    exact fun key hk => Option.mem_toList.mpr (h key hk)

end PointerBridge

end Ferrokey.App
