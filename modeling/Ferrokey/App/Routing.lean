import Ferrokey.App.Pointer

/-! # Routing the surface events

In terminal mode the main loop sends an event to the terminal pane, to a window
gesture or the close button, or to the pointer bridge. A release is routed by where
it happens and by what is under way, not by what its press did, so a release of a
held key can be taken by something else than the bridge.
-/

namespace Ferrokey.App

open Machine Surface

/-- The top band that drags the window, in logical pixels. -/
def moveBand : ℚ := 22

/-- The bottom-right corner that resizes the window, in physical pixels. -/
def resizeCorner : ℚ := 28

/-- The close button's part of the top band, in logical pixels. -/
def closeBand : ℚ := 30

/-- The saturating conversion of a coordinate to an unsigned integer. -/
def asU32 (y : ℚ) : UInt32 := .ofNat (min y.floor.toNat (UInt32.size - 1))

/-- What the loop finds when an event arrives: the size of the window, the height of the
keyboard in it, the scale of the platform and the view. -/
structure Frame where
  width : UInt32
  height : UInt32
  keyboardHeight : UInt32
  scale : ℚ
  view : KeyboardView

namespace Frame

def inResizeCorner (f : Frame) (x y : ℚ) : Bool :=
  decide (max (f.width.toNat - resizeCorner) 0 ≤ x ∧ max (f.height.toNat - resizeCorner) 0 ≤ y)

/-- Whether a surface event targets the terminal pane, below the keyboard. -/
def eventInTerminalPane (f : Frame) : SurfaceEvent ℚ → Bool
  | .pointerPressed x y _ | .pointerMoved x y | .pointerReleased x y _ =>
    !f.inResizeCorner x y && decide (f.keyboardHeight ≤ asU32 y)
  | .touchPressed _ y | .touchMoved _ y | .touchReleased _ y =>
    decide (f.keyboardHeight ≤ asU32 y)
  | .pointerLeft | .touchCancelled | .resized _ _ | .closeRequested => false

def inMoveBand (f : Frame) (y : ℚ) : Bool := decide (y ≤ moveBand * f.scale)

def inClose (f : Frame) (x y : ℚ) : Bool :=
  !f.inResizeCorner x y && decide (max (f.width.toNat - closeBand * f.scale) 0 ≤ x) &&
    f.inMoveBand y

end Frame

/-- The window gesture under way. Where it grabbed the window decides what the window is
asked to do, not where the events go. -/
inductive WindowGesture where
  | idle | move | resize
  deriving DecidableEq, Repr

structure EventLoop where
  gesture : WindowGesture
  closeArmed : Bool
  closeRequested : Bool
  bridge : PointerBridge

namespace EventLoop

def new : EventLoop := ⟨.idle, false, false, .new⟩

def toBridge (l : EventLoop) (f : Frame) (ev : SurfaceEvent ℚ) : EventLoop × List UiCall :=
  let r := l.bridge.handleEvent f.view ev
  ({ l with bridge := r.1 }, r.2)

/-- One event of the loop in terminal mode. -/
def handle (l : EventLoop) (f : Frame) (ev : SurfaceEvent ℚ) : EventLoop × List UiCall :=
  -- to the terminal's own gesture machine, which presses no keys
  if l.gesture = .idle ∧ f.eventInTerminalPane ev = true then (l, [])
  else
    match ev with
    | .resized _ _ => (l, [])
    | .pointerPressed x y .left =>
      if f.inClose x y then ({ l with closeArmed := true }, [])
      else if !f.inResizeCorner x y && f.inMoveBand y then ({ l with gesture := .move }, [])
      else if f.inResizeCorner x y then ({ l with gesture := .resize }, [])
      else l.toBridge f ev
    | .pointerMoved _ _ => if l.gesture = .idle then l.toBridge f ev else (l, [])
    | .pointerReleased _ _ _ | .touchReleased _ _ =>
      if l.closeArmed then ({ l with closeArmed := false, closeRequested := true }, [])
      else if l.gesture ≠ .idle then ({ l with gesture := .idle }, [])
      else l.toBridge f ev
    | _ => l.toBridge f ev

/-- Whether the pane, a window gesture or the close button takes the event. -/
def takes (l : EventLoop) (f : Frame) (ev : SurfaceEvent ℚ) : Bool :=
  (decide (l.gesture = .idle) && f.eventInTerminalPane ev) ||
    match ev with
    | .resized _ _ => true
    | .pointerPressed x y .left => f.inResizeCorner x y || f.inMoveBand y
    | .pointerMoved _ _ => decide (l.gesture ≠ .idle)
    | .pointerReleased _ _ _ | .touchReleased _ _ => l.closeArmed || decide (l.gesture ≠ .idle)
    | _ => false

variable (l : EventLoop) (f : Frame) (ev : SurfaceEvent ℚ)

/-- The bridge sees exactly the events that nothing else takes. -/
theorem handle_eq : (l.takes f ev = true → (l.handle f ev).1.bridge = l.bridge ∧
      (l.handle f ev).2 = []) ∧ (l.takes f ev = false → l.handle f ev = l.toBridge f ev) := by
  unfold handle takes
  by_cases hpane : l.gesture = .idle ∧ f.eventInTerminalPane ev = true
  · simp [hpane]
  have hpane' : (decide (l.gesture = .idle) && f.eventInTerminalPane ev) = false := by
    simpa using hpane
  rw [if_neg hpane, hpane', Bool.false_or]
  match ev with
  | .resized _ _ => simp
  | .pointerPressed x y .left =>
    cases hc : f.inResizeCorner x y <;> cases hm : f.inMoveBand y <;> simp [Frame.inClose, hc, hm]
    split <;> simp
  | .pointerPressed _ _ .middle | .pointerPressed _ _ .right => simp
  | .pointerMoved _ _ => cases hg : l.gesture <;> simp
  | .pointerReleased _ _ _ | .touchReleased _ _ =>
    cases hc : l.closeArmed <;> cases hg : l.gesture <;> simp
  | .pointerLeft | .touchPressed _ _ | .touchMoved _ _ | .touchCancelled | .closeRequested => simp

end EventLoop

/-- The loop, with the keys that each source has pressed and not released since. -/
structure WatchedLoop where
  loop : EventLoop
  pressed : Source → Set String

namespace WatchedLoop

def new : WatchedLoop := ⟨.new, fun _ => ∅⟩

def step (w : WatchedLoop) (i : Frame × SurfaceEvent ℚ) : WatchedLoop × List UiCall :=
  let r := w.loop.handle i.1 i.2
  (⟨r.1, fun source =>
    if source.concernedBy i.2 then leaves (w.pressed source) (r.2.map UiCall.stroke)
    else w.pressed source⟩, r.2)

/-- When a source is lifted, every key it has pressed and not released since is released. -/
def ReleasesLifted (w : WatchedLoop) (i : Frame × SurfaceEvent ℚ) : Prop :=
  ∀ source : Source, source.LiftedBy i.2 → ∀ key ∈ w.pressed source, .keyReleased key ∈ (w.step i).2

/-- The release of a source that has a key down is not taken from the bridge: no window
gesture is under way, the close button is not armed, and it happens outside the pane. -/
def ReachesBridge (w : WatchedLoop) (i : Frame × SurfaceEvent ℚ) : Prop :=
  ∀ source : Source, source.LiftedBy i.2 → (w.pressed source).Nonempty →
    w.loop.gesture = .idle ∧ w.loop.closeArmed = false ∧ i.1.eventInTerminalPane i.2 = false

/-- No button that holds a key is pressed on another one. -/
def HoldsOne (w : WatchedLoop) (i : Frame × SurfaceEvent ℚ) : Prop :=
  ∀ x y b, i.2 = .pointerPressed x y b → w.loop.takes i.1 i.2 = false →
    ∀ held name, w.loop.bridge.heldBy (.button b) = some held →
      i.1.view.heldAt x y = some name → held = name

/-- The bridge knows every key that is down. -/
def Knows (w : WatchedLoop) : Prop :=
  ∀ source : Source, ∀ key ∈ w.pressed source, w.loop.bridge.heldBy source = some key

variable {w : WatchedLoop} {f : Frame} {ev : SurfaceEvent ℚ} {source : Source}

theorem Knows.step (h : w.Knows) (hw : w.HoldsOne (f, ev)) : (w.step (f, ev)).1.Knows := by
  intro source key hk
  obtain ⟨htaken, hbridge⟩ := EventLoop.handle_eq w.loop f ev
  simp only [WatchedLoop.step] at hk ⊢
  cases ht : w.loop.takes f ev with
  | true =>
    obtain ⟨hb, hcalls⟩ := htaken ht
    rw [hcalls] at hk
    rw [hb]
    exact h source key (by simpa using hk)
  | false =>
    rw [hbridge ht] at hk ⊢
    cases hc : source.concernedBy ev with
    | false =>
      rw [hc] at hk
      exact (PointerBridge.heldBy_of_not_concerned hc).trans (h source key hk)
    | true =>
      rw [hc] at hk
      apply PointerBridge.heldBy_of_mem_leaves (h source) hc _ key hk
      exact fun x y b held name he => hw x y b he ht held name

theorem not_takes_of_lifted (h : source.LiftedBy ev) : w.loop.takes f ev = false ↔
    w.loop.gesture = .idle ∧ w.loop.closeArmed = false ∧ f.eventInTerminalPane ev = false := by
  have htakes : w.loop.takes f ev =
      ((decide (w.loop.gesture = .idle) && f.eventInTerminalPane ev) ||
        (w.loop.closeArmed || decide (w.loop.gesture ≠ .idle))) := by
    match source, ev, h with
    | .button _, .pointerReleased _ _ _, _ => rfl
    | .touch, .touchReleased _ _, _ => rfl
  rw [htakes]
  cases w.loop.gesture <;> cases w.loop.closeArmed <;> simp

/-- A release is honoured by the bridge, and by nothing else that takes it. -/
theorem releasesLifted_iff (h : w.Knows) (i : Frame × SurfaceEvent ℚ) :
    w.ReleasesLifted i ↔ w.ReachesBridge i := by
  obtain ⟨f, ev⟩ := i
  obtain ⟨htaken, hbridge⟩ := EventLoop.handle_eq w.loop f ev
  apply forall₂_congr
  intro source hlift
  rw [← not_takes_of_lifted hlift]
  cases ht : w.loop.takes f ev with
  | true =>
    have hcalls : (w.step (f, ev)).2 = [] := (htaken ht).2
    rw [hcalls]
    constructor
    · rintro hall ⟨key, hk⟩
      exact absurd (hall key hk) List.not_mem_nil
    · intro hno key hk
      cases hno ⟨key, hk⟩
  | false =>
    have hcalls : (w.step (f, ev)).2 = (w.loop.bridge.handleEvent f.view ev).2 :=
      congrArg Prod.snd (hbridge ht)
    rw [hcalls]
    refine iff_of_true (fun key hk => ?_) fun _ => rfl
    exact PointerBridge.keyReleased_of_lifted hlift (h source key hk)

/-- As long as no button that holds a key is pressed on another one, every lifted source
gets its keys released exactly when no such release is taken from the bridge. -/
theorem steps_releasesLifted_iff {events : List (Frame × SurfaceEvent ℚ)}
    (hw : Steps step HoldsOne new events) :
    Steps step ReleasesLifted new events ↔ Steps step ReachesBridge new events := by
  apply steps_iff_within Knows
  · exact fun source key hk => absurd hk (Set.notMem_empty key)
  · exact fun w i h hi => h.step hi
  · exact fun w i h _ => releasesLifted_iff h i
  · exact hw

/-- A window whose keyboard is 300 pixels high, with one key. -/
def oneKey : Frame :=
  ⟨800, 600, 300, 1, ⟨fun _ _ => some "a", fun _ _ => some "a", fun _ => none, fun _ => none,
    fun _ => true⟩⟩

/-- A button presses the key, a finger taps on it, and the button presses it once more and lets
it go. -/
theorem tapWhileHeld_releases :
    let events : List (Frame × SurfaceEvent ℚ) :=
      [(oneKey, .pointerPressed 100 100 .left), (oneKey, .touchPressed 100 100),
        (oneKey, .touchReleased 100 120), (oneKey, .pointerPressed 110 100 .left),
        (oneKey, .pointerReleased 110 100 .left)]
    Steps step HoldsOne new events ∧ Steps step ReachesBridge new events ∧
      (Steps step ReleasesLifted new events ↔ Steps step ReachesBridge new events) := by
  intro events
  have hheld : (run step new (events.take 3)).loop.bridge.heldBy (.button .left) = some "a" := by
    decide +kernel
  have hw : Steps step HoldsOne new events := by
    simp only [events, steps_cons_iff, steps_nil, HoldsOne, and_true]
    refine ⟨?_, by simp, by simp, ?_, by simp⟩
    · rintro x y b ⟨⟩ _ held name ⟨⟩
    · rintro x y b ⟨⟩ _ held name hb ⟨⟩
      exact Option.some.inj (hb.symm.trans hheld)
  refine ⟨hw, ?_, steps_releasesLifted_iff hw⟩
  simp only [events, steps_cons_iff, steps_nil, ReachesBridge, and_true]
  refine ⟨?_, ?_, ?_, ?_, ?_⟩ <;> exact fun _ _ _ => by decide +kernel

/-- A touch presses a key, drifts down into the pane and is lifted there. -/
theorem touchDriftsIntoPane_not_released : ¬ Steps step ReleasesLifted new
    [(oneKey, .touchPressed 100 100), (oneKey, .touchMoved 100 400),
      (oneKey, .touchReleased 100 400)] := by
  intro h
  have hlast := h [(oneKey, .touchPressed 100 100), (oneKey, .touchMoved 100 400)] _
    List.prefix_rfl .touch trivial "a"
  exact absurd (hlast (Or.inl rfl)) (by decide)

end WatchedLoop

end Ferrokey.App
