import Ferrokey.App.Pointer
import Ferrokey.Machine.Runs

/-! # Who holds a key

A button and the touch can hold the same key. The bridge records a holder for each of
them and calls the interface at every press and every release, so a key that two of
them hold goes up when the first one lets go. A button that is pressed on a second key
forgets the first, which then stays down.
-/

namespace Ferrokey.App

open Machine Surface

/-- No event presses a shell sequence or a chord: a pressed key is held or does nothing. -/
def KeyboardView.PlainFor (view : KeyboardView) (name : String) : Prop :=
  view.shellSequenceFor name = none ∧ view.chordFor name = none

/-- The key that a touch holds, at a point. -/
def KeyboardView.touchHeldAt (view : KeyboardView) (x y : ℚ) : Option String :=
  (view.touchKeyAt x y).filter fun name => (view.press name).2

/-- The bridge, with the keys that were pressed on the interface and not released since. -/
structure WatchedBridge where
  bridge : PointerBridge
  pressed : Set String

namespace WatchedBridge

def new : WatchedBridge := ⟨.new, ∅⟩

def step (w : WatchedBridge) (i : KeyboardView × SurfaceEvent ℚ) : WatchedBridge × List UiCall :=
  let r := w.bridge.handleEvent i.1 i.2
  (⟨r.1, leaves w.pressed (r.2.map UiCall.stroke)⟩, r.2)

/-- The keys that are down are those that a source is recorded to hold. -/
def Owned (w : WatchedBridge) : Prop := w.pressed = holdings w.bridge.heldBy

/-- The event is not on a shell sequence or a chord. -/
def OnPlainKeys (_ : WatchedBridge) (i : KeyboardView × SurfaceEvent ℚ) : Prop :=
  match i.2 with
  | .pointerPressed x y _ => ∀ name, i.1.keyAt x y = some name → i.1.PlainFor name
  | .touchPressed x y => ∀ name, i.1.touchKeyAt x y = some name → i.1.PlainFor name
  | _ => True

/-- What lets go of a key holds it alone, and a button that is pressed on another key than
the one it holds leaves that one to another holder. -/
def KeepsHolders (w : WatchedBridge) (i : KeyboardView × SurfaceEvent ℚ) : Prop :=
  match i.2 with
  | .pointerPressed x y button =>
    ∀ key name, w.bridge.heldBy (.button button) = some key → i.1.heldAt x y = some name →
      key ≠ name → ¬ Alone w.bridge.heldBy (.button button) key
  | .pointerReleased _ _ button =>
    ∀ key, w.bridge.heldBy (.button button) = some key → Alone w.bridge.heldBy (.button button) key
  | .pointerLeft =>
    ∀ button key, w.bridge.heldBy (.button button) = some key → w.bridge.heldBy .touch ≠ some key
  | .touchReleased _ _ | .touchCancelled =>
    ∀ key, w.bridge.heldBy .touch = some key → Alone w.bridge.heldBy .touch key
  | _ => True

end WatchedBridge

theorem KeyboardView.press_of_plain {view : KeyboardView} {name : String}
    (h : view.PlainFor name) :
    (view.press name).1 = (if (view.press name).2 then [.keyPressed name] else []) := by
  obtain ⟨hseq, hchord⟩ := h
  simp only [press, hseq, hchord]
  cases view.isActionable name <;> rfl

namespace PointerBridge

variable {b : PointerBridge} {view : KeyboardView} {x y : ℚ} {button : PointerButton}

theorem pointerPressed_of_plain (button : PointerButton)
    (h : ∀ name, view.keyAt x y = some name → view.PlainFor name) :
    b.handleEvent view (.pointerPressed x y button) =
      match view.heldAt x y with
      | some name =>
        ({ b with pointerDown := b.pointerDown.insert button name }, [.keyPressed name])
      | none => (b, []) := by
  cases hat : view.keyAt x y with
  | none => simp [handleEvent, KeyboardView.heldAt, hat]
  | some name =>
    have hcalls := KeyboardView.press_of_plain (h name hat)
    cases hp : (view.press name).2 with
    | false => simp [handleEvent, KeyboardView.heldAt, Option.filter, hat, hp, hcalls]
    | true => simp [handleEvent, KeyboardView.heldAt, Option.filter, hat, hp, hcalls]

theorem touchPressed_of_plain
    (h : ∀ name, view.touchKeyAt x y = some name → view.PlainFor name) :
    b.handleEvent view (.touchPressed x y) =
      match b.touchDown, view.touchHeldAt x y with
      | none, some name => ({ b with touchDown := some name }, [.keyPressed name])
      | _, _ => (b, []) := by
  cases ht : b.touchDown with
  | some name => simp [handleEvent, ht]
  | none =>
    cases hat : view.touchKeyAt x y with
    | none => simp [handleEvent, KeyboardView.touchHeldAt, ht, hat]
    | some name =>
      have hcalls := KeyboardView.press_of_plain (h name hat)
      cases hp : (view.press name).2 with
      | false =>
        simp [handleEvent, KeyboardView.touchHeldAt, Option.filter, ht, hat, hp, hcalls]
      | true => simp [handleEvent, KeyboardView.touchHeldAt, Option.filter, ht, hat, hp, hcalls]

theorem heldBy_pointerReleased {source : Source} :
    (b.handleEvent view (.pointerReleased x y button)).1.heldBy source =
      if source = .button button then none else b.heldBy source := by
  cases source with
  | touch => rfl
  | button button' =>
    simp only [Source.button.injEq]
    exact BTreeMap.get_remove

end PointerBridge

namespace WatchedBridge

open PointerBridge

variable {w : WatchedBridge} {i : KeyboardView × SurfaceEvent ℚ}

/-- A source presses a key and holds it from then on. -/
theorem owned_of_takes (hw : w.Owned) {r : PointerBridge × List UiCall} (source : Source)
    (name : String) (hcalls : r.2 = [.keyPressed name]) (hs : r.1.heldBy source = some name)
    (ho : ∀ source' ≠ source, r.1.heldBy source' = w.bridge.heldBy source') :
    Owned ⟨r.1, leaves w.pressed (r.2.map UiCall.stroke)⟩ ↔
      ∀ key, w.bridge.heldBy source = some key → key ≠ name →
        ¬ Alone w.bridge.heldBy source key := by
  have hpressed : leaves w.pressed (r.2.map UiCall.stroke) =
      insert name (holdings w.bridge.heldBy) := by
    rw [hcalls, ← hw]
    rfl
  rw [Owned, hpressed]
  exact insert_holdings_iff hs ho

/-- Sources let go of the keys they hold, and the keys are released. -/
theorem owned_of_drops (hw : w.Owned) {r : PointerBridge × List UiCall} (keys : List String)
    (S : Set Source) (hcalls : r.2 = keys.map .keyReleased)
    (hkeys : ∀ key, key ∈ keys ↔ ∃ source ∈ S, w.bridge.heldBy source = some key)
    (hs : ∀ source ∈ S, r.1.heldBy source = none)
    (ho : ∀ source ∉ S, r.1.heldBy source = w.bridge.heldBy source) :
    Owned ⟨r.1, leaves w.pressed (r.2.map UiCall.stroke)⟩ ↔
      ∀ source ∈ S, ∀ key, w.bridge.heldBy source = some key →
        ∀ source' ∉ S, w.bridge.heldBy source' ≠ some key := by
  have hpressed : leaves w.pressed (r.2.map UiCall.stroke) =
      holdings w.bridge.heldBy \ {key | ∃ source ∈ S, w.bridge.heldBy source = some key} := by
    ext key
    rw [hcalls, List.map_map]
    refine mem_leaves_ups.trans ?_
    rw [hw, hkeys]
    rfl
  rw [Owned, hpressed]
  exact sdiff_holdings_iff hs ho

/-- An event that calls nothing and moves no key keeps the owners. -/
theorem owned_of_idle (hw : w.Owned) {r : PointerBridge × List UiCall} (h : r = (w.bridge, [])) :
    Owned ⟨r.1, leaves w.pressed (r.2.map UiCall.stroke)⟩ := by
  rw [h]
  exact hw

/-- An event on plain keys keeps the keys that are down owned exactly when no key is let go
of, or forgotten, against its other holders. -/
theorem owned_step_iff (hw : w.Owned) (hplain : w.OnPlainKeys i) :
    (w.step i).1.Owned ↔ w.KeepsHolders i := by
  obtain ⟨view, ev⟩ := i
  cases ev with
  | pointerPressed x y button =>
    have hev := pointerPressed_of_plain (b := w.bridge) button hplain
    cases hat : view.heldAt x y with
    | none =>
      rw [hat] at hev
      refine iff_of_true (owned_of_idle hw hev) fun key name _ hname => ?_
      rw [hat] at hname
      cases hname
    | some name =>
      rw [hat] at hev
      refine (owned_of_takes hw (.button button) name ?_ ?_ ?_).trans ?_
      · rw [hev]
      · rw [hev, heldBy, BTreeMap.get_insert, if_pos rfl]
      · rintro (button' | -) hne
        · have hne' : button' ≠ button := fun he => hne (congrArg Source.button he)
          rw [hev, heldBy, heldBy, BTreeMap.get_insert, if_neg hne']
        · rw [hev]
          rfl
      · constructor
        · rintro h key name' hkey hname' hne
          rw [hat] at hname'
          cases hname'
          exact h key hkey hne
        · intro h key hkey hne
          exact h key name hkey hat hne
  | touchPressed x y =>
    have hev := touchPressed_of_plain (b := w.bridge) hplain
    refine iff_of_true ?_ trivial
    cases ht : w.bridge.touchDown with
    | some key =>
      rw [ht] at hev
      exact owned_of_idle hw hev
    | none =>
      cases hat : view.touchHeldAt x y with
      | none =>
        rw [ht, hat] at hev
        exact owned_of_idle hw hev
      | some name =>
        rw [ht, hat] at hev
        refine (owned_of_takes hw .touch name ?_ ?_ ?_).mpr ?_
        · rw [hev]
        · rw [hev]
          rfl
        · rintro (button | -) hne
          · rw [hev]
            rfl
          · exact absurd rfl hne
        · intro key hkey
          cases ht.symm.trans hkey
  | pointerReleased x y button =>
    refine (owned_of_drops hw (w.bridge.pointerDown.get button).toList
      {.button button} rfl ?_ ?_ ?_).trans ?_
    · intro key
      simp [heldBy, Option.mem_toList]
    · rintro source rfl
      exact heldBy_pointerReleased.trans (if_pos rfl)
    · intro source hne
      exact heldBy_pointerReleased.trans (if_neg hne)
    · constructor
      · intro h key hkey source hne
        exact h _ rfl key hkey source hne
      · rintro h source rfl key hkey source' hne
        exact h key hkey source' hne
  | pointerLeft =>
    refine (owned_of_drops hw w.bridge.pointerDown.values (Set.range Source.button)
      rfl ?_ ?_ ?_).trans ?_
    · intro key
      simp [heldBy, BTreeMap.mem_values]
    · rintro source ⟨button, rfl⟩
      rfl
    · rintro (button | -) hout
      · exact absurd ⟨button, rfl⟩ hout
      · rfl
    · constructor
      · intro h button key hkey
        exact h _ ⟨button, rfl⟩ key hkey .touch (by simp)
      · rintro h source ⟨button, rfl⟩ key hkey (button' | -) hout
        · exact absurd ⟨button', rfl⟩ hout
        · exact h button key hkey
  | touchReleased | touchCancelled =>
    refine (owned_of_drops hw w.bridge.touchDown.toList {.touch} rfl ?_ ?_ ?_).trans ?_
    · intro key
      simp [heldBy, Option.mem_toList]
    · rintro source rfl
      rfl
    · rintro (button | -) hne
      · rfl
      · exact absurd rfl hne
    · constructor
      · intro h key hkey source hne
        exact h _ rfl key hkey source hne
      · rintro h source rfl key hkey source' hne
        exact h key hkey source' hne
  | pointerMoved | touchMoved | resized | closeRequested =>
    exact iff_of_true (owned_of_idle hw rfl) trivial

/-- As long as only plain keys are pressed, the keys that are down are always the recorded
ones exactly when every step leaves the keys to their other holders. -/
theorem always_owned_iff {events : List (KeyboardView × SurfaceEvent ℚ)}
    (hw : Steps step OnPlainKeys new events) :
    Always step Owned new events ↔ Steps step KeepsHolders new events := by
  apply always_iff_steps_within Owned
  · ext key
    constructor
    · intro h
      cases h
    · rintro ⟨source, hkey⟩
      cases source <;> cases hkey
  · exact fun w h => h
  · exact fun w i h hi hc => (owned_step_iff h hi).mpr hc
  · exact fun w i h hi hc ho => hc ((owned_step_iff h hi).mp ho)
  · exact hw

/-- A view that is one key. -/
def singleKey : KeyboardView :=
  ⟨fun _ _ => some "a", fun _ _ => some "a", fun _ => none, fun _ => none, fun _ => true⟩

theorem clickSingleKey_owned :
    let events : List (KeyboardView × SurfaceEvent ℚ) :=
      [(singleKey, .pointerPressed 1 1 .left), (singleKey, .pointerReleased 1 1 .left)]
    Steps step OnPlainKeys new events ∧
      (Always step Owned new events ↔ Steps step KeepsHolders new events) :=
  have hw : Steps step OnPlainKeys new
      [(singleKey, .pointerPressed 1 1 .left), (singleKey, .pointerReleased 1 1 .left)] := by
    simp [OnPlainKeys, KeyboardView.PlainFor, singleKey]
  ⟨hw, always_owned_iff hw⟩

/-- Two buttons press the same key and one of them is let go. -/
theorem twoButtons_not_owned :
    let events : List (KeyboardView × SurfaceEvent ℚ) :=
      [(singleKey, .pointerPressed 1 1 .left), (singleKey, .pointerPressed 1 1 .right),
        (singleKey, .pointerReleased 1 1 .left)]
    Steps step OnPlainKeys new events ∧ ¬ Always step Owned new events := by
  constructor
  · simp [OnPlainKeys, KeyboardView.PlainFor, singleKey]
  · intro h
    have howned := h _ List.prefix_rfl
    have hheld : "a" ∈ holdings (run step new
        [(singleKey, .pointerPressed 1 1 .left), (singleKey, .pointerPressed 1 1 .right),
          (singleKey, .pointerReleased 1 1 .left)]).bridge.heldBy := ⟨.button .right, rfl⟩
    rw [← howned] at hheld
    exact hheld.2 rfl

end WatchedBridge

end Ferrokey.App
