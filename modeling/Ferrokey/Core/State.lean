import Ferrokey.Core.KeySet
import Ferrokey.Core.Modifier
import Ferrokey.Machine.KeyStream
import Ferrokey.Machine.Runs

/-! # The keyboard state machine

`press`, `release` and `releaseAll` decide the key events for the sink from the
keys that are down, the latched and locked modifiers, and two tables: the
modifiers injected for each pressed key, and when each modifier went down. Time
is explicit, in milliseconds.
-/

namespace Ferrokey

open Collections Machine

inductive KeyEvent where
  | down (key : PhysicalKey)
  | up (key : PhysicalKey)
  deriving DecidableEq, Repr

def KeyEvent.stroke : KeyEvent → Stroke PhysicalKey
  | .down key => .down key
  | .up key => .up key

inductive StateError where
  | rollover (limit : ℕ)
  deriving DecidableEq, Repr

def StateError.display : StateError → String
  | .rollover limit => s!"keyboard rollover limit ({limit} simultaneously held keys) exceeded"

inductive Layer where
  | base | shift | altGr | fn
  deriving DecidableEq, Repr

def Layer.fromModifiers (mods : ModifierSet) : Layer :=
  if mods.contains (.ofKind .fn) then .fn
  else if mods.contains (.ofKind .altGr) then .altGr
  else if mods.contains (.ofKind .shift) then .shift
  else .base

/-- Tunable behaviour. The tap timeout is in nanoseconds. -/
structure StateSettings where
  latchEnabled : Bool
  tapTimeout : ℕ
  maxHeldKeys : ℕ
  deriving DecidableEq, Repr

/-- The time between two moments in nanoseconds, zero if the second is the earlier one. -/
def saturatingDurationSince (now earlier : ℕ) : ℕ := (now - earlier) * 1000000

/-- When a modifier went down, and whether another key was pressed while it was held. -/
structure TapTrack where
  downAt : ℕ
  interleaved : Bool
  deriving DecidableEq, Repr

/-- The modifier keys injected for one pressed key, at most one for each kind. -/
structure InjectedMods where
  keys : List PhysicalKey
  deriving DecidableEq, Repr

def InjectedMods.new : InjectedMods := ⟨[]⟩

def InjectedMods.push (injected : InjectedMods) (key : PhysicalKey) : InjectedMods :=
  if injected.keys.length < ModifierKind.count then ⟨injected.keys ++ [key]⟩ else injected

structure KeyboardState where
  settings : StateSettings
  depressed : KeySet
  latched : ModifierSet
  locked : ModifierSet
  capsLock : Bool
  numLock : Bool
  activeLayer : Layer
  injectedMods : SlotTable (PhysicalKey × InjectedMods) maxHeldKeys
  tapTrack : SlotTable (PhysicalKey × TapTrack) maxHeldKeys

namespace KeyboardState

def new (settings : StateSettings) : KeyboardState where
  settings := settings
  depressed := .new
  latched := .empty
  locked := .empty
  capsLock := false
  numLock := false
  activeLayer := .base
  injectedMods := .new
  tapTrack := .new

def heldModifiers (s : KeyboardState) : ModifierSet :=
  s.depressed.keys.foldl
    (fun mods key =>
      match key.modifierKind with
      | some kind => mods.insert (.ofKind kind)
      | none => mods) .empty

/-- Modifiers that apply to key presses: held, latched and locked. -/
def effectiveModifiers (s : KeyboardState) : ModifierSet :=
  (s.heldModifiers.union s.latched).union s.locked

def heldCount (s : KeyboardState) : ℕ := s.depressed.len

def updateLayer (s : KeyboardState) : KeyboardState :=
  { s with activeLayer := .fromModifiers s.effectiveModifiers }

/-- Whether a modifier of another kind is held. -/
def othersHeld (s : KeyboardState) (kind : ModifierKind) : Bool :=
  s.depressed.keys.any fun key =>
    match key.modifierKind with
    | some kind' => kind' != kind
    | none => false

/-- Whether a modifier is latched, or locked by other means than the caps-lock mirror. -/
def engaged (s : KeyboardState) (kind : ModifierKind) : Bool :=
  s.latched.contains (.ofKind kind) || (kind != .shift && s.locked.contains (.ofKind kind))

/-- One turn of the injection loop: an engaged modifier that is not held is pressed. -/
def injectKind (s : KeyboardState) (heldMods : ModifierSet)
    (acc : KeySet × InjectedMods × List KeyEvent) (kind : ModifierKind) :
    KeySet × InjectedMods × List KeyEvent :=
  if s.engaged kind && !heldMods.contains (.ofKind kind) then
    let phys := kind.preferredKey
    if !acc.1.contains phys then
      (acc.1.insert phys, acc.2.1.push phys, acc.2.2 ++ [.down phys])
    else acc
  else acc

def inject (s : KeyboardState) : KeySet × InjectedMods × List KeyEvent :=
  ModifierKind.all.foldl (s.injectKind s.heldModifiers) (s.depressed, .new, [])

def pressModifier (s : KeyboardState) (key : PhysicalKey) (kind : ModifierKind) (now : ℕ) :
    KeyboardState × List KeyEvent :=
  ({ s with
    depressed := s.depressed.insert key
    tapTrack := s.tapTrack.push (key, ⟨now, s.othersHeld kind⟩) }, [.down key])

def pressLock (s : KeyboardState) (key : PhysicalKey) : KeyboardState × List KeyEvent :=
  ({ s with depressed := s.depressed.insert key }, [.down key])

/-- Press an ordinary key: modifiers are injected for it, the latch is consumed and every
held modifier becomes part of a chord. -/
def pressNormal (s : KeyboardState) (key : PhysicalKey) : KeyboardState × List KeyEvent :=
  let (depressed, injected, events) := s.inject
  ({ s with
    depressed := depressed.insert key
    injectedMods :=
      if 0 < injected.keys.length then s.injectedMods.push (key, injected) else s.injectedMods
    latched := .empty
    tapTrack := s.tapTrack.update fun entry => (entry.1, { entry.2 with interleaved := true }) },
    events ++ [.down key])

def press (s : KeyboardState) (key : PhysicalKey) (now : ℕ) :
    KeyboardState × Except StateError (List KeyEvent) :=
  if s.depressed.contains key then (s, .ok [])
  else if s.settings.maxHeldKeys ≤ s.depressed.len then
    (s, .error (.rollover s.settings.maxHeldKeys))
  else
    let r := match key.modifierKind with
      | some kind => s.pressModifier key kind now
      | none => if key.isLockKey then s.pressLock key else s.pressNormal key
    (r.1.updateLayer, .ok r.2)

/-- Find and remove the entry of a key in one of the two tables. -/
def takeEntry {β : Type} (t : SlotTable (PhysicalKey × β) maxHeldKeys) (key : PhysicalKey) :
    SlotTable (PhysicalKey × β) maxHeldKeys × Option β :=
  match t.position (·.1 == key) with
  | none => (t, none)
  | some pos => (t.removeAt pos, t.entries[pos]?.map Prod.snd)

def isTap (s : KeyboardState) (track : Option TapTrack) (now : ℕ) : Bool :=
  match track with
  | some t => !t.interleaved &&
      decide (saturatingDurationSince now t.downAt < s.settings.tapTimeout)
  | none => false

/-- A tap disengages an active modifier and latches an idle one. -/
def toggleLatch (s : KeyboardState) (kind : ModifierKind) : KeyboardState :=
  let bit := ModifierSet.ofKind kind
  if s.engaged kind then
    { s with
      latched := s.latched.remove bit
      locked := if kind != .shift then s.locked.remove bit else s.locked }
  else { s with latched := s.latched.insert bit }

def releaseModifier (s : KeyboardState) (key : PhysicalKey) (kind : ModifierKind) (now : ℕ) :
    KeyboardState × List KeyEvent :=
  let r := takeEntry s.tapTrack key
  let s' := { s with tapTrack := r.1, depressed := (s.depressed.remove key).1 }
  (if s.isTap r.2 now && s.settings.latchEnabled then s'.toggleLatch kind else s', [.up key])

def toggleCapsLock (s : KeyboardState) : KeyboardState :=
  let bit := ModifierSet.ofKind .shift
  { s with
    capsLock := !s.capsLock
    locked := if !s.capsLock then s.locked.insert bit else s.locked.remove bit }

/-- Release a lock key: the mirror state is toggled. -/
def releaseLock (s : KeyboardState) (key : PhysicalKey) : KeyboardState × List KeyEvent :=
  let s' := { s with depressed := (s.depressed.remove key).1 }
  (match key with
    | .capsLock => s'.toggleCapsLock
    | .numLock => { s' with numLock := !s'.numLock }
    | _ => s', [.up key])

/-- Release injected modifiers that are still down, in the order they were injected. -/
def releaseInjected (depressed : KeySet) : List PhysicalKey → KeySet × List KeyEvent
  | [] => (depressed, [])
  | key :: keys =>
    let r := depressed.remove key
    let rest := releaseInjected r.1 keys
    (rest.1, if r.2 then .up key :: rest.2 else rest.2)

/-- Release an ordinary key and the modifiers that were injected for it. -/
def releaseNormal (s : KeyboardState) (key : PhysicalKey) : KeyboardState × List KeyEvent :=
  let depressed := (s.depressed.remove key).1
  match takeEntry s.injectedMods key with
  | (_, none) => ({ s with depressed := depressed }, [.up key])
  | (table, some injected) =>
    let r := releaseInjected depressed injected.keys
    ({ s with depressed := r.1, injectedMods := table }, .up key :: r.2)

def release (s : KeyboardState) (key : PhysicalKey) (now : ℕ) :
    KeyboardState × Except StateError (List KeyEvent) :=
  if !s.depressed.contains key then (s, .ok [])
  else
    let r := match key.modifierKind with
      | some kind => s.releaseModifier key kind now
      | none => if key.isLockKey then s.releaseLock key else s.releaseNormal key
    (r.1.updateLayer, .ok r.2)

/-- One turn of a scan: the key at an index, if it is in the snapshot and wanted. -/
def scanTurn (keys : List PhysicalKey) (n : ℕ) (wanted : PhysicalKey → Bool) (idx : ℕ) :
    List KeyEvent :=
  let key := keys.getD idx .escape
  if idx < n && wanted key then [.up key] else []

/-- A scan of the snapshot from the end of the buffer. -/
def scanUps (keys : List PhysicalKey) (n : ℕ) (wanted : PhysicalKey → Bool) : List KeyEvent :=
  (List.range maxHeldKeys).flatMap fun i => scanTurn keys n wanted (maxHeldKeys - 1 - i)

/-- Release every depressed key, the modifiers last. Locks persist. -/
def releaseAll (s : KeyboardState) : KeyboardState × List KeyEvent :=
  let snapshot := s.depressed.copyInto (List.replicate maxHeldKeys .escape)
  ({ s with
    depressed := s.depressed.clear
    injectedMods := .new
    tapTrack := .new
    latched := .empty }.updateLayer,
    scanUps snapshot.1 snapshot.2 (fun key => !key.isModifier) ++
      scanUps snapshot.1 snapshot.2 fun key => key.isModifier)

section Scans

/-- The turns below an index find the wanted keys there, the last one first. -/
theorem flatMap_scanTurn (keys rest : List PhysicalKey) (wanted : PhysicalKey → Bool) (n : ℕ) :
    (List.range n).reverse.flatMap (scanTurn (keys ++ rest) keys.length wanted) =
      ((keys.take n).reverse.filter wanted).map .up := by
  induction n with
  | zero => rfl
  | succ n ih =>
    rw [List.range_succ, List.reverse_append, List.flatMap_append, ih, List.reverse_singleton,
      List.flatMap_singleton, scanTurn]
    by_cases hn : n < keys.length
    · have hkey : (keys ++ rest).getD n .escape = keys[n] := by
        rw [List.getD_eq_getElem?_getD, List.getElem?_append_left hn, List.getElem?_eq_getElem hn,
          Option.getD_some]
      rw [List.take_succ_eq_append_getElem hn, List.reverse_append, hkey, decide_eq_true hn]
      cases hw : wanted keys[n] <;> simp [hw]
    · rw [List.take_of_length_le (not_lt.mp hn), List.take_of_length_le (by omega)]
      simp [hn]

theorem scanUps_eq {keys rest : List PhysicalKey} (h : keys.length ≤ maxHeldKeys)
    (wanted : PhysicalKey → Bool) :
    scanUps (keys ++ rest) keys.length wanted = (keys.reverse.filter wanted).map .up := by
  have hscan := flatMap_scanTurn keys rest wanted maxHeldKeys
  rw [List.take_of_length_le h, List.range_eq_range', List.reverse_range', List.flatMap_map,
    Nat.zero_add] at hscan
  exact hscan

/-- The keys that a release of everything lets go, in order. -/
def releasedKeys (s : KeyboardState) : List PhysicalKey :=
  (s.depressed.keys.reverse.filter fun key => !key.isModifier) ++
    s.depressed.keys.reverse.filter fun key => key.isModifier

/-- The two scans of the snapshot find them. -/
theorem releaseAll_snd (s : KeyboardState) : s.releaseAll.2 = s.releasedKeys.map .up := by
  have hlen : s.depressed.keys.length ≤ maxHeldKeys := by simpa using s.depressed.len_le
  have hsnap : s.depressed.copyInto (List.replicate maxHeldKeys .escape) = _ :=
    KeySet.copyInto_eq (by simpa using s.depressed.len_le)
  rw [releaseAll, hsnap, ← KeySet.length_keys, scanUps_eq hlen, scanUps_eq hlen, releasedKeys,
    List.map_append]

end Scans

section Frames

variable (s : KeyboardState) (key : PhysicalKey) (kind : ModifierKind) (now : ℕ)

@[simp] theorem updateLayer_settings : s.updateLayer.settings = s.settings := rfl

@[simp] theorem updateLayer_depressed : s.updateLayer.depressed = s.depressed := rfl

@[simp] theorem toggleLatch_settings : (s.toggleLatch kind).settings = s.settings := by
  unfold toggleLatch
  dsimp only
  split <;> rfl

@[simp] theorem toggleLatch_depressed : (s.toggleLatch kind).depressed = s.depressed := by
  unfold toggleLatch
  dsimp only
  split <;> rfl

@[simp] theorem releaseModifier_settings :
    (s.releaseModifier key kind now).1.settings = s.settings := by
  unfold releaseModifier
  dsimp only
  split <;> simp

@[simp] theorem releaseModifier_depressed :
    (s.releaseModifier key kind now).1.depressed = (s.depressed.remove key).1 := by
  unfold releaseModifier
  dsimp only
  split <;> simp

@[simp] theorem releaseLock_settings : (s.releaseLock key).1.settings = s.settings := by
  unfold releaseLock
  dsimp only
  split <;> rfl

@[simp] theorem releaseLock_depressed :
    (s.releaseLock key).1.depressed = (s.depressed.remove key).1 := by
  unfold releaseLock
  dsimp only
  split <;> rfl

@[simp] theorem releaseNormal_settings : (s.releaseNormal key).1.settings = s.settings := by
  unfold releaseNormal
  dsimp only
  split <;> rfl

end Frames

end KeyboardState

inductive Call where
  | press (key : PhysicalKey) (now : ℕ)
  | release (key : PhysicalKey) (now : ℕ)
  | releaseAll
  deriving DecidableEq, Repr

def KeyboardState.step (s : KeyboardState) : Call → KeyboardState × Except StateError (List KeyEvent)
  | .press key now => s.press key now
  | .release key now => s.release key now
  | .releaseAll => (s.releaseAll.1, .ok s.releaseAll.2)

/-- The events a call delivers; an error delivers none. -/
def eventsOf : Except StateError (List KeyEvent) → List KeyEvent
  | .ok events => events
  | .error _ => []

end Ferrokey
