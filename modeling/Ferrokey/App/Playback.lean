import Ferrokey.App.Pointer
import Ferrokey.Core.Chord
import Ferrokey.Terminal.Encoder
import Ferrokey.Terminal.Mirror
import Ferrokey.Terminal.Shell

/-! # Playing the shell row

A key of the shell row plays a sequence of press-groups. Every group is pressed and released in
full before the next one starts, through the state machine and into the terminal sink. The
ordinary key of a group comes last, so none of its modifiers counts as tapped, and nothing is
latched for the next group.
-/

namespace Ferrokey.App.ShellRow

open Machine Terminal

/-- Distinct modifiers and then one key that is neither a modifier nor a lock. -/
structure PressGroup where
  mods : List PhysicalKey
  key : PhysicalKey
  modifiers : ∀ mod ∈ mods, mod.isModifier = true
  nodup : mods.Nodup
  ordinary : key.isOrdinary = true

namespace PressGroup

def keys (g : PressGroup) : List PhysicalKey := g.mods ++ [g.key]

/-- What playing the group makes the sink send: one chunk of bytes, or nothing. -/
def chunks (layout : Layouts.Layout) (g : PressGroup) : List (List UInt8) :=
  (encode layout g.key (.ofKinds (kindIn g.mods)) .default).toList

end PressGroup

/-- Press the keys of a group in order and release them in reverse. -/
def playGroup (group : List PhysicalKey) : List (KeyAction × PhysicalKey) :=
  group.map (.down, ·) ++ group.reverse.map (.up, ·)

def playSequence (sequence : List (List PhysicalKey)) : List (KeyAction × PhysicalKey) :=
  sequence.flatMap playGroup

/-- What the bridge calls for an action with a key of that name. -/
def uiCall (name : PhysicalKey → String) : KeyAction × PhysicalKey → UiCall
  | (.down, key) => .keyPressed (name key)
  | (_, key) => .keyReleased (name key)

/-- These are the presses and releases of the bridge. -/
theorem playSequence_bridge (name : PhysicalKey → String) (sequence : List (List PhysicalKey)) :
    App.playSequence (sequence.map (List.map name)) =
      (playSequence sequence).map (uiCall name) := by
  rw [App.playSequence, playSequence, List.flatMap_map, List.map_flatMap]
  refine congrArg (sequence.flatMap ·) (funext fun group => ?_)
  simp [playChord, playGroup, uiCall, Function.comp_def]

/-- The calls of some actions, each of them at its own time. -/
def callsAt (times : ℕ → ℕ) (actions : List (KeyAction × PhysicalKey)) : List DriverCall :=
  actions.mapIdx fun i action => .action action.1 action.2 (times i)

theorem callsAt_cons (times : ℕ → ℕ) (action : KeyAction × PhysicalKey)
    (actions : List (KeyAction × PhysicalKey)) : callsAt times (action :: actions) =
      .action action.1 action.2 (times 0) :: callsAt (fun i => times (i + 1)) actions :=
  List.mapIdx_cons

theorem callsAt_append (times : ℕ → ℕ) (actions actions' : List (KeyAction × PhysicalKey)) :
    callsAt times (actions ++ actions') =
      callsAt times actions ++ callsAt (fun i => times (i + actions.length)) actions' :=
  List.mapIdx_append

variable {τ : Type} [TerminalInputSink τ]

/-- The input sink after some chunks of bytes were sent to it. -/
def sendAll (t : τ) (chunks : List (List UInt8)) : τ :=
  chunks.foldl (fun t bytes => (TerminalInputSink.send t bytes).1) t

/-! ### Pressing -/

/-- Nothing is held, latched or locked, neither by the driver nor by its sink, and the terminal's
modes are the default ones. -/
structure Idle (layout : Layouts.Layout) (d : KeyboardDriver (TerminalKeySink TerminalModes τ)) :
    Prop where
  depressed : d.state.depressed.keys = []
  latched : d.state.latched = .empty
  locked : d.state.locked = .empty
  encoder : d.sink.encoder = encoder layout
  modes : d.sink.modes = .default
  heldMods : d.sink.heldMods = .empty
  capsLock : d.sink.capsLock = false

/-- Some modifiers are pressed, and nothing else has happened. -/
structure Pressed (start : KeyboardDriver (TerminalKeySink TerminalModes τ))
    (mods : List PhysicalKey) (d : KeyboardDriver (TerminalKeySink TerminalModes τ)) : Prop where
  mem : ∀ key, key ∈ d.state.depressed ↔ key ∈ mods
  len : d.state.depressed.len = mods.length
  settings : d.state.settings = start.state.settings
  latched : d.state.latched = .empty
  locked : d.state.locked = .empty
  sink : d.sink = { start.sink with heldMods := .ofKinds (kindIn mods) }

variable {layout : Layouts.Layout} {start d : KeyboardDriver (TerminalKeySink TerminalModes τ)}
  {mods : List PhysicalKey} {mod key : PhysicalKey} {now : ℕ}

omit [TerminalInputSink τ] in
theorem Idle.pressed (h : Idle layout d) : Pressed d [] d := by
  have hlen : d.state.depressed.len = 0 := by rw [← KeySet.length_keys, h.depressed]; rfl
  refine ⟨fun key => ?_, hlen, rfl, h.latched, h.locked, ?_⟩
  · rw [KeySet.mem_def, h.depressed]
  · have hmods : ModifierSet.ofKinds (kindIn []) = .empty := rfl
    rw [hmods, ← h.heldMods]

/-- There are nine modifier keys. -/
theorem length_modifiers_le (h : ∀ mod ∈ mods, mod.isModifier = true) (hn : mods.Nodup) :
    mods.length ≤ 9 := by
  have hsub : mods ⊆ [.leftShift, .rightShift, .leftCtrl, .rightCtrl, .leftAlt, .rightAlt,
      .leftMeta, .rightMeta, .menu] := by
    intro mod hm
    have hmod := h mod hm
    revert hmod
    cases mod <;> decide
  exact (hn.subperm hsub).length_le

theorem Pressed.step_modifier (h : Pressed start mods d) (hmod : mod.isModifier = true)
    (hnew : mod ∉ mods) (hroom : mods.length < maxHeldKeys)
    (hcap : mods.length < start.state.settings.maxHeldKeys) (now : ℕ) :
    Pressed start (mods ++ [mod]) (d.step (.action .down mod now)).1 := by
  obtain ⟨kind, hkind⟩ := PhysicalKey.isModifier_iff.mp hmod
  have hup : mod ∉ d.state.depressed := mt (h.mem mod).mp hnew
  obtain ⟨hstate, hsink⟩ := KeyboardDriver.step_down d mod now
  rw [KeyboardState.press_modifier hup (by rw [h.settings, h.len]; exact hcap) now hkind]
    at hstate hsink
  have hlen : d.state.depressed.len < maxHeldKeys := h.len ▸ hroom
  refine ⟨fun key => ?_, ?_, ?_, ?_, ?_, ?_⟩
  · rw [hstate]
    simp [KeyboardState.pressModifier, KeySet.mem_insert hlen, h.mem, or_comm]
  · rw [hstate]
    simp [KeyboardState.pressModifier, KeySet.len_insert hlen hup, h.len]
  · rw [hstate]; exact h.settings
  · rw [hstate]; exact h.latched
  · rw [hstate]; exact h.locked
  · have htake : (KeySink.take d.sink (.down mod)).1 =
        { start.sink with heldMods := .ofKinds (kindIn (mods ++ [mod])) } := by
      simp only [KeySink.take, KeySink.keyDown, TerminalKeySink.keyDown, hkind, h.sink,
        ModifierSet.insert_ofKinds]
      refine congrArg (fun mods => { start.sink with heldMods := .ofKinds mods })
        (funext fun k => ?_)
      simp [kindIn, hkind, Bool.beq_eq_decide_eq, eq_comm]
    rw [hsink, ← htake]
    simp only [eventsOf, List.map_cons, List.map_nil, KeyEvent.stroke, deliver]
    split <;> simp_all

theorem Pressed.run_modifiers (h : Pressed start mods d) (rest : List PhysicalKey)
    (hmods : ∀ mod ∈ mods ++ rest, mod.isModifier = true) (hn : (mods ++ rest).Nodup)
    (hcap : (mods ++ rest).length ≤ start.state.settings.maxHeldKeys) (times : ℕ → ℕ) :
    Pressed start (mods ++ rest)
      (run KeyboardDriver.step d (callsAt times (rest.map (KeyAction.down, ·)))) := by
  induction rest generalizing mods d times with
  | nil => simpa [callsAt] using h
  | cons mod rest ih =>
    have hlen := length_modifiers_le hmods hn
    have hnew : mod ∉ mods := fun hm => by
      obtain ⟨-, -, hdisjoint⟩ := List.nodup_append.mp hn
      exact hdisjoint mod hm mod List.mem_cons_self rfl
    rw [List.length_append, List.length_cons] at hlen hcap
    have hstep := h.step_modifier (hmods mod (by simp)) hnew (by rw [maxHeldKeys]; omega)
      (by omega) (times 0)
    rw [List.map_cons, callsAt_cons, run_cons, List.append_cons]
    rw [List.append_cons] at hmods hn
    exact ih hstep hmods hn (by simp; omega) _

/-! ### Releasing -/

/-- The keys that are still down are to be released. The sink has sent what it sends, and its
modifiers are among those that are down. -/
structure Winding (start : KeyboardDriver (TerminalKeySink TerminalModes τ)) (t : τ)
    (d : KeyboardDriver (TerminalKeySink TerminalModes τ)) : Prop where
  interleaved : d.state.Interleaved
  settings : d.state.settings = start.state.settings
  latched : d.state.latched = .empty
  locked : d.state.locked = .empty
  unlocking : ∀ key ∈ d.state.depressed, key.isLockKey = false
  encoder : d.sink.encoder = start.sink.encoder
  modes : d.sink.modes = start.sink.modes
  capsLock : d.sink.capsLock = start.sink.capsLock
  sent : d.sink.sink = t
  heldMods : ∃ p, d.sink.heldMods = .ofKinds p ∧
    ∀ kind, p kind = true → ∃ key ∈ d.state.depressed, key.modifierKind = some kind

/-- With Caps Lock off, the sink sends an ordinary key under the modifiers that it holds. -/
theorem keyDown_ordinary {t : TerminalKeySink TerminalModes τ} (hkey : key.isOrdinary = true)
    (hencoder : t.encoder = encoder layout) (hmodes : t.modes = .default)
    (hcaps : t.capsLock = false) :
    (t.keyDown key).1.encoder = t.encoder ∧ (t.keyDown key).1.modes = t.modes ∧
      (t.keyDown key).1.capsLock = t.capsLock ∧ (t.keyDown key).1.heldMods = t.heldMods ∧
      (t.keyDown key).1.sink = sendAll t.sink (encode layout key t.heldMods .default).toList := by
  obtain ⟨hkind, hlock⟩ := PhysicalKey.isOrdinary_iff.mp hkey
  simp only [TerminalKeySink.keyDown, hkind, hlock, Bool.false_eq_true, if_false,
    TerminalKeySink.encodeAndSend, TerminalKeySink.effectiveMods, hcaps, Bool.false_and, hencoder,
    hmodes, encoder]
  cases encode layout key t.heldMods .default <;> exact ⟨rfl, rfl, rfl, rfl, rfl⟩

/-- The ordinary key of a group injects nothing, and its bytes are sent. -/
theorem Pressed.step_ordinary (h : Pressed start mods d)
    (hencoder : start.sink.encoder = encoder layout) (hmodes : start.sink.modes = .default)
    (hcaps : start.sink.capsLock = false) (hmods : ∀ mod ∈ mods, mod.isModifier = true)
    (hn : mods.Nodup) (hkey : key.isOrdinary = true)
    (hcap : mods.length < start.state.settings.maxHeldKeys) (now : ℕ) :
    Winding start
        (sendAll start.sink.sink (encode layout key (.ofKinds (kindIn mods)) .default).toList)
        (d.step (.action .down key now)).1 ∧
      ∀ key', key' ∈ (d.step (.action .down key now)).1.state.depressed ↔
        key' ∈ mods ++ [key] := by
  obtain ⟨hkind, hlock⟩ := PhysicalKey.isOrdinary_iff.mp hkey
  have hup : key ∉ d.state.depressed := by
    rw [h.mem]
    intro hm
    obtain ⟨kind, hk⟩ := PhysicalKey.isModifier_iff.mp (hmods key hm)
    rw [hkind] at hk
    cases hk
  have hinjections : d.state.injections = [] := by
    have hengaged : ∀ kind, d.state.engaged kind = false := by
      intro kind
      rw [KeyboardState.engaged, h.latched, h.locked]
      cases kind <;> rfl
    simp [KeyboardState.injections, KeyboardState.wanted, hengaged]
  obtain ⟨hstate, hsink⟩ := KeyboardDriver.step_down d key now
  rw [KeyboardState.press_ordinary hup (by rw [h.settings, h.len]; exact hcap) now hkey]
    at hstate hsink
  have hlen : d.state.depressed.len < maxHeldKeys := by
    have hle := length_modifiers_le hmods hn
    rw [h.len, maxHeldKeys]
    omega
  have hmem : ∀ key', key' ∈ (d.step (.action .down key now)).1.state.depressed ↔
      key' ∈ mods ++ [key] := by
    intro key'
    rw [hstate, KeyboardState.updateLayer_depressed, KeyboardState.pressNormal_eq]
    simp [hinjections, KeySet.insertAll, KeySet.mem_insert hlen, h.mem, or_comm]
  have htake : (d.step (.action .down key now)).1.sink = (d.sink.keyDown key).1 := by
    rw [hsink]
    simp only [hinjections, eventsOf, List.nil_append, List.map_cons, List.map_nil,
      KeyEvent.stroke, deliver, KeySink.take, KeySink.keyDown]
    split <;> simp_all
  have hencoder' : d.sink.encoder = encoder layout := by rw [h.sink, hencoder]
  obtain ⟨henc', hmodes', hcaps', hheld', hsent⟩ := keyDown_ordinary hkey hencoder'
    (by rw [h.sink, hmodes]) (by rw [h.sink, hcaps])
  refine ⟨⟨?_, ?_, ?_, ?_, ?_, ?_, ?_, ?_, ?_, kindIn mods, ?_, ?_⟩, hmem⟩
  · rw [hstate]; exact KeyboardState.interleaved_pressNormal d.state key
  · rw [hstate, KeyboardState.pressNormal_eq]; exact h.settings
  · rw [hstate, KeyboardState.pressNormal_eq]; rfl
  · rw [hstate, KeyboardState.pressNormal_eq]; exact h.locked
  · intro key' hm
    rcases List.mem_append.mp ((hmem key').mp hm) with hm | hm
    · have hmod := hmods key' hm
      revert hmod
      cases key' <;> decide
    · rwa [List.mem_singleton.mp hm]
  · rw [htake, henc', h.sink]
  · rw [htake, hmodes', h.sink]
  · rw [htake, hcaps', h.sink]
  · rw [htake, hsent, h.sink]
  · rw [htake, hheld', h.sink]
  · intro kind hk
    obtain ⟨mod, hm, hmk⟩ := kindIn_iff.mp hk
    exact ⟨mod, (hmem mod).mpr (List.mem_append_left _ hm), hmk⟩

/-- Releases send nothing, and other keys than Caps Lock only change the held modifiers. -/
theorem deliver_ups (t : TerminalKeySink TerminalModes τ) {ups : List PhysicalKey}
    (h : .capsLock ∉ ups) : (deliver t (ups.map .up)).1 =
      { t with heldMods := (ups.map Stroke.up).foldl modsAfter t.heldMods } := by
  induction ups generalizing t with
  | nil => rfl
  | cons key ups ih =>
    obtain ⟨hne, h⟩ := not_or.mp (mt List.mem_cons.mpr h)
    have htake : KeySink.take t (.up key) =
        ({ t with heldMods := modsAfter t.heldMods (.up key) }, .ok ()) := by
      simp only [KeySink.take, KeySink.keyUp, TerminalKeySink.keyUp, modsAfter]
      cases key.modifierKind with
      | some kind => rfl
      | none => rw [if_neg (Ne.symm hne)]
    rw [List.map_cons, deliver, htake]
    exact ih _ h

theorem Winding.step_up {t : τ} (h : Winding start t d) (hlock : key.isLockKey = false) (now : ℕ) :
    Winding start t (d.step (.action .up key now)).1 ∧
      ∀ key' ∈ (d.step (.action .up key now)).1.state.depressed,
        key' ∈ d.state.depressed ∧ key' ≠ key := by
  obtain ⟨hstate, hsink⟩ := KeyboardDriver.step_up d key now
  obtain ⟨ups, hups, -, hmem⟩ := KeyboardEngine.release_events d.state key now
  obtain ⟨hinterleaved, hlatched, hlocked⟩ := h.interleaved.release hlock now
  obtain ⟨p, hp, hheld⟩ := h.heldMods
  have hdown : ∀ key', key' ∈ (d.step (.action .up key now)).1.state.depressed ↔
      key' ∈ d.state.depressed ∧ key' ∉ ups := by
    intro key'
    rw [hstate, KeyboardState.mem_release, hmem]
    tauto
  have hself : key ∈ d.state.depressed → key ∈ ups := fun hk =>
    (hmem key).mpr ⟨hk, hk, by unfold KeyboardState.releases; split <;> simp⟩
  have hcaps : .capsLock ∉ ups := fun hm => by
    have hfree := h.unlocking .capsLock ((hmem _).mp hm).2.1
    cases hfree
  have hmods : (d.step (.action .up key now)).1.sink =
      { d.sink with heldMods := .ofKinds fun kind => p kind && !kindIn ups kind } := by
    rw [hsink, hups, KeyboardState.map_up_stroke, deliver_ups _ hcaps, hp, foldl_ups]
  refine ⟨⟨?_, ?_, ?_, ?_, ?_, ?_, ?_, ?_, ?_, fun kind => p kind && !kindIn ups kind, ?_, ?_⟩,
    fun key' hk' => ?_⟩
  · rwa [hstate]
  · rw [hstate]
    exact (KeyboardState.step_settings d.state (.release key now)).trans h.settings
  · rw [hstate, hlatched, h.latched]
  · rw [hstate, hlocked, h.locked]
  · exact fun key' hk' => h.unlocking key' ((hdown key').mp hk').1
  · rw [hmods]; exact h.encoder
  · rw [hmods]; exact h.modes
  · rw [hmods]; exact h.capsLock
  · rw [hmods]; exact h.sent
  · rw [hmods]
  · intro kind hk
    obtain ⟨hkind, hfree⟩ := Bool.and_eq_true_iff.mp hk
    obtain ⟨key', hd, hmk⟩ := hheld kind hkind
    refine ⟨key', (hdown key').mpr ⟨hd, fun hm => ?_⟩, hmk⟩
    rw [kindIn_iff.mpr ⟨key', hm, hmk⟩] at hfree
    cases hfree
  · obtain ⟨hd, hnot⟩ := (hdown key').mp hk'
    refine ⟨hd, ?_⟩
    rintro rfl
    exact hnot (hself hd)

theorem Winding.run_ups {t : τ} (h : Winding start t d) {keys : List PhysicalKey}
    (hlock : ∀ key ∈ keys, key.isLockKey = false) (times : ℕ → ℕ) :
    Winding start t (run KeyboardDriver.step d (callsAt times (keys.map (KeyAction.up, ·)))) ∧
      ∀ key' ∈ (run KeyboardDriver.step d
          (callsAt times (keys.map (KeyAction.up, ·)))).state.depressed,
        key' ∈ d.state.depressed ∧ key' ∉ keys := by
  induction keys generalizing d times with
  | nil => exact ⟨h, fun key' hk' => ⟨hk', List.not_mem_nil⟩⟩
  | cons key keys ih =>
    obtain ⟨hkey, hlock⟩ := List.forall_mem_cons.mp hlock
    obtain ⟨hstep, hleft⟩ := h.step_up hkey (times 0)
    rw [List.map_cons, callsAt_cons, run_cons]
    obtain ⟨hrun, hrest⟩ := ih hstep hlock fun i => times (i + 1)
    refine ⟨hrun, fun key' hk' => ?_⟩
    obtain ⟨hd, hnot⟩ := hrest key' hk'
    obtain ⟨hd, hne⟩ := hleft key' hd
    exact ⟨hd, by simp [hne, hnot]⟩

/-! ### Groups and sequences -/

/-- A group leaves everything idle again, and its bytes are sent. -/
theorem Idle.run_group (h : Idle layout d) (g : PressGroup)
    (hcap : g.keys.length ≤ d.state.settings.maxHeldKeys) (times : ℕ → ℕ) :
    Idle layout (run KeyboardDriver.step d (callsAt times (playGroup g.keys))) ∧
      (run KeyboardDriver.step d (callsAt times (playGroup g.keys))).state.settings =
        d.state.settings ∧
      (run KeyboardDriver.step d (callsAt times (playGroup g.keys))).sink.sink =
        sendAll d.sink.sink (g.chunks layout) := by
  have hlength : g.keys.length = g.mods.length + 1 := by simp [PressGroup.keys]
  have hlock : ∀ key ∈ g.keys.reverse, key.isLockKey = false := by
    intro key hm
    rcases List.mem_append.mp (List.mem_reverse.mp hm) with hm | hm
    · have hmod := g.modifiers key hm
      revert hmod
      cases key <;> decide
    · rw [List.mem_singleton.mp hm]
      exact (PhysicalKey.isOrdinary_iff.mp g.ordinary).2
  have hpressed := h.pressed.run_modifiers g.mods g.modifiers g.nodup
    (by rw [List.nil_append]; omega) times
  rw [List.nil_append] at hpressed
  obtain ⟨hwinding, hdown⟩ := hpressed.step_ordinary h.encoder h.modes h.capsLock g.modifiers
    g.nodup g.ordinary (by omega) (times g.mods.length)
  obtain ⟨hwound, hleft⟩ := hwinding.run_ups hlock fun i => times (i + (g.mods.length + 1))
  have hcalls : callsAt times (playGroup g.keys) = callsAt times (g.mods.map (KeyAction.down, ·)) ++
      .action .down g.key (times g.mods.length) ::
        callsAt (fun i => times (i + (g.mods.length + 1)))
          (g.keys.reverse.map (KeyAction.up, ·)) := by
    rw [playGroup, PressGroup.keys, List.map_append, List.append_assoc, callsAt_append,
      List.map_singleton, List.singleton_append, callsAt_cons, List.length_map]
    simp only [Nat.zero_add, Nat.add_assoc, Nat.add_comm 1]
  rw [hcalls, run_append, run_cons]
  have hnone : ∀ key, key ∉ (run KeyboardDriver.step _ _).state.depressed := fun key hk => by
    obtain ⟨hd, hnot⟩ := hleft key hk
    exact hnot (List.mem_reverse.mpr ((hdown key).mp hd))
  obtain ⟨p, hp, hheld⟩ := hwound.heldMods
  have hfree : p = fun _ => false := by
    funext kind
    rw [← Bool.not_eq_true]
    intro hk
    obtain ⟨key, hd, -⟩ := hheld kind hk
    exact hnone key hd
  refine ⟨⟨?_, hwound.latched, hwound.locked, ?_, ?_, ?_, ?_⟩, hwound.settings, hwound.sent⟩
  · exact List.eq_nil_iff_forall_not_mem.mpr fun key hk => hnone key (KeySet.mem_def.mpr hk)
  · rw [hwound.encoder, h.encoder]
  · rw [hwound.modes, h.modes]
  · rw [hp, hfree]
    rfl
  · rw [hwound.capsLock, h.capsLock]

/-- The bytes of a group, taken on its own. -/
theorem encodeSequence_cons (layout : Layouts.Layout) (g : PressGroup)
    (sequence : List (List PhysicalKey)) : encodeSequence (encoder layout) (g.keys :: sequence) =
      (g.chunks layout).flatten ++ encodeSequence (encoder layout) sequence := by
  have hkind := (PhysicalKey.isOrdinary_iff.mp g.ordinary).1
  have hheld : groupMods g.keys = .ofKinds (kindIn g.mods) := by
    have hdowns := foldl_downs (fun _ => false) g.mods
    rw [ModifierSet.ofKinds_false, List.foldl_map] at hdowns
    rw [groupMods, PressGroup.keys, List.foldl_append, List.foldl_cons, List.foldl_nil, hkind]
    exact hdowns.trans (by simp)
  have hmods : ∀ mods,
      g.mods.flatMap (fun key => (encode layout key mods .default).getD []) = [] := by
    intro mods
    refine List.flatMap_eq_nil_iff.mpr fun key hm => ?_
    rw [encode, g.modifiers key hm]
    rfl
  rw [encodeSequence, List.flatMap_cons, hheld]
  congr 1
  rw [PressGroup.keys, List.flatMap_append, encoder, hmods, List.nil_append,
    List.flatMap_singleton, PressGroup.chunks]
  change (encode layout g.key (.ofKinds (kindIn g.mods)) .default).getD [] = _
  cases encode layout g.key (.ofKinds (kindIn g.mods)) .default <;> simp

/-- Playing a sequence of groups from idle, at any times, sends exactly the bytes of the sequence,
in chunks, and leaves everything idle again. -/
theorem playSequence_sends (layout : Layouts.Layout) (groups : List PressGroup) (times : ℕ → ℕ)
    {d : KeyboardDriver (TerminalKeySink TerminalModes τ)} (hidle : Idle layout d)
    (hcap : ∀ g ∈ groups, g.keys.length ≤ d.state.settings.maxHeldKeys) :
    (∃ chunks : List (List UInt8),
      chunks.flatten = encodeSequence (encoder layout) (groups.map PressGroup.keys) ∧
      (run KeyboardDriver.step d
        (callsAt times (playSequence (groups.map PressGroup.keys)))).sink.sink =
          sendAll d.sink.sink chunks) ∧
      Idle layout (run KeyboardDriver.step d
        (callsAt times (playSequence (groups.map PressGroup.keys)))) := by
  induction groups generalizing d times with
  | nil => exact ⟨⟨[], rfl, rfl⟩, hidle⟩
  | cons g groups ih =>
    obtain ⟨hg, hcap⟩ := List.forall_mem_cons.mp hcap
    obtain ⟨hnext, hsettings, hsent⟩ := hidle.run_group g hg times
    rw [List.map_cons, playSequence, List.flatMap_cons, callsAt_append, run_append]
    obtain ⟨⟨chunks, hflat, hrest⟩, hend⟩ := ih _ hnext (fun g' hm => hsettings ▸ hcap g' hm)
    refine ⟨⟨g.chunks layout ++ chunks, ?_, ?_⟩, hend⟩
    · rw [List.flatten_append, hflat, encodeSequence_cons]
    · rw [sendAll, List.foldl_append]
      exact hrest.trans (congrArg (sendAll · chunks) hsent)

/-- The prefix of tmux and the key that opens a window. -/
def newWindow : List PressGroup :=
  [⟨[.leftCtrl], .b, by decide, by decide, rfl⟩, ⟨[], .c, by decide, .nil, rfl⟩]

/-- A terminal driver over a layout without keys. -/
def shellDriver : KeyboardDriver (TerminalKeySink TerminalModes Transcript) :=
  .new ⟨true, 400000000, 16⟩ ⟨true, 500000000, 30000000⟩ ⟨fun _ => none⟩
    (.new (encoder ⟨[], .nil⟩) .default ⟨[]⟩)

/-- A playable group is a press-group. -/
theorem exists_pressGroup {group : List PhysicalKey} (h : playable group = true) :
    ∃ g : PressGroup, g.keys = group := by
  unfold playable at h
  split at h
  · cases h
  next key mods hrev =>
    rw [Bool.and_eq_true, Bool.and_eq_true, List.all_eq_true, decide_eq_true_iff] at h
    obtain ⟨⟨hkey, hmods⟩, hnodup⟩ := h
    refine ⟨⟨mods.reverse, key, fun mod hm => hmods mod (List.mem_reverse.mp hm),
      List.nodup_reverse.mpr hnodup, hkey⟩, ?_⟩
    rw [PressGroup.keys, ← List.reverse_cons, ← hrev, List.reverse_reverse]

/-- Every key of a shell row plays press-groups. -/
theorem exists_pressGroups {id : String} {key : ShellRowKey} (hm : key ∈ shellRow id) :
    ∃ groups : List PressGroup, groups.map PressGroup.keys = key.sequence := by
  have hgroups : key.sequence ∈ {l | ∀ group ∈ l, group ∈ Set.range PressGroup.keys} :=
    fun group hg => exists_pressGroup (shellRow_playable id key hm group hg)
  rwa [← Set.range_list_map] at hgroups

/-- The key of the tmux row that opens a window, and all keys of the row of a spawned shell. -/
theorem playSequence_sends_rows :
    newWindow.map PressGroup.keys ∈
      (shellRow (ShellContext.rowId ⟨.bash, .processInspection, true, false⟩)).map
        ShellRowKey.sequence ∧
    encodeSequence (encoder ⟨[], .nil⟩) (newWindow.map PressGroup.keys) = [0x02, 0x63] ∧
    ((∃ chunks : List (List UInt8),
      chunks.flatten = encodeSequence (encoder ⟨[], .nil⟩) (newWindow.map PressGroup.keys) ∧
      (run KeyboardDriver.step shellDriver
        (callsAt id (playSequence (newWindow.map PressGroup.keys)))).sink.sink =
          sendAll ⟨[]⟩ chunks) ∧
      Idle ⟨[], .nil⟩ (run KeyboardDriver.step shellDriver
        (callsAt id (playSequence (newWindow.map PressGroup.keys))))) ∧
    ∀ key ∈ shellRow (ShellContext.fromSpawnedShell "/usr/bin/fish".toList).rowId,
      (∃ chunks : List (List UInt8),
        chunks.flatten = encodeSequence (encoder ⟨[], .nil⟩) key.sequence ∧
        (run KeyboardDriver.step shellDriver
          (callsAt id (playSequence key.sequence))).sink.sink = sendAll ⟨[]⟩ chunks) ∧
      Idle ⟨[], .nil⟩ (run KeyboardDriver.step shellDriver
        (callsAt id (playSequence key.sequence))) := by
  have hidle : Idle ⟨[], .nil⟩ shellDriver := ⟨rfl, rfl, rfl, rfl, rfl, rfl, rfl⟩
  have hlen : ∀ key ∈ shellRow (ShellContext.fromSpawnedShell "/usr/bin/fish".toList).rowId,
      ∀ group ∈ key.sequence, group.length ≤ 16 := by decide
  refine ⟨by decide, by decide, playSequence_sends _ newWindow id hidle (by decide), ?_⟩
  intro key hm
  obtain ⟨groups, hgroups⟩ := exists_pressGroups hm
  rw [← hgroups]
  refine playSequence_sends _ groups id hidle fun g hg => hlen key hm g.keys ?_
  exact hgroups ▸ List.mem_map_of_mem hg

end Ferrokey.App.ShellRow
