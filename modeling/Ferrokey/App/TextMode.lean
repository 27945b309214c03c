import Ferrokey.App.Composer
import Ferrokey.App.Typing
import Ferrokey.Terminal.Letters

/-! # Text mode and the desktop

In text mode the character of a key is typed with the layout, under the modifiers that the driver
has in effect. A desktop with the same layout then resolves the keys by what is physically down,
and applies Caps Lock to letters only. The two agree on some keys.
-/

namespace Ferrokey.App

open Layouts Machine Terminal

namespace TextComposer

variable {σ : Type} [KeySink σ]

/-- A key press in text mode. Each text that the composer hands on is typed at its own time. -/
def keyDown (layout : Layouts.Layout) (now : ℕ → ℕ) (engine : ComposeEngine) (d : KeyboardDriver σ)
    (symbol : KeySymbol) (effective : ModifierSet) :
    ComposeEngine × KeyboardDriver σ × Except TextError Composer.TextModeOutcome :=
  Composer.keyDown (fun turn d text =>
    let typed := typeText (fun r c => (r, layout.findChar c effective)) (now turn) d () text
    (typed.1, typed.2.2)) engine d symbol

end TextComposer

/-! ### The desktop -/

section

variable (alphabetic : Char → Bool) (layout : Layouts.Layout) (caps : Bool)

/-- The symbol a desktop resolves a key to while the given keys are down. -/
def desktopSymbol (held : List PhysicalKey) (key : PhysicalKey) : Option KeySymbol :=
  layout.symbolFor key (if caps && primaryIsLetter alphabetic layout key
    then invertShift (.ofKinds (kindIn held)) else .ofKinds (kindIn held))

/-- Named keys type nothing. -/
def isText : KeySymbol → Bool
  | .char _ | .dead _ | .compose => true
  | .none | .name _ => false

/-- The part of a symbol that is read as text. -/
def textOf (symbol : Option KeySymbol) : List KeySymbol := symbol.toList.filter isText

/-- What a desktop reads of some events. -/
def reads : List PhysicalKey → List (Stroke PhysicalKey) → List KeySymbol
  | _, [] => []
  | held, .down key :: strokes =>
    textOf (desktopSymbol alphabetic layout caps held key) ++ reads (key :: held) strokes
  | held, .up key :: strokes => reads (held.filter (· ≠ key)) strokes
  | held, .again key :: strokes =>
    textOf (desktopSymbol alphabetic layout caps held key) ++ reads held strokes

end

variable {alphabetic : Char → Bool} {layout : Layouts.Layout} {caps : Bool}
  {held keys : List PhysicalKey} {key : PhysicalKey} {c : Char}

theorem textOf_eq_char_iff {symbol : Option KeySymbol} :
    textOf symbol = [.char c] ↔ symbol = some (.char c) := by
  cases symbol with
  | none => simp [textOf]
  | some symbol => cases symbol <;> simp [textOf, isText, List.filter_cons]

theorem reads_downs (strokes : List (Stroke PhysicalKey)) :
    reads alphabetic layout caps held (keys.map .down ++ strokes) =
      reads alphabetic layout caps held (keys.map .down) ++
        reads alphabetic layout caps (keys.reverse ++ held) strokes := by
  induction keys generalizing held with
  | nil => rfl
  | cons key keys ih =>
    rw [List.map_cons, List.cons_append, reads, reads, ih, List.append_assoc, List.reverse_cons,
      List.append_assoc, List.singleton_append]

@[simp] theorem reads_ups : reads alphabetic layout caps held (keys.map .up) = [] := by
  induction keys generalizing held with
  | nil => rfl
  | cons key keys ih => exact ih

/-! ### The chord of a character -/

section

variable {s : KeyboardState} {now : ℕ}

theorem eventsOf_press (hup : key ∉ s.depressed)
    (hl : s.depressed.len < s.settings.maxHeldKeys) (now : ℕ) :
    eventsOf (s.press key now).2 = (s.presses key).map .down := by
  have he := s.press_effect key now
  generalize (s.press key now).1 = s' at he
  generalize eventsOf (s.press key now).2 = events at he ⊢
  cases he with
  | quiet hq =>
    rcases hq key now rfl with hin | hfull
    · exact absurd hin hup
    · exact absurd hl (Nat.not_lt.mpr hfull)
  | press => rfl

end

@[simp] theorem deliver_recorder (sink : Recorder) (strokes : List (Stroke PhysicalKey)) :
    deliver sink strokes = (⟨sink.events ++ strokes⟩, .ok ()) := by
  induction strokes generalizing sink with
  | nil => simp [deliver]
  | cons stroke strokes ih =>
    cases stroke <;> simp [deliver, KeySink.take, KeySink.keyDown, KeySink.keyUp,
      KeySink.keyRepeat, ih]

/-- A tap that is not refused emits what its press puts down, and then releases. -/
theorem tap_strokes {d : KeyboardDriver Recorder} (hup : key ∉ d.state.depressed)
    (hl : d.state.depressed.len < d.state.settings.maxHeldKeys) (now : ℕ) :
    (d.step (.action .tap key now)).2 = .ok () ∧ ∃ ups : List PhysicalKey,
      (d.step (.action .tap key now)).1.sink.events =
        d.sink.events ++ ((d.state.presses key).map .down ++ ups.map .up) := by
  have hstrokes := (KeyboardEngine.step_eq d.toKeyboardEngine (.action .tap key now)).2
  constructor
  · have hrefused := fun e => d.step_tap_error_iff key now (e := e)
    simp only [KeyboardState.press_error_iff, hup, Nat.not_le.mpr hl, false_and, and_false,
      iff_false] at hrefused
    unfold KeyboardDriver.step at hrefused ⊢
    split
    next herror => exact absurd (by rw [herror]) (hrefused _)
    next => rw [deliver_recorder]; rfl
  · obtain ⟨ups, hups, -⟩ :=
      KeyboardEngine.release_events (d.state.press key now).1 key (addDuration now tapGrace)
    refine ⟨ups, ?_⟩
    rw [KeyboardDriver.step_sink, hstrokes, deliver_recorder]
    simp [DriverCall.calls, streamOf, outputs, KeyboardEngine.due, KeyboardState.step,
      eventsOf_press hup hl, hups, Function.comp_def, KeyEvent.stroke]

/-- A tap that is refused emits nothing. -/
theorem tap_refused {d : KeyboardDriver Recorder} (hup : key ∉ d.state.depressed)
    (hfull : d.state.settings.maxHeldKeys ≤ d.state.depressed.len) (now : ℕ) :
    (d.step (.action .tap key now)).2 =
        .error (.state (.rollover d.state.settings.maxHeldKeys)) ∧
      (d.step (.action .tap key now)).1.sink = d.sink := by
  have hpress := KeyboardState.press_full hup hfull now
  refine ⟨(d.step_tap_error_iff key now).mpr (by rw [hpress]), ?_⟩
  have hstrokes := (KeyboardEngine.step_eq d.toKeyboardEngine (.action .tap key now)).2
  rw [KeyboardDriver.step_sink, hstrokes, deliver_recorder]
  simp [DriverCall.calls, streamOf, outputs, KeyboardEngine.due, KeyboardState.step, hpress,
    KeyboardState.release_absent hup, eventsOf]

/-! ### What the desktop makes of it -/

/-- The modifier keys that go down for the latches, before a key. -/
def latchKeys (s : KeyboardState) (key : PhysicalKey) : List PhysicalKey :=
  if key.isOrdinary then extraKeys s.latched else []

/-- The desktop has the character on the key. For an ordinary key Caps Lock has to be off, or to
act on the key like the Shift that the driver takes it for, or to make no difference. For any other
key no latch is injected. -/
def DesktopHas (alphabetic : Char → Bool) (layout : Layouts.Layout) (s : KeyboardState)
    (key : PhysicalKey) (c : Char) : Prop :=
  if key.isOrdinary then
    s.capsLock = false ∨
      primaryIsLetter alphabetic layout key = !s.latched.contains (.ofKind .shift) ∨
      layout.symbolFor key (s.effectiveModifiers.remove (.ofKind .shift)) = some (.char c)
  else
    layout.symbolFor key (if s.capsLock && primaryIsLetter alphabetic layout key then .shift
      else .empty) = some (.char c)

section

variable {s : KeyboardState}

theorem contains_heldModifiers_of_up (hup : ∀ key, key ∉ s.depressed) (kind : ModifierKind) :
    s.heldModifiers.contains (.ofKind kind) = false := by
  rw [Bool.eq_false_iff]
  intro h
  obtain ⟨key, hd, -⟩ := KeyboardState.heldModifiers_contains_iff.mp h
  exact hup key hd

theorem presses_of_up (h : s.LocksMirror) (hup : ∀ key, key ∉ s.depressed) (key : PhysicalKey) :
    s.presses key = latchKeys s key ++ [key] := by
  have hinjections : s.injections = extraKeys s.latched := by
    rw [KeyboardState.injections, KeyboardState.wanted, extraKeys, ModifierSet.iter]
    refine congrArg _ (List.filter_congr fun kind _ => ?_)
    rw [contains_heldModifiers_of_up hup, Bool.not_false, Bool.and_true, Bool.eq_iff_iff]
    exact KeyboardState.engaged_iff h
  rw [KeyboardState.presses, latchKeys, hinjections]
  split <;> rfl

/-- The driver takes Caps Lock for a Shift. -/
theorem contains_effectiveModifiers (h : s.LocksMirror) (hup : ∀ key, key ∉ s.depressed)
    (kind : ModifierKind) : s.effectiveModifiers.contains (.ofKind kind) =
      (s.latched.contains (.ofKind kind) || (s.capsLock && kind == .shift)) := by
  rw [KeyboardState.effectiveModifiers, ModifierSet.contains_union, ModifierSet.contains_union,
    contains_heldModifiers_of_up hup, Bool.false_or, h]
  cases s.capsLock <;> cases kind <;> rfl

theorem kindIn_extraKeys (mods : ModifierSet) (kind : ModifierKind) :
    kindIn (extraKeys mods).reverse kind = mods.contains (.ofKind kind) := by
  rw [Bool.eq_iff_iff, kindIn_iff]
  constructor
  · rintro ⟨key, hm, hkind⟩
    obtain ⟨kind', hk, rfl⟩ := List.mem_map.mp (List.mem_reverse.mp hm)
    rw [ModifierKind.modifierKind_preferredKey, Option.some.injEq] at hkind
    exact hkind ▸ (List.mem_filter.mp hk).2
  · intro hc
    have hall : kind ∈ ModifierKind.all := by cases kind <;> decide
    exact ⟨kind.preferredKey, List.mem_reverse.mpr (List.mem_map.mpr
      ⟨kind, List.mem_filter.mpr ⟨hall, hc⟩, rfl⟩), kind.modifierKind_preferredKey⟩

theorem contains_invertShift_self (mods : ModifierSet) :
    (invertShift mods).contains (.ofKind .shift) = !mods.contains (.ofKind .shift) := by
  unfold invertShift
  split
  next h => rw [ModifierSet.contains_remove_self, h]; rfl
  next h => rw [ModifierSet.contains_insert_self, Bool.eq_false_iff.mpr h]; rfl

/-- Under the latches that are injected, the desktop takes the key on the driver's level, except
that it may leave the Shift out that stands for Caps Lock. -/
theorem desktopSymbol_latched (h : s.LocksMirror) (hup : ∀ key, key ∉ s.depressed) :
    desktopSymbol alphabetic layout s.capsLock (extraKeys s.latched).reverse key =
      layout.symbolFor key (if s.capsLock = false ∨
          primaryIsLetter alphabetic layout key = !s.latched.contains (.ofKind .shift)
        then s.effectiveModifiers else s.effectiveModifiers.remove (.ofKind .shift)) := by
  rw [desktopSymbol]
  refine Layout.symbolFor_congr fun kind => ?_
  have hheld := ModifierSet.contains_ofKinds (kindIn (extraKeys s.latched).reverse)
  have heffective := contains_effectiveModifiers h hup
  simp only [kindIn_extraKeys] at hheld
  have hshift := contains_invertShift_self (.ofKinds (kindIn (extraKeys s.latched).reverse))
  by_cases hkind : kind = .shift
  · subst hkind
    cases hcaps : s.capsLock <;> cases hletter : primaryIsLetter alphabetic layout key <;>
      cases hlatched : s.latched.contains (.ofKind .shift) <;>
      simp [hheld, heffective, hshift, hcaps, hlatched, ModifierSet.contains_remove_self]
  · have hother : (kind == .shift) = false := by simpa using hkind
    have hinverted : (invertShift (.ofKinds (kindIn (extraKeys s.latched).reverse))).contains
        (.ofKind kind) = _ := contains_invertShift hkind
    have hremoved := ModifierSet.contains_remove_of_ne s.effectiveModifiers (Ne.symm hkind)
    split <;> split <;> simp [hheld, heffective, hinverted, hremoved, hother]

/-- The desktop resolves the key to the character exactly if it has it there. -/
theorem desktopSymbol_eq_iff (h : s.LocksMirror) (hup : ∀ key, key ∉ s.depressed)
    (hc : layout.symbolFor key s.effectiveModifiers = some (.char c)) :
    desktopSymbol alphabetic layout s.capsLock (latchKeys s key).reverse key = some (.char c) ↔
      DesktopHas alphabetic layout s key c := by
  unfold latchKeys DesktopHas
  split
  next =>
    rw [desktopSymbol_latched h hup]
    split
    next hlevel => exact iff_of_true hc (hlevel.imp_right .inl)
    next hlevel =>
      obtain ⟨hon, hletter⟩ := not_or.mp hlevel
      rw [or_iff_right hon, or_iff_right hletter]
  next => rfl

/-- What is read of a chord: what the latches type, and then the key. -/
theorem reads_chord (h : s.LocksMirror) (hup : ∀ key, key ∉ s.depressed) (ups : List PhysicalKey) :
    reads alphabetic layout s.capsLock [] ((s.presses key).map .down ++ ups.map .up) =
      reads alphabetic layout s.capsLock [] ((latchKeys s key).map .down) ++
        textOf (desktopSymbol alphabetic layout s.capsLock (latchKeys s key).reverse key) := by
  rw [presses_of_up h hup, List.map_append, List.append_assoc, reads_downs, List.append_nil,
    List.map_singleton, List.singleton_append, reads, reads_ups, List.append_nil]

end

/-! ### A key press -/

/-- A character that some key has under the modifiers in effect is found on such a key, and no
modifier is added. -/
theorem findChar_of_has {active : ModifierSet} (h : layout.symbolFor key active = some (.char c)) :
    ∃ key', layout.findChar c active = some (key', .empty) ∧
      layout.symbolFor key' active = some (.char c) := by
  cases hfind : layout.findChar c active with
  | none =>
    have hbase := Layouts.Layout.findChar_eq_none_iff.mp hfind .empty List.mem_cons_self
    rw [ModifierSet.union_empty] at hbase
    exact absurd h (Layouts.Layout.producer_eq_none_iff.mp hbase key)
  | some found =>
    obtain ⟨key', mods⟩ := found
    obtain ⟨hproducer, rfl | ⟨hbase, -⟩⟩ := Layouts.Layout.findChar_eq_some hfind
    · rw [ModifierSet.union_empty] at hproducer
      exact ⟨key', rfl, Layouts.Layout.symbolFor_of_producer hproducer⟩
    · rw [ModifierSet.union_empty] at hbase
      exact absurd h (Layouts.Layout.producer_eq_none_iff.mp hbase key)

variable {σ : Type} [KeySink σ]

/-- With nothing pending, a character is one tap. -/
theorem keyDown_char {d : KeyboardDriver σ} {engine : ComposeEngine} {effective : ModifierSet}
    (now : ℕ → ℕ) (hidle : engine.pending = none)
    (hfind : layout.findChar c effective = some (key, .empty)) :
    (TextComposer.keyDown layout now engine d (.char c) effective).2 =
      ((d.step (.action .tap key (now 0))).1, match (d.step (.action .tap key (now 0))).2 with
        | .ok () => .ok .handled
        | .error e => .error (.backend e.display)) := by
  obtain ⟨pending⟩ := engine
  cases hidle
  have hempty : extraKeys .empty = [] := rfl
  simp only [TextComposer.keyDown, Composer.keyDown, Composer.turns, ComposeEngine.feed,
    Composer.finish, typeText, hfind, typeChord, hempty, actAll, List.reverse_nil,
    KeyboardDriver.handleAction]
  cases d.step (.action .tap key (now 0)) with
  | mk d' result => cases result <;> rfl

/-- The press is reported as unmappable, or the desktop reads the character. -/
def Faithful (alphabetic : Char → Bool) (layout : Layouts.Layout) (now : ℕ → ℕ)
    (engine : ComposeEngine) (d : KeyboardDriver Recorder) (c : Char) : Prop :=
  let pressed := TextComposer.keyDown layout now engine d (.char c) d.state.effectiveModifiers
  (∃ c', pressed.2.2 = .error (.unmappable c')) ∨
    ∃ strokes, pressed.2.1.sink.events = d.sink.events ++ strokes ∧
      reads alphabetic layout d.state.capsLock [] strokes = [.char c]

/-- In every driver that is reached and has no key down, the press of a key with a character is
faithful exactly if the cap is not zero and the desktop has the character on the key that is found
for it, while the latches type nothing. (Or they type the character, and the key types nothing.) -/
theorem faithful_iff (alphabetic : Char → Bool) (layout : Layouts.Layout)
    (settings : StateSettings) (repeatSettings : RepeatSettings) (calls : List DriverCall)
    {d : KeyboardDriver Recorder}
    (hd : run KeyboardDriver.step (.new settings repeatSettings layout.driverLayout ⟨[]⟩) calls = d)
    (hup : ∀ key, key ∉ d.state.depressed) (now : ℕ → ℕ) {engine : ComposeEngine}
    (hidle : engine.pending = none)
    (hc : layout.symbolFor key d.state.effectiveModifiers = some (.char c)) :
    ∃ key', layout.findChar c d.state.effectiveModifiers = some (key', .empty) ∧
      (Faithful alphabetic layout now engine d c ↔
        0 < settings.maxHeldKeys ∧
          (reads alphabetic layout d.state.capsLock [] ((latchKeys d.state key').map .down) = [] ∧
              DesktopHas alphabetic layout d.state key' c ∨
            reads alphabetic layout d.state.capsLock [] ((latchKeys d.state key').map .down) =
                [.char c] ∧
              textOf (desktopSymbol alphabetic layout d.state.capsLock
                (latchKeys d.state key').reverse key') = [])) := by
  obtain ⟨key', hfind, hhas⟩ := findChar_of_has hc
  refine ⟨key', hfind, ?_⟩
  have hlocks : d.state.LocksMirror := by
    rw [← hd, KeyboardDriver.run_state]
    exact KeyboardState.locksMirror_run settings _
  have hcap : d.state.settings.maxHeldKeys = settings.maxHeldKeys := by
    rw [← hd, KeyboardDriver.run_settings]
    rfl
  have hlen : d.state.depressed.len = 0 := by
    rw [← KeySet.length_keys, List.eq_nil_iff_forall_not_mem.mpr fun held hm =>
      hup held (KeySet.mem_def.mpr hm), List.length_nil]
  have hpress := keyDown_char (d := d) now hidle hfind
  dsimp only [Faithful]
  rw [hpress]
  rcases Nat.eq_zero_or_pos settings.maxHeldKeys with hzero | hpos
  · obtain ⟨hresult, hsink⟩ := tap_refused (hup key') (by omega) (now 0)
    rw [hresult, hsink]
    refine iff_of_false ?_ (by omega)
    rintro (⟨c', herror⟩ | ⟨strokes, hevents, hread⟩)
    · cases herror
    · rw [List.self_eq_append_right.mp hevents] at hread
      cases hread
  · obtain ⟨hresult, ups, hsink⟩ := tap_strokes (hup key') (by omega) (now 0)
    rw [hresult, hsink]
    simp only [reduceCtorEq, exists_false, false_or, List.append_cancel_left_eq, exists_eq_left',
      hpos, true_and]
    rw [reads_chord hlocks hup, List.append_eq_singleton_iff, textOf_eq_char_iff,
      desktopSymbol_eq_iff hlocks hup hhas]

/-- A driver whose Caps Lock has been tapped. -/
def capsDriver (layout : Layouts.Layout) : KeyboardDriver Recorder :=
  run KeyboardDriver.step
    (.new ⟨true, 400000000, 16⟩ ⟨true, 500000000, 30000000⟩ layout.driverLayout ⟨[]⟩)
    [.action .tap .capsLock 0]

/-- Two keys of a US layout. -/
def usKeys : Layouts.Layout where
  entries := [(.a, ⟨⟨true⟩, .char 'a', .char 'A', none, none, none⟩),
    (.d1, ⟨⟨true⟩, .char '1', .char '!', none, none, none⟩)]
  nodup := by decide

theorem capsDriver_up (key : PhysicalKey) : key ∉ (capsDriver usKeys).state.depressed := by
  have hnone : (capsDriver usKeys).state.depressed.keys = [] := by decide +kernel
  rw [KeySet.mem_def, hnone]
  exact List.not_mem_nil

/-- Under Caps Lock a letter is read as the capital that its key shows. -/
theorem capsLetter_faithful :
    Faithful Char.isAlpha usKeys (fun _ => 100) ⟨none⟩ (capsDriver usKeys) 'A' := by
  have hshown : usKeys.symbolFor .a (capsDriver usKeys).state.effectiveModifiers =
      some (.char 'A') := by decide +kernel
  have hidle : (⟨none⟩ : ComposeEngine).pending = none := rfl
  obtain ⟨key', hfind, hiff⟩ :=
    faithful_iff Char.isAlpha usKeys _ _ _ rfl capsDriver_up (fun _ => 100) hidle hshown
  have hfound : usKeys.findChar 'A' (capsDriver usKeys).state.effectiveModifiers =
      some (.a, .empty) := by decide +kernel
  obtain rfl : key' = .a := by simpa using hfind.symm.trans hfound
  exact hiff.mpr ⟨by decide, .inl ⟨by decide +kernel, .inr (.inl (by decide +kernel))⟩⟩

/-- The digit shows an exclamation mark under Caps Lock, and the desktop reads the digit. -/
theorem capsDigit_not_faithful :
    usKeys.symbolFor .d1 (capsDriver usKeys).state.effectiveModifiers = some (.char '!') ∧
      ¬ Faithful Char.isAlpha usKeys (fun _ => 100) ⟨none⟩ (capsDriver usKeys) '!' := by
  refine ⟨by decide +kernel, ?_⟩
  have hresult : (TextComposer.keyDown usKeys (fun _ => 100) ⟨none⟩ (capsDriver usKeys) (.char '!')
      (capsDriver usKeys).state.effectiveModifiers).2.2 = .ok .handled := by decide +kernel
  have hevents : (TextComposer.keyDown usKeys (fun _ => 100) ⟨none⟩ (capsDriver usKeys) (.char '!')
      (capsDriver usKeys).state.effectiveModifiers).2.1.sink.events =
        (capsDriver usKeys).sink.events ++ [.down .d1, .up .d1] := by decide +kernel
  have hread : reads Char.isAlpha usKeys (capsDriver usKeys).state.capsLock []
      [.down .d1, .up .d1] = [.char '1'] := by decide +kernel
  dsimp only [Faithful]
  rw [hresult, hevents]
  rintro (⟨c', herror⟩ | ⟨strokes, hstrokes, hsame⟩)
  · cases herror
  · rw [← List.append_cancel_left hstrokes, hread] at hsame
    exact absurd hsame (by decide)

end Ferrokey.App
