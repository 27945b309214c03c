import Ferrokey.Framing.Delimiter
import Ferrokey.Machine.Runs
import Ferrokey.Terminal.Safety

/-! # Pastes

A program that asked for brackets reads a paste up to the first end of brackets, and the
text is not searched for one. A text with line feeds waits for the user; one with other
line terminators does not, and a tap on the paste control looks at nothing else.
-/

set_option linter.dupNamespace false

namespace Ferrokey.Terminal

open Framing Machine Protocol

/-! ### Brackets -/

def openingBracket : Delimiter UInt8 := ⟨0x1B, asBytes "[200~", by decide⟩

def closingBracket : Delimiter UInt8 := ⟨0x1B, asBytes "[201~", by decide⟩

/-- What a program reads of a paste, and what is left for it to read after the paste. -/
def readPaste (bytes : List UInt8) : Option (List UInt8 × List UInt8) :=
  (bytes.dropPrefix? pasteStart).bind closingBracket.split

/-- The end of brackets occurs once, at the end, and the program reads the text. -/
structure Delimited (bytes text : List UInt8) : Prop where
  once : closingBracket.OnlyAtEnd bytes
  read : readPaste bytes = some (text, [])

theorem bracketed_delimited_iff (text : List UInt8) :
    Delimited (pasteStart ++ text ++ pasteEnd) text ↔ ¬ pasteEnd <:+: text := by
  have hopening : closingBracket.code <:+: pasteStart ++ text ↔ pasteEnd <:+: text :=
    Delimiter.code_infix_code_append_iff (s := openingBracket) rfl rfl (by decide)
  constructor
  · rintro ⟨honce, -⟩
    exact fun htext => Delimiter.onlyAtEnd_append_iff.mp honce (hopening.mpr htext)
  · intro htext
    constructor
    · exact Delimiter.onlyAtEnd_append_iff.mpr (mt hopening.mp htext)
    · rw [readPaste, List.append_assoc, List.dropPrefix?_append_of_beq _ (beq_self_eq_true _)]
      exact Delimiter.split_append_iff.mpr htext

namespace Terminal

variable {t t' : Terminal}

/-- With brackets, the text can be read back exactly when it holds no end of brackets. -/
theorem encodePaste_delimited_iff (h : t.modes.bracketedPaste = true) (text : String) :
    Delimited (t.encodePaste text) (asBytes text) ↔ ¬ pasteEnd <:+: asBytes text := by
  rw [encodePaste, if_pos h]
  exact bracketed_delimited_iff (asBytes text)

/-- A terminal whose program asked for brackets. -/
def bracketing : Option Terminal := do
  let t ← (Terminal.new .default fontCells).toOption
  t.performAll asciiTables [.feed (0x1B :: asBytes "[?2004h")]

theorem plainPaste_delimited_iff : ∃ t, bracketing = some t ∧
    (Delimited (t.encodePaste "ls") (asBytes "ls") ↔ ¬ pasteEnd <:+: asBytes "ls") := by
  obtain ⟨t, ht⟩ : ∃ t, bracketing = some t := ⟨_, rfl⟩
  have hmode : bracketing.map (·.modes.bracketedPaste) = some true := rfl
  rw [ht] at hmode
  exact ⟨t, ht, encodePaste_delimited_iff (Option.some_inj.mp hmode) "ls"⟩

/-- A text that closes the brackets and goes on with a command. -/
theorem closingText_not_delimited : ∃ t, bracketing = some t ∧
    t.modes.bracketedPaste = true ∧
    ¬ Delimited (t.encodePaste "\x1b[201~ls\r") (asBytes "\x1b[201~ls\r") := by
  obtain ⟨t, ht⟩ : ∃ t, bracketing = some t := ⟨_, rfl⟩
  have hmode : bracketing.map (·.modes.bracketedPaste) = some true := rfl
  rw [ht] at hmode
  have hon : t.modes.bracketedPaste = true := Option.some_inj.mp hmode
  refine ⟨t, ht, hon, ?_⟩
  rw [encodePaste, if_pos hon, bracketed_delimited_iff, not_not]
  exact ⟨[], asBytes "ls\r", by decide⟩

/-! ### What is queued -/

theorem asBytes_inj {s s' : String} (h : asBytes s = asBytes s') : s = s' := by
  have hs := fromUtf8_eq_some_iff.mpr h
  rw [fromUtf8_eq_some_iff.mpr rfl] at hs
  exact (Option.some_inj.mp hs).symm

theorem encodePaste_inj {text text' : String} (h : t.encodePaste text = t.encodePaste text') :
    text = text' := by
  unfold encodePaste at h
  split at h
  · exact asBytes_inj (List.append_cancel_left (List.append_cancel_right h))
  · exact asBytes_inj h

theorem encodePaste_ne_nil {text : String} (h : text.toList ≠ []) : t.encodePaste text ≠ [] := by
  intro hnil
  have hempty : asBytes text = asBytes "" := by
    unfold encodePaste at hnil
    split at hnil
    · simp [pasteEnd] at hnil
    · exact hnil
  exact h (by rw [asBytes_inj hempty]; rfl)

/-- The bytes that wait for the program grow by the paste of a text. -/
def Queues (t t' : Terminal) (text : String) : Prop :=
  t'.writeBuf = t.writeBuf ++ t.encodePaste text ∧ t.encodePaste text ≠ []

/-- A session runs, and its input has room for the paste of a text. -/
def HasRoom (t : Terminal) (text : String) : Prop :=
  t.pty.isSome = true ∧ t.writeBuf.length + (t.encodePaste text).length ≤ maxPending

theorem not_queues_self {text : String} : ¬ Queues t t text := by
  rintro ⟨hgrown, hne⟩
  exact hne (List.self_eq_append_right.mp hgrown)

theorem pasteInner_of_room {text : String} (h : t.HasRoom text) :
    t.pasteInner text = { t with writeBuf := t.writeBuf ++ t.encodePaste text } := by
  obtain ⟨hpty, hroom⟩ := h
  simp [pasteInner, sendInput, Option.isNone_eq_false_iff.mpr hpty, Nat.not_lt.mpr hroom]

theorem pasteInner_of_not_room {text : String} (h : ¬ t.HasRoom text) :
    t.pasteInner text = t := by
  unfold pasteInner sendInput
  split
  next => rfl
  next hpty =>
    rw [if_pos]
    by_contra hroom
    exact h ⟨Option.isSome_iff_ne_none.mpr (by simpa using hpty), Nat.not_lt.mp hroom⟩

theorem pasteInner_queues_iff {text text' : String} : Queues t (t.pasteInner text) text' ↔
    text' = text ∧ t.HasRoom text ∧ t.encodePaste text ≠ [] := by
  by_cases hroom : t.HasRoom text
  · rw [pasteInner_of_room hroom]
    constructor
    · rintro ⟨hgrown, hne⟩
      obtain rfl := encodePaste_inj (List.append_cancel_left hgrown)
      exact ⟨rfl, hroom, hne⟩
    · rintro ⟨rfl, -, hne⟩
      exact ⟨rfl, hne⟩
  · rw [pasteInner_of_not_room hroom]
    exact iff_of_false not_queues_self fun h => hroom h.2.1

theorem paste_queues_iff {text text' : String} : Queues t (t.paste text).1 text' ↔
    text' = text ∧ t.HasRoom text ∧ text.toList ≠ [] ∧
      (asBytes text).length ≤ t.config.maxPasteBytes ∧
      ¬ ('\n' ∈ text.toList ∧ t.config.confirmMultilinePaste = true) := by
  unfold paste
  dsimp only
  split
  next hempty =>
    exact iff_of_false not_queues_self fun h => h.2.2.1 (List.isEmpty_iff.mp hempty)
  next hne =>
    rw [List.isEmpty_iff] at hne
    split
    next hlarge => exact iff_of_false not_queues_self fun h => absurd h.2.2.2.1 (by omega)
    next hsmall =>
      split
      next hasks =>
        refine iff_of_false not_queues_self fun h => h.2.2.2.2 ?_
        simpa using hasks
      next hasks =>
        rw [pasteInner_queues_iff]
        have hroute := encodePaste_ne_nil (t := t) hne
        simp only [Bool.and_eq_true, List.contains_iff_mem] at hasks
        exact ⟨fun ⟨htext, hroom, _⟩ => ⟨htext, hroom, hne, Nat.not_lt.mp hsmall, hasks⟩,
          fun ⟨htext, hroom, _⟩ => ⟨htext, hroom, hroute⟩⟩

theorem confirmPaste_queues {text : String} (h : Queues t t.confirmPaste.1 text) :
    t.pendingPaste = some text ∧ (asBytes text).length ≤ t.config.maxPasteBytes := by
  unfold confirmPaste at h
  cases hpending : t.pendingPaste with
  | none =>
    simp only [hpending] at h
    exact absurd h not_queues_self
  | some pending =>
    simp only [hpending] at h
    split at h
    next => exact absurd h (not_queues_self (t := t.cancelPaste))
    next hsmall =>
      obtain ⟨rfl, -⟩ := (pasteInner_queues_iff (t := t.cancelPaste)).mp h
      exact ⟨rfl, Nat.not_lt.mp hsmall⟩

theorem tapPaste_queues_iff {text text' : String} : Queues t (t.tapPaste (some text)) text' ↔
    text' = text ∧ t.HasRoom text ∧ t.encodePaste text ≠ [] ∧
      ¬ ('\n' ∈ text.toList ∧ t.config.confirmMultilinePaste = true) := by
  simp only [tapPaste]
  split
  next hasks =>
    refine iff_of_false not_queues_self fun h => h.2.2.2 ?_
    simpa using hasks
  next hasks =>
    simp only [Bool.and_eq_true, List.contains_iff_mem] at hasks
    rw [pasteInner_queues_iff]
    exact ⟨fun ⟨htext, hroom, hne⟩ => ⟨htext, hroom, hne, hasks⟩,
      fun ⟨htext, hroom, hne, _⟩ => ⟨htext, hroom, hne⟩⟩

/-! ### What waits for the user -/

/-- The text for which the user was asked last and has not answered. -/
def askedAfter (asked : Option String) : TerminalOp → Reply → Option String
  | .paste text, .pasted (.ok (.needsConfirmation _)) => some text
  | .confirmPaste, _ | .cancelPaste, _ => none
  | _, _ => asked

theorem sendInput_pendingPaste (bytes : List UInt8) :
    (t.sendInput bytes).1.pendingPaste = t.pendingPaste := by
  unfold sendInput
  split
  · rfl
  · split <;> rfl

theorem keyInput_pendingPaste (encoded : List UInt8) :
    (t.keyInput encoded).1.pendingPaste = t.pendingPaste := by
  unfold keyInput
  split <;> rfl

theorem paste_pendingPaste (text : String) : (t.paste text).1.pendingPaste =
    askedAfter t.pendingPaste (.paste text) (.pasted (t.paste text).2) := by
  unfold paste
  dsimp only
  split
  · rfl
  · split
    · rfl
    · split
      · rfl
      · exact sendInput_pendingPaste _

theorem confirmPaste_pendingPaste : t.confirmPaste.1.pendingPaste = none := by
  unfold confirmPaste
  split
  next hpending => exact hpending
  next =>
    dsimp only
    split
    · rfl
    · exact sendInput_pendingPaste _

theorem tapPaste_pendingPaste (clipboard : Option String) :
    (t.tapPaste clipboard).pendingPaste = t.pendingPaste := by
  unfold tapPaste
  split
  · rfl
  · split
    · rfl
    · exact sendInput_pendingPaste _

theorem writeAll_pendingPaste (bytes : List UInt8) (answers : List WriteAnswer) :
    (t.writeAll bytes answers).1.pendingPaste = t.pendingPaste := by
  unfold writeAll
  split <;> rfl

theorem flush_pendingPaste (answers : List WriteAnswer) :
    (t.flush answers).1.pendingPaste = t.pendingPaste := by
  simp only [flush, flushPending, flushKeys, flushResponse, writeAll_pendingPaste]

/-- The text that is kept is the one for which the user was asked. -/
theorem perform_pendingPaste (h : t.Valid) (tables : UnicodeTables) (op : TerminalOp) :
    Returns (t.perform tables op) fun out =>
      out.1.pendingPaste = askedAfter t.pendingPaste op out.2 := by
  obtain ⟨c, r, c₀, r₀, hs⟩ := h.sizes
  cases op with
  | feed bytes =>
    exact (feed_valid h tables bytes).map fun _ ht' => congrArg Host.pendingPaste ht'.1.host
  | resize width height answer =>
    exact (resize_spec hs h.capacity width height answer).map fun _ hout => hout.1.pendingPaste
  | scrollUp n | scrollDown n | returnToNewest | shutdown | cancelPaste => exact .pure rfl
  | selectionStart pos mode =>
    exact (selectionStart_sized hs.grid tables pos mode).map
      fun _ hq => congrArg Host.pendingPaste hq.host
  | selectionExtend pos =>
    exact (selectionExtend_sized hs.grid tables pos).map
      fun _ hq => congrArg Host.pendingPaste hq.host
  | selectionClear => exact .pure (congrArg Host.pendingPaste (selectionClear_quiet hs.grid).host)
  | startSession answer => exact (startSession_spec hs answer).map fun _ hout => hout.pendingPaste
  | restart answer => exact (restart_spec hs answer).map fun _ hout => hout.pendingPaste
  | sendInput bytes => exact .pure (sendInput_pendingPaste bytes)
  | keyInput encoded => exact .pure (keyInput_pendingPaste encoded)
  | paste text => exact .pure (paste_pendingPaste text)
  | confirmPaste => exact .pure confirmPaste_pendingPaste
  | tapPaste clipboard => exact .pure (tapPaste_pendingPaste clipboard)
  | flush answers => exact .pure (flush_pendingPaste answers)

end Terminal

/-! ### The policy -/

/-- A terminal and the text for which the user was asked last and has not answered. -/
structure PasteWatch where
  valid : ValidTerminal
  asked : Option String

/-- A shell would execute what stands before a line terminator. -/
def hasTerminator (text : String) : Prop := '\n' ∈ text.toList ∨ '\r' ∈ text.toList

def isPaste : TerminalOp → Bool
  | .paste _ | .confirmPaste | .tapPaste _ => true
  | _ => false

namespace PasteWatch

open Terminal

def terminal (s : PasteWatch) : Terminal := s.valid.terminal

def start {config : TerminalConfig} {metrics : CellMetrics} {t : Terminal}
    (h : Terminal.new config metrics = .ok t) : PasteWatch := ⟨⟨t, new_valid h⟩, none⟩

def step (tables : UnicodeTables) (s : PasteWatch) (op : TerminalOp) : PasteWatch × Reply :=
  let (v, reply) := s.valid.perform tables op
  (⟨v, askedAfter s.asked op reply⟩, reply)

/-- No text is queued that is too long, and one with a line terminator only when the user
confirms that very text. -/
def Permits (tables : UnicodeTables) (s : PasteWatch) (op : TerminalOp) : Prop :=
  isPaste op = true → ∀ text, Queues s.terminal (s.step tables op).1.terminal text →
    (asBytes text).length ≤ s.terminal.config.maxPasteBytes ∧
    (s.terminal.config.confirmMultilinePaste = true → hasTerminator text →
      op = .confirmPaste ∧ s.asked = some text)

/-- A text with carriage returns that can be queued has line feeds too, if the user is to be
asked, and a text that is tapped can be queued only if it is not too long. -/
def Screened (s : PasteWatch) : TerminalOp → Prop
  | .paste text => s.terminal.HasRoom text →
      (asBytes text).length ≤ s.terminal.config.maxPasteBytes →
      s.terminal.config.confirmMultilinePaste = true → '\r' ∈ text.toList → '\n' ∈ text.toList
  | .tapPaste (some text) => s.terminal.HasRoom text →
      (s.terminal.config.confirmMultilinePaste = true → '\r' ∈ text.toList →
        '\n' ∈ text.toList) ∧
      ((asBytes text).length ≤ s.terminal.config.maxPasteBytes ∨
        '\n' ∈ text.toList ∧ s.terminal.config.confirmMultilinePaste = true)
  | _ => True

variable {tables : UnicodeTables} {s : PasteWatch}

theorem step_asked (h : s.asked = s.terminal.pendingPaste) (op : TerminalOp) :
    (s.step tables op).1.asked = (s.step tables op).1.terminal.pendingPaste := by
  have hp := s.valid.perform_of_returns tables op (perform_pendingPaste s.valid.valid tables op)
  change askedAfter s.asked op (s.valid.perform tables op).2 = _
  rw [h]
  exact hp.symm

theorem step_terminal {op : TerminalOp} {t : Terminal} {reply : Reply}
    (h : s.terminal.perform tables op = some (t, reply)) : (s.step tables op).1.terminal = t :=
  (s.valid.perform_of_eq tables op h).1

theorem permits_paste_iff {text : String} :
    s.Permits tables (.paste text) ↔ s.Screened (.paste text) := by
  have hterminal : (s.step tables (.paste text)).1.terminal = (s.terminal.paste text).1 :=
    step_terminal rfl
  constructor
  · intro h hroom hsmall hconfirm hcr
    by_contra hlf
    have hqueued : Queues s.terminal (s.step tables (.paste text)).1.terminal text := by
      rw [hterminal, paste_queues_iff]
      exact ⟨rfl, hroom, List.ne_nil_of_mem hcr, hsmall, fun hasks => hlf hasks.1⟩
    obtain ⟨hop, -⟩ := (h rfl text hqueued).2 hconfirm (.inr hcr)
    cases hop
  · intro h _ text' hqueued
    rw [hterminal, paste_queues_iff] at hqueued
    obtain ⟨rfl, hroom, -, hsmall, hasks⟩ := hqueued
    refine ⟨hsmall, fun hconfirm hterm => absurd ⟨?_, hconfirm⟩ hasks⟩
    rcases hterm with hlf | hcr
    · exact hlf
    · exact h hroom hsmall hconfirm hcr

theorem permits_tapPaste_iff {text : String} :
    s.Permits tables (.tapPaste (some text)) ↔ s.Screened (.tapPaste (some text)) := by
  have hterminal : (s.step tables (.tapPaste (some text))).1.terminal =
      s.terminal.tapPaste (some text) := step_terminal rfl
  constructor
  · intro h hroom
    have hpermits (hne : s.terminal.encodePaste text ≠ [])
        (hasks : ¬ ('\n' ∈ text.toList ∧ s.terminal.config.confirmMultilinePaste = true)) :=
      h rfl text (by rw [hterminal, tapPaste_queues_iff]; exact ⟨rfl, hroom, hne, hasks⟩)
    constructor
    · intro hconfirm hcr
      by_contra hlf
      have hne : s.terminal.encodePaste text ≠ [] :=
        encodePaste_ne_nil (List.ne_nil_of_mem hcr)
      obtain ⟨hop, -⟩ := (hpermits hne fun hasks => hlf hasks.1).2 hconfirm (.inr hcr)
      cases hop
    · by_contra hbad
      obtain ⟨hlarge, hasks⟩ := not_or.mp hbad
      have hne : s.terminal.encodePaste text ≠ [] := by
        apply encodePaste_ne_nil
        intro hnil
        obtain rfl := String.toList_eq_nil_iff.mp hnil
        exact hlarge (Nat.zero_le _)
      exact hlarge (hpermits hne hasks).1
  · intro h _ text' hqueued
    rw [hterminal, tapPaste_queues_iff] at hqueued
    obtain ⟨rfl, hroom, -, hasks⟩ := hqueued
    obtain ⟨hcrs, hsize⟩ := h hroom
    refine ⟨hsize.resolve_right hasks, fun hconfirm hterm => absurd ⟨?_, hconfirm⟩ hasks⟩
    rcases hterm with hlf | hcr
    · exact hlf
    · exact hcrs hconfirm hcr

theorem permits_iff (h : s.asked = s.terminal.pendingPaste) (op : TerminalOp) :
    s.Permits tables op ↔ s.Screened op := by
  cases op with
  | paste text => exact permits_paste_iff
  | tapPaste clipboard =>
    cases clipboard with
    | none =>
      have hterminal : (s.step tables (.tapPaste none)).1.terminal = s.terminal :=
        step_terminal rfl
      refine iff_of_true ?_ trivial
      intro _ text hqueued
      rw [hterminal] at hqueued
      exact absurd hqueued not_queues_self
    | some text => exact permits_tapPaste_iff
  | confirmPaste =>
    have hterminal : (s.step tables .confirmPaste).1.terminal = s.terminal.confirmPaste.1 :=
      step_terminal rfl
    refine iff_of_true ?_ trivial
    intro _ text hqueued
    rw [hterminal] at hqueued
    obtain ⟨hpending, hsmall⟩ := confirmPaste_queues hqueued
    exact ⟨hsmall, fun _ _ => ⟨rfl, h.trans hpending⟩⟩
  | _ => exact iff_of_true nofun trivial

/-- The policy holds throughout a run exactly when every text that is pasted or tapped in it
is one that the checks are enough for. -/
theorem steps_permits_iff {config : TerminalConfig} {metrics : CellMetrics} {t : Terminal}
    (h : Terminal.new config metrics = .ok t) (tables : UnicodeTables) (ops : List TerminalOp) :
    Steps (step tables) (Permits tables) (start h) ops ↔
      Steps (step tables) Screened (start h) ops := by
  refine steps_iff_within (fun s => s.asked = s.terminal.pendingPaste) (W := fun _ _ => True)
    ?_ (fun s op hs _ => step_asked hs op) (fun s op hs _ => permits_iff hs op)
    fun _ _ _ => trivial
  obtain ⟨-, -, hhost, -⟩ := new_spec h
  exact (congrArg Host.pendingPaste hhost).symm

theorem confirmedPaste_permits_iff :
    let ops : List TerminalOp := [.startSession (.ok ()), .paste "ls\nps", .confirmPaste]
    ∃ t, ∃ h : Terminal.new .default fontCells = .ok t,
      Steps (step asciiTables) (Permits asciiTables) (start h) ops ↔
        Steps (step asciiTables) Screened (start h) ops :=
  ⟨_, rfl, steps_permits_iff rfl asciiTables _⟩

/-- A text that ends with a carriage return is queued without asking the user. -/
theorem returnPaste_not_permitted :
    ∃ t, ∃ h : Terminal.new .default fontCells = .ok t,
      ¬ Steps (step asciiTables) (Permits asciiTables) (start h)
        [.startSession (.ok ()), .paste "ls\r"] := by
  refine ⟨_, rfl, fun hsteps => ?_⟩
  have hpaste := permits_paste_iff.mp
    (hsteps [.startSession (.ok ())] (.paste "ls\r") List.prefix_rfl)
  have hlf := hpaste ⟨rfl, by decide⟩ (by decide) rfl (by decide)
  exact absurd hlf (by decide)

end PasteWatch

end Ferrokey.Terminal
