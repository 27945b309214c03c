import Ferrokey.Collections.Erasure
import Ferrokey.Terminal.AltScreen
import Ferrokey.Terminal.Child
import Ferrokey.Terminal.CsiText
import Ferrokey.Terminal.Repaint

/-! # Bytes in chunks

A program's output arrives in chunks, cut at any place, and between them the host writes, types,
pastes and renders. After each chunk the rows that have changed are collected for the renderer.
Nothing that is displayed depends on where the cuts are. The banner of a child that has ended
depends on what the host was told alone.
-/

set_option linter.dupNamespace false

namespace Ferrokey.Terminal

/-- A screen without what is marked as dirty. -/
def Grid.plain (g : Grid) : Grid :=
  { g with dirty := List.replicate g.dirty.length false, dirtyAll := false }

namespace Grid

/-! ### The screen does not look at its marks -/

theorem plain_plain (g : Grid) : g.plain.plain = g.plain := by simp [plain]

/-- What leaves the marks alone. -/
theorem blind_pass {k : Grid → Grid} (hk : ∀ g, k g.plain = (k g).plain) :
    Blind plain plain fun g => some (k g) :=
  .pure fun g => by rw [hk, plain_plain]

/-- What marks everything. -/
theorem blind_mark {k : Grid → Grid} (hk : ∀ g, k g.plain = { (k g).plain with dirtyAll := true }) :
    Blind plain plain fun g => some (k g) :=
  .pure fun g => by
    rw [hk]
    exact plain_plain (k g)

/-- What lets lines out besides. -/
theorem blind_out {α : Type} {k : Grid → Grid} (hk : Blind plain plain fun g => some (k g))
    (out : α) : Blind plain (Prod.map plain id) fun g => some (k g, out) :=
  .pure fun g => Prod.ext (Option.some.inj (hk g)) rfl

theorem markDirtyRow_blind (row : ℕ) : Blind plain plain fun g => g.markDirtyRow row := by
  refine .ite (fun _ => Iff.rfl) ?_ (blind_pass fun g => rfl)
  intro g
  simp only [Checked.set, plain, List.length_replicate]
  split <;> simp [plain]

/-- Rows are put and the row of the cursor is marked. -/
theorem putRows_blind {r : Grid → Option (List Line)} (hr : ∀ g, r g.plain = r g) :
    Blind plain plain fun g =>
      (r g).bind fun rows => markDirtyRow { g with rows } g.cursor.row := by
  refine .read hr fun rows g => ?_
  exact markDirtyRow_blind g.cursor.row { g with rows }

theorem setCursor_blind (row col : ℕ) : Blind plain plain fun g => g.setCursor row col :=
  .read (fun _ => rfl) fun row =>
    .read (r := fun g : Grid => g.clampCursor row col) (fun _ => rfl) fun _ =>
      blind_pass fun _ => rfl

theorem setScrollRegion_blind (top bottom : ℕ) :
    Blind plain plain fun g => g.setScrollRegion top bottom := by
  refine .read (fun _ => rfl) fun maxRow => ?_
  by_cases h : min top maxRow ≤ min bottom maxRow
  · simp only [h]
    exact (blind_pass (k := fun g =>
      { g with scrollTop := min top maxRow, scrollBottom := min bottom maxRow })
      fun _ => rfl).bind (setCursor_blind 0 0)
  · simp only [h]
    exact setCursor_blind 0 0

theorem move_blind (m : Motion) : Blind plain plain fun g => g.move m := by
  cases m with
  | backspace | carriageReturn | setOriginMode on | putTabStop on | clearAllTabStops =>
    exact blind_pass fun _ => rfl
  | tab | moveCursor drow dcol =>
    exact .read (fun _ => rfl) fun _ => .read (fun _ => rfl) fun _ => blind_pass fun _ => rfl
  | backspaceToTab =>
    refine .ite (fun _ => Iff.rfl) ?_ (blind_pass fun _ => rfl)
    exact .read (fun _ => rfl) fun _ => blind_pass fun _ => rfl
  | setCol col | setRow row => exact .read (fun _ => rfl) fun _ => blind_pass fun _ => rfl
  | setCursor row col => exact setCursor_blind row col
  | setScrollRegion top bottom => exact setScrollRegion_blind top bottom
  | resetScrollRegion => exact .read (fun _ => rfl) fun lastRow => setScrollRegion_blind 0 lastRow

theorem scrollUpRegion_blind (n : ℕ) :
    Blind plain (Prod.map plain id) fun g => g.scrollUpRegion n :=
  .read (fun _ => rfl) fun _ => .read (fun _ => rfl) fun out =>
    blind_out (blind_mark (k := fun g => { g with rows := out.1, dirtyAll := true }) fun _ => rfl)
      out.2

theorem scrollDownRegion_blind (n : ℕ) : Blind plain plain fun g => g.scrollDownRegion n :=
  .read (fun _ => rfl) fun _ => .read (fun _ => rfl) fun _ => blind_mark fun _ => rfl

theorem deleteLines_blind (n : ℕ) : Blind plain (Prod.map plain id) fun g => g.deleteLines n :=
  .read (fun _ => rfl) fun _ => .read (fun _ => rfl) fun out =>
    blind_out (blind_mark (k := fun g => markAllDirty { g with rows := out.1 }) fun _ => rfl) out.2

theorem edit_blind (e : Edit) : Blind plain plain fun g => g.edit e := by
  cases e with
  | insertChars n =>
    exact .read (fun _ => rfl) fun n => .read (fun _ => rfl) fun line =>
      .read (r := fun g : Grid => Checked.splice line g.cursor.col (List.replicate n Cell.default))
        (fun _ => rfl) fun _ => putRows_blind fun _ => rfl
  | deleteChars n =>
    exact .read (fun _ => rfl) fun n => .read (fun _ => rfl) fun line =>
      .read (r := fun g : Grid => Checked.drain line g.cursor.col (g.cursor.col + n))
        (fun _ => rfl) fun _ => putRows_blind fun _ => rfl
  | eraseChars n => exact .read (fun _ => rfl) fun _ => putRows_blind fun _ => rfl
  | eraseInLine mode => exact putRows_blind fun _ => rfl
  | eraseInDisplay mode => exact .read (fun _ => rfl) fun _ => blind_mark fun _ => rfl
  | insertLines n =>
    exact .read (fun _ => rfl) fun _ => .read (fun _ => rfl) fun _ => blind_mark fun _ => rfl
  | deleteLines n => exact (deleteLines_blind n).map fun _ => plain_plain _
  | scrollDown n => exact scrollDownRegion_blind n
  | reverseIndex =>
    refine .ite (fun _ => Iff.rfl) (blind_pass fun _ => rfl) ?_
    exact (blind_pass (k := fun g => { g with wrapPending := false }) fun _ => rfl).bind
      (scrollDownRegion_blind 1)
  | fillScreen ch =>
    have hfill : Blind plain plain fun g : Grid => some { g with
        rows := g.rows.map fun row => row.map fun _ => { Cell.default with ch } } :=
      blind_pass fun _ => rfl
    exact hfill.bind ((setCursor_blind 0 0).bind (blind_mark fun _ => rfl))

/-- The cursor moves down a row, or the region scrolls up and one of the lines is taken. -/
theorem descend_blind (take : List Line → Option Line) :
    Blind plain (Prod.map plain id) fun g : Grid =>
      if g.cursor.row < g.scrollBottom then
        some ({ g with cursor := { g.cursor with row := g.cursor.row + 1 } }, none)
      else (g.scrollUpRegion 1).bind fun out => some (out.1, take out.2) := by
  refine .ite (fun _ => Iff.rfl) (blind_out (blind_pass (k := fun g => { g with
    cursor := { g.cursor with row := g.cursor.row + 1 } }) fun _ => rfl) none) ?_
  exact (scrollUpRegion_blind 1).bind (.pure fun _ => Prod.ext (plain_plain _) rfl)

theorem index_blind : Blind plain (Prod.map plain id) index :=
  (blind_pass (k := fun g => { g with wrapPending := false }) fun _ => rfl).bind
    (descend_blind List.head?)

theorem lineFeed_blind : Blind plain (Prod.map plain id) lineFeed :=
  (blind_pass (k := fun g => { g with wrapPending := false }) fun _ => rfl).bind
    (descend_blind List.getLast?)

theorem nextLine_blind : Blind plain (Prod.map plain id) nextLine :=
  (blind_pass (k := carriageReturn) fun _ => rfl).bind lineFeed_blind

theorem pushLineFromScrollback_blind (line : Line) :
    Blind plain plain fun g => g.pushLineFromScrollback line :=
  (scrollDownRegion_blind 1).bind (.read (fun _ => rfl) fun _ => blind_mark fun _ => rfl)

theorem restoreCursor_blind : Blind plain plain restoreCursor :=
  .read (r := fun g : Grid => g.clampCursor g.savedCursor.row g.savedCursor.col) (fun _ => rfl)
    fun _ => blind_pass fun _ => rfl

theorem attach_blind (ch : Char) : Blind plain plain fun g => g.attach ch := by
  refine .ite (fun _ => Iff.rfl) ?_ (blind_pass fun _ => rfl)
  refine .read (fun _ => rfl) fun col => .read (fun _ => rfl) fun cells => .read (fun _ => rfl) ?_
  intro cell
  exact .ite (fun _ => Iff.rfl) (putRows_blind fun _ => rfl) (blind_pass fun _ => rfl)

theorem wrap_blind (width : ℕ) : Blind plain (Prod.map plain id) fun g => g.wrap width := by
  refine .ite (fun _ => Iff.rfl) ?_ (blind_out (blind_pass (k := fun g => g) fun _ => rfl) none)
  exact index_blind.bind (blind_pass (k := fun g => { g with cursor := { g.cursor with col := 0 } })
    fun _ => rfl).carry

theorem advanceCursor_blind (width : ℕ) : Blind plain plain fun g => g.advanceCursor width := by
  refine .ite (fun _ => Iff.rfl) ?_ (blind_pass fun _ => rfl)
  exact .read (fun _ => rfl) fun _ => blind_pass fun _ => rfl

theorem putGlyph_blind (cell : Cell) (width : ℕ) :
    Blind plain plain fun g => g.putGlyph cell width := by
  intro g
  have hput := (putRows_blind (r := fun g => g.putCell cell width) fun _ => rfl).bind
    (advanceCursor_blind width) g
  simpa only [putGlyph, Option.bind_eq_bind, Option.bind_assoc] using hput

theorem print_blind (tables : UnicodeTables) (ch : Char) (attrs : CellAttrs) :
    Blind plain (Prod.map plain id) fun g => g.print tables ch attrs := by
  by_cases hwidth : (tables.width ch).getD 0 = 0
  · simp only [print, hwidth, if_true]
    exact (attach_blind ch).bind (.pure fun _ => Prod.ext (plain_plain _) rfl)
  · simp only [print, hwidth, if_false]
    exact (wrap_blind _).bind (putGlyph_blind _ _).carry

end Grid

namespace Terminal

/-- A terminal without its queues, its clocks and its marks for the renderer. -/
def display (t : Terminal) : Terminal :=
  { t with
    grid := t.grid.plain
    saved := t.saved.map Grid.plain
    pendingPaste := none
    writeBuf := []
    inputSource := none
    response := []
    paneDirty := []
    paneDirtyAll := false
    cursorDirty := false
    blinkPhase := true
    bell := false
    outputBytes := 0
    eventsEmitted := 0 }

/-- A display without the parser. -/
def core (t : Terminal) : Terminal := { t.display with parser := .new }

variable {t t' : Terminal} {tables : UnicodeTables}

theorem saved_plain (saved : Option Grid) :
    (saved.map Grid.plain).map Grid.plain = saved.map Grid.plain := by
  cases saved with
  | none => rfl
  | some g => exact congrArg some g.plain_plain

theorem core_core (t : Terminal) : t.core.core = t.core := by
  simp only [core, display, Grid.plain_plain, saved_plain]

/-- What is done to a core. -/
theorem blind_core {k : Terminal → Terminal} (hk : ∀ t, (k t.core).core = (k t).core) :
    Blind core core fun t => some (k t) := .pure hk

theorem onGrid_blind {f : Grid → Option Grid} (hf : Blind Grid.plain Grid.plain f) :
    Blind core core fun t => t.onGrid f :=
  hf.within core_core (fun _ => rfl) fun t grid => core_core { t with grid }

theorem pushAll_core (lines : List Line) (t : Terminal) :
    t.core.pushAll lines = (t.pushAll lines).core := by
  induction lines generalizing t with
  | nil => rfl
  | cons line lines ih =>
    have hpush : t.core.pushScrollback line = (t.pushScrollback line).core := by
      rw [pushScrollback, pushScrollback, apply_ite core]
      rfl
    rw [pushAll, List.foldl_cons, hpush]
    exact ih (t.pushScrollback line)

/-- The screen changes, and lines are stored. -/
theorem push_core (grid : Grid) (lines : List Line) (t : Terminal) :
    (pushAll { t.core with grid := grid.plain } lines).core =
      (pushAll { t with grid } lines).core := by
  rw [← pushAll_core, ← pushAll_core]
  exact congrArg (fun t => pushAll t lines) (core_core { t with grid })

theorem scrolling_blind {f : Grid → Option (Grid × Option Line)}
    (hf : Blind Grid.plain (Prod.map Grid.plain id) f) :
    Blind core core fun t => t.scrolling f :=
  hf.within core_core (fun _ => rfl) fun t out => push_core out.1 out.2.toList t

theorem printChar_blind (ch : Char) : Blind core core fun t => t.printChar tables ch :=
  .read (r := fun t : Terminal => some t.attrs)
    (k := fun attrs t => t.scrolling (·.print tables ch attrs)) (fun _ => rfl) fun attrs =>
      scrolling_blind (Grid.print_blind tables ch attrs)

theorem scrollUpLines_blind (n : ℕ) : Blind core core fun t => t.scrollUpLines n := by
  refine .read (fun _ => rfl) fun fullScreen => ?_
  exact (Grid.scrollUpRegion_blind n).within core_core (fun _ => rfl) fun t out =>
    push_core out.1 (if fullScreen then out.2 else []) t

/-- Pull back what was taken from the history. -/
def pullBack (popped : Scrollback × Option Line) (t : Terminal) : Option Terminal :=
  match popped with
  | (scrollback, some line) => onGrid { t with scrollback } (·.pushLineFromScrollback line)
  | (_, none) => some t

theorem pullBack_blind (popped : Scrollback × Option Line) : Blind core core (pullBack popped) := by
  obtain ⟨scrollback, line | line⟩ := popped
  · exact blind_core fun t => core_core t
  · have hput : Blind core core fun t => some { t with scrollback } :=
      blind_core fun t => core_core { t with scrollback }
    exact hput.bind (onGrid_blind (Grid.pushLineFromScrollback_blind line))

theorem restoreFromScrollback_blind : Blind core core restoreFromScrollback := by
  have hpop : Blind core core fun t : Terminal =>
      (some t.scrollback.popNewest).bind fun popped => pullBack popped t :=
    .read (fun _ => rfl) pullBack_blind
  exact hpop

theorem queueResponse_core (t : Terminal) (bytes : List UInt8) :
    (t.queueResponse bytes).core = t.core := by
  unfold queueResponse
  split <;> rfl

theorem selectionClear_core (t : Terminal) :
    t.selectionClear.core = ({ t with selection := none } : Terminal).core := by
  unfold selectionClear
  split
  next => rfl
  next h => rw [← Option.not_isSome_iff_eq_none.mp h]

theorem set_blind (s : Setting) : Blind core core fun t => some (t.set s) := by
  refine blind_core fun t => ?_
  cases s with
  | respond bytes => rw [set, set, queueResponse_core, queueResponse_core, core_core]
  | reportCursor => rw [set, set, queueResponse_core, queueResponse_core, core_core]
  | osc payload =>
    simp only [set, osc]
    repeat' split
    all_goals simp only [core, display, Grid.plain_plain, saved_plain]
  | softReset =>
    have hclear (t : Terminal) : (t.set .softReset).core =
        ({ resetSgr (t.setModes softModes) with selection := none } : Terminal).core :=
      selectionClear_core (resetSgr (t.setModes softModes))
    rw [hclear, hclear]
    exact core_core { resetSgr (t.setModes softModes) with selection := none }
  | _ => simp only [set, setModes, core, display, Grid.plain_plain, saved_plain]

theorem saveCursor_blind : Blind core core fun t => some t.saveCursor :=
  blind_core fun t => core_core t.saveCursor

theorem restoreCursor_blind : Blind core core restoreCursor :=
  (onGrid_blind Grid.restoreCursor_blind).bind (blind_core fun t =>
    core_core { t with attrs := t.grid.savedAttrs.getD t.attrs })

/-- Put a screen in the place of the main one, if it could be made. -/
def enterScreen (made : Except GridError Grid) (t : Terminal) : Option Terminal :=
  match made with
  | .ok grid =>
    some { t with
      grid
      saved := some t.grid
      altGrid := true
      modes := { t.modes with altScreen := true }
      viewport := t.viewport.returnToNewest
      paneDirtyAll := true }
  | .error _ => none

theorem enterScreen_blind (made : Except GridError Grid) : Blind core core (enterScreen made) := by
  cases made with
  | error e => exact fun _ => rfl
  | ok grid =>
    refine blind_core fun t => ?_
    simp only [core, display, Option.map_some, Grid.plain_plain]

theorem enterAltScreen_blind (save : Bool) :
    Blind core core fun t => t.enterAltScreen save := by
  refine .ite (fun _ => Iff.rfl) (blind_core fun t => core_core t) ?_
  have hsave : Blind core core fun t : Terminal => some (if save then t.saveCursor else t) := by
    cases save
    · exact blind_core core_core
    · exact saveCursor_blind
  have henter : Blind core core fun t : Terminal =>
      (some (Grid.new t.grid.cols t.grid.rowCount)).bind fun made => enterScreen made t :=
    .read (fun _ => rfl) enterScreen_blind
  exact hsave.bind henter

theorem exitAltScreen_blind (restore : Bool) :
    Blind core core fun t => t.exitAltScreen restore := by
  have hleave : Blind core core fun t : Terminal => some t.leaveAltScreen := by
    refine blind_core fun t => ?_
    have hgrid : (t.saved.map Grid.plain).getD t.grid.plain = (t.saved.getD t.grid).plain := by
      cases t.saved <;> rfl
    simp only [leaveAltScreen, core, display, hgrid, Grid.plain_plain, Option.map_none]
  refine .ite (fun _ => Iff.rfl) ?_ (blind_core core_core)
  cases restore
  · exact hleave
  · exact hleave.bind restoreCursor_blind

/-- Print a character again, if there is one. -/
def printAgain (tables : UnicodeTables) (last : Option Char) (t : Terminal) : Option Terminal :=
  match last with
  | some ch => t.printChar tables ch
  | none => some t

theorem printAgain_blind (last : Option Char) : Blind core core (printAgain tables last) := by
  cases last with
  | none => exact blind_core core_core
  | some ch => exact printChar_blind ch

/-- An operation depends on the core alone, and is refused or not by it. -/
theorem operate_blind (op : Operation) : Blind core core fun t => t.operate tables op := by
  cases op with
  | motion m => exact onGrid_blind (Grid.move_blind m)
  | edit e => exact onGrid_blind (Grid.edit_blind e)
  | set s => exact set_blind s
  | print ch => exact printChar_blind ch
  | printLast =>
    have hlast : Blind core core fun t : Terminal =>
        (some t.lastChar).bind fun last => printAgain tables last t :=
      .read (fun _ => rfl) printAgain_blind
    exact hlast
  | lineFeed => exact scrolling_blind Grid.lineFeed_blind
  | index => exact scrolling_blind Grid.index_blind
  | nextLine => exact scrolling_blind Grid.nextLine_blind
  | scrollUp n => exact scrollUpLines_blind n
  | pullBack => exact restoreFromScrollback_blind
  | clearHistory => exact blind_core fun t => core_core { t with scrollback := t.scrollback.clear }
  | enterAlt save => exact enterAltScreen_blind save
  | exitAlt restore => exact exitAltScreen_blind restore
  | saveCursor => exact saveCursor_blind
  | restoreCursor => exact restoreCursor_blind

theorem operateAll_blind (ops : List Operation) :
    Blind core core fun t => t.operateAll tables ops :=
  .foldlM core_core operate_blind ops

/-! ### Bytes in chunks -/

theorem markDirtyFromGrid_core (t : Terminal) : t.markDirtyFromGrid.core = t.core := by
  have hplain : t.grid.consumeDirty.1.plain = t.grid.plain := by
    simp [Grid.consumeDirty, Grid.plain]
  unfold markDirtyFromGrid
  dsimp only
  split <;> simp only [core, display, hplain]

theorem settle_core (t : Terminal) (synced : Bool) : (t.settle synced).core = t.core := by
  cases synced with
  | true => rfl
  | false => exact markDirtyFromGrid_core { t with eventsEmitted := t.eventsEmitted + 1 }

theorem display_eq (h : t.core = t'.core) (hparser : t.parser = t'.parser) :
    t.display = t'.display := by
  have hdisplay (t : Terminal) : t.display = { t.core with parser := t.parser } := rfl
  rw [hdisplay, hdisplay, h, hparser]

/-- What is displayed is what the operations of the bytes make of what was, and the parser went
through the bytes. -/
structure Fed (tables : UnicodeTables) (t : Terminal) (bytes : List UInt8) (t' : Terminal) :
    Prop where
  shows : (t.operateAll tables (t.feedOps bytes)).map core = some t'.core
  parser : t'.parser = (t.parser.feed bytes).1

theorem Fed.quiet (h : t'.display = t.display) : Fed tables t [] t' := by
  have hcore : t.core = t'.core := by rw [core, core, h]
  have hparser : t'.display.parser = t.display.parser := by rw [h]
  exact ⟨congrArg some hcore, hparser⟩

theorem Fed.feed {bytes : List UInt8} (h : t.feed tables bytes = some t') :
    Fed tables t bytes t' := by
  refine ⟨?_, parser_feed h⟩
  rw [feed_eq] at h
  obtain ⟨t₁, hall, rfl⟩ := Option.map_eq_some_iff.mp h
  have hreceive : (t.receive bytes).core = t.core := rfl
  rw [← (operateAll_blind (t.feedOps bytes)).congr hreceive, hall, settle_core]
  rfl

theorem Fed.trans {bytes bytes' : List UInt8} {t'' : Terminal} (h : Fed tables t bytes t')
    (h' : Fed tables t' bytes' t'') : Fed tables t (bytes ++ bytes') t'' := by
  refine ⟨?_, by rw [h'.parser, h.parser, Parser.feed_append]⟩
  have hops : t.feedOps (bytes ++ bytes') = t.feedOps bytes ++ t'.feedOps bytes' := by
    rw [feedOps, Parser.feed_append, List.flatMap_append, ← h.parser]
    rfl
  obtain ⟨t₁, hall, hcore⟩ := Option.map_eq_some_iff.mp h.shows
  rw [hops, operateAll_append, hall, Option.bind_some, ← h'.shows]
  exact (operateAll_blind (t'.feedOps bytes')).congr hcore

/-- The bytes can be fed at once, and that leads to the same display. -/
theorem Fed.at_once {bytes : List UInt8} (h : Fed tables t bytes t') :
    ∃ t'', t.feed tables bytes = some t'' ∧ t'.display = t''.display := by
  have hreceive : (t.receive bytes).core = t.core := rfl
  have hall := h.shows
  rw [← (operateAll_blind (t.feedOps bytes)).congr hreceive] at hall
  obtain ⟨t₁, ht₁, hcore⟩ := Option.map_eq_some_iff.mp hall
  have hfeed : t.feed tables bytes = some (t₁.settle t.modes.synchronizedOutput) := by
    rw [feed_eq, ht₁]
    rfl
  refine ⟨_, hfeed, display_eq ?_ (h.parser.trans (parser_feed hfeed).symm)⟩
  rw [settle_core, hcore]

end Terminal

/-! ### The event loop -/

/-- What the host does between two changes of the view. -/
inductive Turn where
  | poll (answers : List WriteAnswer) (reads : List ReadAnswer) (answer : WaitAnswer)
  | sendInput (bytes : List UInt8)
  | keyInput (encoded : List UInt8)
  | paste (text : String)
  | confirmPaste
  | cancelPaste
  | tapPaste (clipboard : Option String)
  | render
  | tickBlink (due : Bool)

/-- The bytes that reads with a budget take. -/
def takenBytes : ℕ → List ReadAnswer → List UInt8
  | 0, _ | _, [] | _, .ended :: _ | _, .bytes [] :: _ => []
  | budget + 1, .bytes (b :: chunk) :: reads =>
    b :: chunk ++ takenBytes (budget - chunk.length) reads

namespace TerminalSession

variable (s : TerminalSession)

/-- A call that takes nothing and tells of no end. -/
def aside (terminal : Terminal) : Option (TerminalSession × List UInt8 × List ChildExit) :=
  some ({ s with terminal }, [], [])

/-- A turn, the bytes of the program that it takes, and the ends of children that it tells of. -/
def turn (tables : UnicodeTables) :
    Turn → Option (TerminalSession × List UInt8 × List ChildExit)
  | .poll answers reads answer => (s.poll tables answers reads answer).map fun out =>
    (out.1, if s.terminal.pty.isNone then [] else takenBytes Terminal.readBudget reads,
      out.2.2.1.filterMap SessionEvent.exit)
  | .sendInput bytes => s.aside (s.terminal.sendInput bytes).1
  | .keyInput encoded => s.aside (s.terminal.keyInput encoded).1
  | .paste text => s.aside (s.terminal.paste text).1
  | .confirmPaste => s.aside s.terminal.confirmPaste.1
  | .cancelPaste => s.aside s.terminal.cancelPaste
  | .tapPaste clipboard => s.aside (s.terminal.tapPaste clipboard)
  | .render => s.render.map fun out => (out.1, [], [])
  | .tickBlink due => s.aside (s.terminal.tickBlink due).1

/-- Turns, one after the other, with all that they take and tell. -/
def turns (tables : UnicodeTables) :
    List Turn → TerminalSession → Option (TerminalSession × List UInt8 × List ChildExit)
  | [], s => some (s, [], [])
  | turn :: rest, s => do
    let (s, bytes, ends) ← s.turn tables turn
    let (s, later, laterEnds) ← turns tables rest s
    some (s, bytes ++ later, ends ++ laterEnds)

/-- The session at a phase of the clock of the cursor. -/
def atPhase (on : Bool) : TerminalSession :=
  { s with terminal := { s.terminal with blinkPhase := on } }

end TerminalSession

namespace Terminal

variable {t t' : Terminal} {tables : UnicodeTables}

/-! ### Queues, clocks and marks -/

theorem writeAll_display (bytes : List UInt8) (answers : List WriteAnswer) :
    (t.writeAll bytes answers).1.display = t.display := by
  unfold writeAll
  split <;> rfl

theorem flush_display (answers : List WriteAnswer) : (t.flush answers).1.display = t.display := by
  have hpending : (t.flushPending answers).1.display = t.display := writeAll_display _ _
  have hkeys (t : Terminal) (answers) : (t.flushKeys answers).1.display = t.display :=
    writeAll_display _ _
  have hresponse (t : Terminal) (answers) : (t.flushResponse answers).1.display = t.display :=
    writeAll_display _ _
  exact (hresponse _ _).trans ((hkeys _ _).trans hpending)

theorem sendInput_display (bytes : List UInt8) : (t.sendInput bytes).1.display = t.display := by
  unfold sendInput
  repeat' split
  all_goals rfl

theorem keyInput_display (encoded : List UInt8) : (t.keyInput encoded).1.display = t.display := by
  unfold keyInput
  split <;> rfl

theorem tickBlink_display (due : Bool) : (t.tickBlink due).1.display = t.display := by
  unfold tickBlink
  split <;> rfl

theorem pasteInner_display (text : String) : (t.pasteInner text).display = t.display :=
  sendInput_display (t.encodePaste text)

theorem paste_display (text : String) : (t.paste text).1.display = t.display := by
  unfold paste
  dsimp only
  repeat' split
  all_goals first | rfl | exact pasteInner_display text

theorem confirmPaste_display (t : Terminal) : t.confirmPaste.1.display = t.display := by
  unfold confirmPaste
  dsimp only
  repeat' split
  all_goals first | rfl | exact pasteInner_display _

theorem tapPaste_display (clipboard : Option String) :
    (t.tapPaste clipboard).display = t.display := by
  unfold tapPaste
  repeat' split
  all_goals first | rfl | exact pasteInner_display _

theorem render_display {out : Terminal × Option (PaneView × Option (List ℕ))}
    (h : t.render = some out) : out.1.display = t.display := by
  by_cases hsizes : t.paneW ≠ 0 ∧ t.paneH ≠ 0
  · rw [render_eq hsizes, consumeDirty_fst] at h
    obtain ⟨view, -, rfl⟩ := Option.map_eq_some_iff.mp h
    rfl
  · rw [Terminal.render, if_pos (by tauto)] at h
    cases h
    rfl

theorem readLoop_fed {budget : ℕ} {reads : List ReadAnswer} {out : Terminal × List TerminalEvent}
    (h : readLoop tables budget reads t = some out) :
    Fed tables t (takenBytes budget reads) out.1 := by
  fun_induction takenBytes budget reads generalizing t out with
  | case5 budget b chunk reads ih =>
    obtain ⟨left, hleft, h⟩ := Option.bind_eq_some_iff.mp h
    obtain ⟨t₁, hfeed, h⟩ := Option.bind_eq_some_iff.mp h
    obtain ⟨out', hrest, h⟩ := Option.bind_eq_some_iff.mp h
    cases h
    have hlen : left = budget - chunk.length := by
      simp only [Checked.sub, List.length_cons] at hleft
      split at hleft <;> cases hleft
      omega
    rw [hlen] at hrest
    have hread : Fed tables t₁ (takenBytes (budget - chunk.length) reads) out'.1 := ih hrest
    exact (Fed.feed hfeed).trans hread
  | _ =>
    simp only [readLoop, Option.some.injEq] at h
    subst h
    exact .quiet rfl

theorem poll_fed {answers : List WriteAnswer} {reads : List ReadAnswer}
    {out : Terminal × List UInt8 × List TerminalEvent}
    (h : t.poll tables answers reads = some out) :
    Fed tables t (if t.pty.isNone then [] else takenBytes readBudget reads) out.1 := by
  unfold poll at h
  generalize readBudget = budget at h ⊢
  split at h
  next hpty =>
    cases h
    rw [if_pos hpty]
    exact .quiet rfl
  next hpty =>
    obtain ⟨⟨t₁, events⟩, hread, h⟩ := Option.bind_eq_some_iff.mp h
    rw [if_neg hpty, ← Option.some.inj h]
    have hflush : Fed tables t [] (t.flush answers).1 := .quiet (flush_display answers)
    have hbell : Fed tables t₁ [] { t₁ with bell := false } := .quiet rfl
    simpa using (hflush.trans (readLoop_fed hread)).trans hbell

/-- All that is painted is on display, but for the clock of the cursor. -/
theorem paneView_display (h : t.display = t'.display) (on : Bool) :
    paneView { t with blinkPhase := on } = paneView { t' with blinkPhase := on } := by
  have hview (t : Terminal) : paneView { t with blinkPhase := on } =
      paneView { t.display with blinkPhase := on } := rfl
  rw [hview, h, ← hview]

end Terminal

namespace TerminalSession

variable {s s' s'' : TerminalSession} {tables : UnicodeTables} {bytes : List UInt8}
  {ends : List ChildExit}

/-- Turns have taken some bytes, and the banner is that of the first end that was told. -/
structure Went (tables : UnicodeTables) (s : TerminalSession) (bytes : List UInt8)
    (ends : List ChildExit) (s' : TerminalSession) : Prop where
  fed : s.terminal.Fed tables bytes s'.terminal
  exited : s'.childExited = (s.childExited.toList ++ ends).head?

theorem Went.quiet (hdisplay : s'.terminal.display = s.terminal.display)
    (hexited : s'.childExited = s.childExited) : Went tables s [] [] s' where
  fed := .quiet hdisplay
  exited := by
    rw [hexited, List.append_nil]
    exact (Option.head?_toList ..).symm

theorem Went.trans {bytes' : List UInt8} {ends' : List ChildExit} (h : Went tables s bytes ends s')
    (h' : Went tables s' bytes' ends' s'') :
    Went tables s (bytes ++ bytes') (ends ++ ends') s'' where
  fed := h.fed.trans h'.fed
  exited := by
    rw [h'.exited, h.exited, ← List.append_assoc]
    cases s.childExited.toList ++ ends <;> rfl

/-- Reaping leaves the terminal alone, and a banner that is there. -/
theorem reap_exited (s : TerminalSession) (answer : WaitAnswer) :
    (s.reap answer).1.childExited =
      (s.childExited.toList ++ (s.reap answer).2.1.filterMap SessionEvent.exit).head? := by
  unfold reap
  split
  · simp
  · split
    · simp
    · cases s.childExited <;> rfl

/-- The round of the session is one of its terminal, and the banner is for an end it tells of. -/
theorem poll_parts {answers : List WriteAnswer} {reads : List ReadAnswer} {answer : WaitAnswer}
    {out : TerminalSession × List UInt8 × List SessionEvent × List ChildCall}
    (h : s.poll tables answers reads answer = some out) :
    (∃ events, s.terminal.poll tables answers reads = some (out.1.terminal, out.2.1, events)) ∧
      out.1.childExited =
        (s.childExited.toList ++ out.2.2.1.filterMap SessionEvent.exit).head? := by
  unfold poll at h
  unfold Terminal.poll
  generalize Terminal.readBudget = budget at h ⊢
  split at h
  next hpty =>
    cases h
    exact ⟨⟨[], if_pos hpty⟩, by simp⟩
  next hpty =>
    rw [if_neg hpty]
    generalize s.terminal.flush answers = flushed at h ⊢
    obtain ⟨⟨t, events⟩, hread, h⟩ := Option.bind_eq_some_iff.mp h
    have hreap := reap_exited { s with terminal := t } answer
    rw [← Option.some.inj h]
    refine ⟨⟨events ++ if t.bell then [.bell] else [], ?_⟩, hreap.trans ?_⟩
    · simp only [hread, Option.bind_eq_bind, Option.bind_some]
    · have hterminal : (events.map SessionEvent.terminal).filterMap SessionEvent.exit = [] := by
        simp [SessionEvent.exit]
      have hbell : (if t.bell then [SessionEvent.terminal .bell] else []).filterMap
          SessionEvent.exit = [] := by
        split <;> rfl
      simp only [List.filterMap_append, hterminal, hbell, List.nil_append, List.append_nil]
      rfl

theorem turn_went {turn : Turn} {out : TerminalSession × List UInt8 × List ChildExit}
    (h : s.turn tables turn = some out) : Went tables s out.2.1 out.2.2 out.1 := by
  cases turn with
  | poll answers reads answer =>
    obtain ⟨out', hpoll, rfl⟩ := Option.map_eq_some_iff.mp h
    obtain ⟨⟨events, hterminal⟩, hexited⟩ := poll_parts hpoll
    exact ⟨Terminal.poll_fed hterminal, hexited⟩
  | render =>
    obtain ⟨out', hrender, rfl⟩ := Option.map_eq_some_iff.mp h
    obtain ⟨out'', hterminal, rfl⟩ := Option.map_eq_some_iff.mp hrender
    exact .quiet (Terminal.render_display hterminal) rfl
  | sendInput bytes =>
    cases h
    exact .quiet (Terminal.sendInput_display bytes) rfl
  | keyInput encoded =>
    cases h
    exact .quiet (Terminal.keyInput_display encoded) rfl
  | paste text =>
    cases h
    exact .quiet (Terminal.paste_display text) rfl
  | confirmPaste =>
    cases h
    exact .quiet (Terminal.confirmPaste_display s.terminal) rfl
  | cancelPaste =>
    cases h
    exact .quiet rfl rfl
  | tapPaste clipboard =>
    cases h
    exact .quiet (Terminal.tapPaste_display clipboard) rfl
  | tickBlink due =>
    cases h
    exact .quiet (Terminal.tickBlink_display due) rfl

theorem turns_went {moves : List Turn} (h : turns tables moves s = some (s', bytes, ends)) :
    Went tables s bytes ends s' := by
  induction moves generalizing s s' bytes ends with
  | nil =>
    cases h
    exact .quiet rfl rfl
  | cons turn rest ih =>
    obtain ⟨⟨s₁, taken, told⟩, hturn, h⟩ := Option.bind_eq_some_iff.mp h
    obtain ⟨⟨s₂, later, laterEnds⟩, hrest, h⟩ := Option.bind_eq_some_iff.mp h
    cases h
    exact (turn_went hturn).trans (ih hrest)

/-- However the output of a program is cut, and whatever is written, typed, pasted and rendered in
between, what is displayed in the end is what the bytes lead to that are fed at once. What is
painted is that, below the banner of the first end that was told. -/
theorem display_of_turns {moves : List Turn}
    (h : turns tables moves s = some (s', bytes, ends)) :
    ∃ t, s.terminal.feed tables bytes = some t ∧ s'.terminal.display = t.display ∧
      s'.childExited = (s.childExited.toList ++ ends).head? ∧
      ∀ on, (s'.atPhase on).paneView = (atPhase { s' with terminal := t } on).paneView := by
  obtain ⟨hfed, hexited⟩ := turns_went h
  obtain ⟨t, hfeed, hdisplay⟩ := hfed.at_once
  refine ⟨t, hfeed, hdisplay, hexited, fun on => ?_⟩
  exact congrArg (Option.map s'.withBanner) (Terminal.paneView_display hdisplay on)

/-- A sequence that is cut after its first two bytes, and again after its parameter; the program
ends in the last round. -/
def cutSequence : List Turn :=
  [.poll [] [.bytes [0x1B, 0x5B]] .stillAlive, .keyInput [0x61], .render,
    .poll [.accepted 1] [.bytes [0x37], .bytes [0x6D, 0x41]] (.exited 7), .tickBlink true]

/-- A new terminal with a session. -/
def sessionStarted : Option TerminalSession :=
  (Terminal.new .default Terminal.fontCells).toOption.bind fun t =>
    ((start t ⟨none, none⟩).startSession ⟨none, none⟩
      ⟨⟨none, none, none, fun _ => false⟩, .ok "/dev/pts/3".toList, .ok 100⟩).map Prod.fst

theorem display_of_turns_cutSequence : ∃ s s', sessionStarted = some s ∧
    turns Terminal.asciiTables cutSequence s =
      some (s', [0x1B, 0x5B, 0x37, 0x6D, 0x41], [.exited 7]) ∧
    ∃ t, s.terminal.feed Terminal.asciiTables [0x1B, 0x5B, 0x37, 0x6D, 0x41] = some t ∧
      s'.terminal.display = t.display ∧
      s'.childExited = (s.childExited.toList ++ [ChildExit.exited 7]).head? ∧
      ∀ on, (s'.atPhase on).paneView = (atPhase { s' with terminal := t } on).paneView := by
  have hrun : (sessionStarted.bind (turns Terminal.asciiTables cutSequence)).map Prod.snd =
      some ([0x1B, 0x5B, 0x37, 0x6D, 0x41], [ChildExit.exited 7]) := by decide
  obtain ⟨⟨s', bytes, ends⟩, hbind, hout⟩ := Option.map_eq_some_iff.mp hrun
  cases hout
  obtain ⟨s, hs, hturns⟩ := Option.bind_eq_some_iff.mp hbind
  exact ⟨s, s', hs, hturns, display_of_turns hturns⟩

end TerminalSession

end Ferrokey.Terminal
