import Ferrokey.Terminal.History
import Ferrokey.Terminal.Modes
import Ferrokey.Terminal.Osc
import Ferrokey.Terminal.Parser
import Ferrokey.Terminal.Selection

/-! # The terminal engine

The engine applies the actions of the parser to the screen, the history, the modes and
the response queue. The main screen is put away while the alternate one is active.
Whatever the source indexes or subtracts is checked, so a call that the source could
not finish is refused.
-/

set_option linter.dupNamespace false

namespace Ferrokey.Terminal

open Protocol

structure TerminalConfig where
  scrollbackLines : ℕ
  maxPasteBytes : ℕ
  confirmMultilinePaste : Bool
  deriving DecidableEq, Repr

def TerminalConfig.default : TerminalConfig := ⟨10000, 1048576, true⟩

inductive TerminalError where
  | nix (text : String)
  | invalidState (text : String)
  | paste (text : String)
  deriving DecidableEq, Repr

def TerminalError.display : TerminalError → String
  | .nix text => s!"nix error: {text}"
  | .invalidState text => s!"invalid state: {text}"
  | .paste text => s!"paste rejected: {text}"

/-- The size of a cell in pixels. -/
structure CellMetrics where
  cellW : ℕ
  cellH : ℕ
  cellW_pos : 0 < cellW
  cellH_pos : 0 < cellH

/-- The size that was last reported to the program. -/
structure Winsize where
  cols : ℕ
  rows : ℕ
  deriving DecidableEq, Repr

structure Terminal where
  config : TerminalConfig
  modes : TerminalModes
  parser : Parser
  grid : Grid
  /-- Whether the alternate screen is active. -/
  altGrid : Bool
  /-- The main screen, while the alternate one is active. -/
  saved : Option Grid
  scrollback : Scrollback
  viewport : Viewport
  selection : Option Selection
  selectionMode : SelectionMode
  /-- What the next characters are printed with. -/
  attrs : CellAttrs
  lastChar : Option Char
  title : List Char
  cwd : List Char
  hyperlink : List Char
  /-- The session, if one is running. -/
  pty : Option Winsize
  /-- Bytes that wait to be written to the program. -/
  writeBuf : List UInt8
  /-- The buffer that is shared with the key sink. -/
  inputSource : Option (List UInt8)
  /-- Answers that wait to be written to the program. -/
  response : List UInt8
  paneDirty : List ℕ
  paneDirtyAll : Bool
  cursorDirty : Bool
  blinkPhase : Bool
  bell : Bool
  paneW : ℕ
  paneH : ℕ
  metrics : CellMetrics
  pendingPaste : Option String
  outputBytes : UInt64
  eventsEmitted : UInt64
  oscClipboardDenied : UInt64
  invalidSequences : UInt64

namespace Terminal

def new (config : TerminalConfig) (metrics : CellMetrics) : Except TerminalError Terminal := do
  let scrollback ← (Scrollback.new config.scrollbackLines 80).mapError
    fun e => .invalidState e.display
  let grid ← (Grid.new 80 24).mapError fun e => .invalidState e.display
  return {
    config, grid, scrollback, metrics
    modes := .default
    parser := .new
    altGrid := false
    saved := none
    viewport := .default
    selection := none
    selectionMode := .character
    attrs := .default
    lastChar := none
    title := []
    cwd := []
    hyperlink := []
    pty := none
    writeBuf := []
    inputSource := none
    response := []
    paneDirty := []
    paneDirtyAll := true
    cursorDirty := true
    blinkPhase := true
    bell := false
    paneW := 0
    paneH := 0
    pendingPaste := none
    outputBytes := 0
    eventsEmitted := 0
    oscClipboardDenied := 0
    invalidSequences := 0 }

variable (t : Terminal)

/-- Do something to the active grid. -/
def onGrid (f : Grid → Option Grid) : Option Terminal := do
  let grid ← f t.grid
  some { t with grid }

def setModes (f : TerminalModes → TerminalModes) : Terminal := { t with modes := f t.modes }

/-! ### The history -/

/-- Store a line that scrolled out of the screen; the alternate screen never stores one. -/
def pushScrollback (line : Line) : Terminal :=
  if t.altGrid then t
  else
    let scrollback := (t.scrollback.push line).1
    { t with scrollback, viewport := t.viewport.updateBounds scrollback.len }

def pushAll (lines : List Line) : Terminal := lines.foldl pushScrollback t

/-- Do something to the grid that may scroll a line out. -/
def scrolling (f : Grid → Option (Grid × Option Line)) : Option Terminal := do
  let (grid, scrolled) ← f t.grid
  some (pushAll { t with grid } scrolled.toList)

/-- Pull a line back from the history. -/
def restoreFromScrollback : Option Terminal :=
  match t.scrollback.popNewest with
  | (scrollback, some line) => onGrid { t with scrollback } (·.pushLineFromScrollback line)
  | (_, none) => some t

def reverseIndex : Option Terminal := do
  let t ← t.onGrid (·.reverseIndex)
  t.restoreFromScrollback

/-! ### Resets and screens -/

def resetSgr : Terminal := { t with attrs := .default }

def saveCursor : Terminal :=
  { t with grid := { t.grid.saveCursor with savedAttrs := some t.attrs } }

def restoreCursor : Option Terminal := do
  let t ← t.onGrid (·.restoreCursor)
  some { t with attrs := t.grid.savedAttrs.getD t.attrs }

def selectionClear : Terminal :=
  if t.selection.isSome then { t with selection := none, paneDirtyAll := true } else t

def softModes (m : TerminalModes) : TerminalModes :=
  { m with
    applicationCursorKeys := false
    applicationKeypad := false
    bracketedPaste := false
    insertMode := false
    originMode := false
    autoWrap := true
    cursorVisible := true
    cursorShape := .block
    reverseVideo := false
    mouseMode := .none
    focusReporting := false
    modifyOtherKeys := 0 }

def softReset : Option Terminal := do
  let t := t.setModes softModes
  let grid := t.grid.setOriginMode false
  let lastRow ← Checked.sub grid.rowCount 1
  let grid ← grid.setScrollRegion 0 lastRow
  let grid ← grid.clearAllTabStops.setCursor 0 0
  some { selectionClear (resetSgr { t with grid }) with paneDirtyAll := true }

def fullReset : Option Terminal := do
  let t ← t.softReset
  let t ← t.onGrid (·.eraseInDisplay 2)
  some { t with scrollback := t.scrollback.clear }

/-- Swap in a new alternate screen, unless one is active. -/
def enterAltScreen (saveCursor : Bool) : Option Terminal :=
  if t.altGrid then some t
  else
    let t := if saveCursor then t.saveCursor else t
    match Grid.new t.grid.cols t.grid.rowCount with
    | .ok grid =>
      some { t with
        grid
        saved := some t.grid
        altGrid := true
        modes := { t.modes with altScreen := true }
        viewport := t.viewport.returnToNewest
        paneDirtyAll := true }
    | .error _ => none

/-- Put the main screen back in its place. -/
def leaveAltScreen : Terminal :=
  { t with
    altGrid := false
    grid := t.saved.getD t.grid
    saved := none
    modes := { t.modes with altScreen := false }
    paneDirtyAll := true }

/-- Swap the main screen back in, if it was put away. -/
def exitAltScreen (restoreCursor : Bool) : Option Terminal :=
  if t.altGrid then
    if restoreCursor then t.leaveAltScreen.restoreCursor else some t.leaveAltScreen
  else some t

/-! ### Answers -/

def maxResponse : ℕ := 256

def queueResponse (bytes : List UInt8) : Terminal :=
  if maxResponse < t.response.length + bytes.length then t
  else { t with response := t.response ++ bytes }

def deviceAttributesResponse : Terminal := t.queueResponse (0x1B :: asBytes "[?1;2c")

/-! ### Controls and escape sequences -/

def control : ControlCode → Option Terminal
  | .bell => some { t with bell := true }
  | .backspace => t.onGrid fun g => some g.backspace
  | .tab => t.onGrid (·.tab)
  | .lineFeed | .verticalTab | .formFeed => t.scrolling (·.lineFeed)
  | .carriageReturn => t.onGrid fun g => some g.carriageReturn
  | .escape => some t
  | .index => t.scrolling (·.index)
  | .nextLine => t.scrolling (·.nextLine)
  | .tabSet => t.onGrid fun g => some g.setTabStop
  | .reverseIndex => t.reverseIndex

def esc : EscSequence → Option Terminal
  | .saveCursor => some t.saveCursor
  | .restoreCursor => t.restoreCursor
  | .index => t.scrolling (·.index)
  | .nextLine => t.scrolling (·.nextLine)
  | .reverseIndex => t.reverseIndex
  | .tabSet => t.onGrid fun g => some g.setTabStop
  | .keypadApplication => some (t.setModes fun m => { m with applicationKeypad := true })
  | .keypadNumeric => some (t.setModes fun m => { m with applicationKeypad := false })
  | .fullReset => t.fullReset
  | .decid => some t.deviceAttributesResponse
  | .lineAttributes byte => if byte = 0x38 then t.onGrid (·.fillScreen 'E') else some t

/-! ### Control sequences -/

def setAnsiMode (mode : AnsiMode) (set : Bool) : Terminal :=
  match mode with
  | .insert => t.setModes fun m => { m with insertMode := set }
  | .newline => t

/-- What a private mode does, before the pane is marked as dirty. -/
def switchPrivateMode (mode : PrivateMode) (set : Bool) : Option Terminal :=
  match mode with
  | .cursorKeys => some (t.setModes fun m => { m with applicationCursorKeys := set })
  | .columns132 | .autoRepeat | .sgrMouse => some t
  | .reverseVideo => some (t.setModes fun m => { m with reverseVideo := set })
  | .origin => t.onGrid fun g => some (g.setOriginMode set)
  | .autoWrap => some (t.setModes fun m => { m with autoWrap := set })
  | .cursorBlink => some (t.setModes fun m => { m with cursorBlink := set })
  | .cursorVisible => some (t.setModes fun m => { m with cursorVisible := set })
  | .alternateScreen => if set then t.enterAltScreen false else t.exitAltScreen false
  | .alternateScreenSave | .alternateScreenSaveCursor =>
    if set then t.enterAltScreen true else t.exitAltScreen true
  | .saveCursor => if set then some t.saveCursor else t.restoreCursor
  | .mouseNormal =>
    some (t.setModes fun m => { m with mouseMode := if set then .normal else .none })
  | .mouseButton =>
    some (t.setModes fun m => { m with mouseMode := if set then .button else .none })
  | .mouseAny => some (t.setModes fun m => { m with mouseMode := if set then .any else .none })
  | .focusReporting => some (t.setModes fun m => { m with focusReporting := set })
  | .bracketedPaste => some (t.setModes fun m => { m with bracketedPaste := set })
  | .synchronizedOutput => some (t.setModes fun m => { m with synchronizedOutput := set })

def setPrivateMode (mode : PrivateMode) (set : Bool) : Option Terminal := do
  let t ← t.switchPrivateMode mode set
  some { t with paneDirtyAll := true }

/-- Unknown codes are ignored. -/
def setPrivateCode (code : ℕ) (set : Bool) : Option Terminal :=
  match PrivateMode.fromCode code with
  | some mode => t.setPrivateMode mode set
  | none => some t

/-- The private modes of a sequence, one after the other. -/
def setPrivateModes (codes : List ℕ) (set : Bool) : Option Terminal :=
  codes.foldlM (fun t code => t.setPrivateCode code set) t

def setAnsiCode (code : ℕ) (set : Bool) : Terminal :=
  match AnsiMode.fromCode code with
  | some mode => t.setAnsiMode mode set
  | none => t

def setAnsiModes (codes : List ℕ) (set : Bool) : Terminal :=
  codes.foldl (fun t code => t.setAnsiCode code set) t

def cursorShapeOf : ℕ → CursorShape
  | 0 | 1 => .blinkingBlock
  | 2 => .steadyBlock
  | 3 => .blinkingUnderline
  | 4 => .steadyUnderline
  | 5 => .blinkingBar
  | 6 => .steadyBar
  | _ => .block

/-- Print a character as often as asked for. -/
def printChar (tables : UnicodeTables) (ch : Char) : Option Terminal :=
  t.scrolling (·.print tables ch t.attrs)

/-- Whether the scroll region is the whole screen. -/
def scrollsFullScreen : Option Bool :=
  if t.grid.scrollTop = 0 then do
    let lastRow ← Checked.sub t.grid.rowCount 1
    some (t.grid.scrollBottom == lastRow)
  else some false

/-- Scroll up; lines that leave the whole screen go to the history. -/
def scrollUpLines (n : ℕ) : Option Terminal := do
  let fullScreen ← t.scrollsFullScreen
  let (grid, scrolled) ← t.grid.scrollUp n
  some (pushAll { t with grid } (if fullScreen then scrolled else []))

def eraseDisplay (mode : ℕ) : Option Terminal :=
  if mode = 3 then onGrid { t with scrollback := t.scrollback.clear } (·.eraseInDisplay 2)
  else t.onGrid (·.eraseInDisplay mode)

def setScrollRegion (top bottom : ℕ) : Option Terminal := t.onGrid (·.setScrollRegion top bottom)

def cursorReport : List UInt8 :=
  0x1B :: asBytes s!"[{t.grid.cursor.row + 1};{t.grid.cursor.col + 1}R"

def finalChar (c : Csi) : Char := Char.ofNat c.finalByte.toNat

/-- The function of a final byte, whatever marker and intermediates came with it. -/
def csiFinal (tables : UnicodeTables) (c : Csi) : Option Terminal :=
  let n := c.param 0 1
  match finalChar c with
  | '@' => t.onGrid (·.insertChars n)
  | 'A' => t.onGrid (·.moveCursor (-n) 0)
  | 'B' | 'e' => t.onGrid (·.moveCursor n 0)
  | 'C' | 'a' => t.onGrid (·.moveCursor 0 n)
  | 'D' => t.onGrid (·.moveCursor 0 (-n))
  | 'E' => t.onGrid fun g => (g.moveCursor n 0).map Grid.carriageReturn
  | 'F' => t.onGrid fun g => (g.moveCursor (-n) 0).map Grid.carriageReturn
  | 'G' => t.onGrid (·.setCol (n - 1))
  | 'H' | 'f' => t.onGrid (·.setCursor (n - 1) (c.param 1 1 - 1))
  | 'I' => t.onGrid (iterateM Grid.tab n)
  | 'J' => t.eraseDisplay (min (c.param 0 0) 3)
  | 'K' => t.onGrid (·.eraseInLine (min (c.param 0 0) 2))
  | 'L' => t.onGrid (·.insertLines n)
  | 'M' => t.onGrid fun g => (g.deleteLines n).map Prod.fst
  | 'P' => t.onGrid (·.deleteChars n)
  | 'S' => t.scrollUpLines n
  | 'T' => t.onGrid (·.scrollDown n)
  | 'X' => t.onGrid (·.eraseChars n)
  | 'Z' => t.onGrid (iterateM Grid.backspaceToTab n)
  | 'b' =>
    match t.lastChar with
    | some ch => iterateM (·.printChar tables ch) n t
    | none => some t
  | 'c' => some (if c.isAllZero then t.deviceAttributesResponse else t)
  | 'd' => t.onGrid (·.setRow (n - 1))
  | 'g' =>
    match c.param 0 0 with
    | 0 => t.onGrid fun g => some g.clearTabStop
    | 3 => t.onGrid fun g => some g.clearAllTabStops
    | _ => some t
  | 'h' => some (t.setAnsiModes c.params true)
  | 'l' => some (t.setAnsiModes c.params false)
  | 'm' => some { t with attrs := sgr c.params t.attrs }
  | 'n' =>
    some (
      if c.param 0 0 = 5 then t.queueResponse (0x1B :: asBytes "[0n")
      else if c.param 0 0 = 6 then t.queueResponse t.cursorReport
      else t)
  | 'r' =>
    if c.privateMarker = 0 then t.setScrollRegion (n - 1) (c.param 1 1 - 1) else some t
  | 's' => some (if c.privateMarker = 0 then t.saveCursor else t)
  | 'u' => if c.privateMarker = 0 then t.restoreCursor else some t
  | '!' => if c.privateMarker = 0 then t.softReset else some t
  | _ => some { t with invalidSequences := t.invalidSequences + 1 }

/-- `?` with `h` or `l`. -/
def isPrivateMode (c : Csi) : Bool :=
  c.privateMarker == 0x3F && (c.finalByte == 0x68 || c.finalByte == 0x6C)

/-- `>` or `<` with `m` and a first parameter of 4. -/
def isModifyOtherKeys (c : Csi) : Bool :=
  (c.privateMarker == 0x3E || c.privateMarker == 0x3C) && c.finalByte == 0x6D &&
    c.rawParam 0 == some 4

/-- A space with `q`. -/
def isCursorShape (c : Csi) : Bool := c.finalByte == 0x71 && c.intermediates == [0x20]

def csi (tables : UnicodeTables) (c : Csi) : Option Terminal :=
  if isPrivateMode c then t.setPrivateModes c.params (c.finalByte == 0x68)
  else if isModifyOtherKeys c then
    let value := if c.privateMarker = 0x3E then min ((c.rawParam 1).getD 1) 2 else 0
    some (t.setModes fun m => { m with modifyOtherKeys := value })
  else if isCursorShape c then
    let t := t.setModes fun m => { m with cursorShape := cursorShapeOf (c.param 0 0) }
    some { t with cursorDirty := true }
  else t.csiFinal tables c

/-! ### Operating system commands -/

def osc (payload : List UInt8) : Terminal :=
  let text := fromUtf8Lossy (payload.takeWhile (· != 0))
  let (kind, rest) := (splitOnce ';' text).getD (text, [])
  let rest := sanitizeOscValue rest
  match String.ofList kind with
  | "0" | "2" => { t with title := truncateUtf8 rest 512 }
  | "1" | "10" | "11" | "104" | "105" | "110" | "111" => t
  | "7" => { t with cwd := truncateUtf8 rest 1024 }
  | "8" =>
    match splitOnce ';' rest with
    | some (_, url) => { t with hyperlink := truncateUtf8 (sanitizeOscValue url) 1024 }
    | none => t
  | "52" => { t with oscClipboardDenied := t.oscClipboardDenied + 1 }
  | _ => { t with invalidSequences := t.invalidSequences + 1 }

/-! ### Applying what the parser found -/

def apply (tables : UnicodeTables) : ParserAction → Option Terminal
  | .print ch => printChar { t with lastChar := some ch } tables ch
  | .control code => t.control code
  | .csi c => t.csi tables c
  | .osc payload => some (t.osc payload)
  | .esc seq => t.esc seq
  | .charsetSelect _ => some t

def applyAll (tables : UnicodeTables) (actions : List ParserAction) : Option Terminal :=
  actions.foldlM (fun t a => t.apply tables a) t

def visibleRows : ℕ := t.paneH / t.metrics.cellH

/-- The document row of the first visible pane row. -/
def windowStart : ℤ :=
  let bottom : ℤ := t.scrollback.len + t.grid.rowCount
  let offset : ℤ := min (t.viewport.scrollOffset : ℤ) (max (t.visibleRows : ℤ) 0)
  max (bottom - offset - t.visibleRows) 0

def cursorVisibleIndex : Option ℕ :=
  if 0 < t.viewport.scrollOffset ∨ t.altGrid = true then none
  else if t.grid.cursor.row < t.visibleRows then some t.grid.cursor.row
  else none

/-- How far a row of the grid is below the top of the window. -/
def windowRow (row : ℕ) : ℤ := t.scrollback.len + row - t.windowStart

/-- The number of a row of the grid in the pane, in 16 bits, if it is visible. -/
def paneRow (row : ℕ) : Option ℕ :=
  let vis := t.windowRow row
  if 0 ≤ vis ∧ vis < t.visibleRows then some (vis.toNat % 65536) else none

def markDirtyFromGrid : Terminal :=
  let (grid, all, rows) := t.grid.consumeDirty
  let t := { t with grid }
  if all then { t with paneDirtyAll := true }
  else
    { t with paneDirty := t.paneDirty ++ rows.filterMap t.paneRow ++ t.cursorVisibleIndex.toList }

/-- Take bytes in; the actions of the parser are still to be applied. -/
def receive (bytes : List UInt8) : Terminal :=
  { t with
    parser := (t.parser.feed bytes).1
    outputBytes := t.outputBytes + UInt64.ofNat bytes.length }

/-- What follows the actions. While synchronized output is on, nothing is marked. -/
def settle (synced : Bool) : Terminal :=
  let t := { t with eventsEmitted := t.eventsEmitted + 1 }
  if synced then t else t.markDirtyFromGrid

/-- Feed bytes through the parser. -/
def feed (tables : UnicodeTables) (bytes : List UInt8) : Option Terminal := do
  let t' ← (t.receive bytes).applyAll tables (t.parser.feed bytes).2
  some (t'.settle t.modes.synchronizedOutput)

/-! ### Resizing -/

def minPanePx : ℕ := 64

/-- The cells that fit, within the limits. -/
def cellsFor (metrics : CellMetrics) (width height : ℕ) : Winsize :=
  ⟨min (max (width / metrics.cellW) minCols) maxCols,
    min (max (height / metrics.cellH) minRows) maxRows⟩

/-- Give the grid and the history a new size. -/
def resizeCells (size : Winsize) : Option (Terminal × Except TerminalError Unit) := do
  match ← t.grid.resize size.cols size.rows with
  | .error e => some (t, .error (.invalidState e.display))
  | .ok grid =>
    match Scrollback.new t.config.scrollbackLines size.cols with
    | .error e => some ({ t with grid }, .error (.invalidState e.display))
    | .ok scrollback =>
      let scrollback := scrollback.pushAll t.scrollback.lines
      some ({ t with grid, scrollback, paneDirtyAll := true }, .ok ())

/-- Tell the program its size; the system may refuse. -/
def reportSize (size : Winsize) (ptyAnswer : Except String Unit) :
    Terminal × Except TerminalError Unit :=
  match t.pty, ptyAnswer with
  | none, _ => (t, .ok ())
  | some _, .ok () => ({ t with pty := some size }, .ok ())
  | some _, .error text => (t, .error (.nix text))

def resize (width height : ℕ) (ptyAnswer : Except String Unit) :
    Option (Terminal × Except TerminalError Unit) :=
  if width < minPanePx ∨ height < minPanePx then some (t, .ok ())
  else
    let size := cellsFor t.metrics width height
    if size = ⟨t.grid.cols, t.grid.rowCount⟩ then
      some ({ t with paneW := width, paneH := height }, .ok ())
    else do
      let (t, result) ← t.resizeCells size
      match result with
      | .error e => some (t, .error e)
      | .ok () =>
        match t.reportSize size ptyAnswer with
        | (t, .error e) => some (t, .error e)
        | (t, .ok ()) => some ({ t with paneW := width, paneH := height }, .ok ())

/-! ### The view -/

def scrollUp (n : ℕ) : Terminal :=
  { t with
    viewport := (t.viewport.updateBounds t.scrollback.len).scrollUp n
    paneDirtyAll := true }

def scrollDown (n : ℕ) : Terminal :=
  { t with viewport := t.viewport.scrollDown n, paneDirtyAll := true }

def returnToNewest : Terminal :=
  { t with viewport := t.viewport.returnToNewest, paneDirtyAll := true }

/-- The characters of a line of the document, if there is one. -/
def lineChars (row : ℤ) : Option (Option (List Char)) :=
  let sbLen : ℤ := t.scrollback.len
  if row < 0 then some none
  else if row < sbLen then some ((t.scrollback.fromTop row.toNat).map (·.map Cell.ch))
  else if (t.grid.rowCount : ℤ) ≤ row - sbLen then some none
  else do
    let line ← t.grid.line (row - sbLen).toNat
    some (some (line.map Cell.ch))

def selectionStart (tables : UnicodeTables) (pos : CellPos) (mode : SelectionMode) :
    Option Terminal :=
  match mode with
  | .word => do
    let selection ← expandWord tables pos t.lineChars
    some { t with selectionMode := mode, selection, paneDirtyAll := true }
  | _ =>
    some { t with selectionMode := mode, selection := some ⟨pos, pos, mode⟩, paneDirtyAll := true }

def selectionExtend (tables : UnicodeTables) (pos : CellPos) : Option Terminal :=
  match t.selection with
  | none => some t
  | some sel =>
    match t.selectionMode with
    | .word => do
      let selection ← expandWord tables pos t.lineChars
      some { t with selection := some (selection.getD sel), paneDirtyAll := true }
    | _ => some { t with selection := some { sel with last := pos }, paneDirtyAll := true }

/-- The whole numbers from one to another, both included. -/
def span (lo hi : ℤ) : List ℤ := (List.range (hi - lo + 1).toNat).map fun i : ℕ => lo + i

/-- What a selection takes from a line: the characters of some columns, none of them empty. -/
def lineSelection (chars : List Char) (col0 col1 : ℤ) : Option (List Char) := do
  let cells ← (span (max col0 0) (min col1 (chars.length - 1))).mapM fun col => chars[col.toNat]?
  some (cells.filter (· != '\x00'))

def rowSelection (s e : CellPos) (row : ℤ) : Option (List Char) := do
  let chars := (← t.lineChars row).getD []
  let lineEnd := if row < e.row then ['\n'] else []
  if chars.isEmpty then some lineEnd
  else do
    let text ← lineSelection chars (if row = s.row then s.col else 0)
      (if row = e.row then e.col else chars.length - 1)
    some (text ++ lineEnd)

/-- The selected text, if something is selected. -/
def selectedText : Option (Option (List Char)) :=
  match t.selection with
  | none => some none
  | some sel =>
    if sel.start = sel.finish ∧ sel.mode = .character then some none
    else do
      let rows ← (span sel.start.row sel.finish.row).mapM (t.rowSelection sel.start sel.finish)
      some (some rows.flatten)

end Terminal

/-- What the renderer is given to paint. -/
structure PaneView where
  lines : List Line
  firstDocumentRow : ℤ
  cursor : Option (ℕ × ℕ × Bool × CursorShape × Bool)
  selection : Option Selection
  reverseVideo : Bool
  scrollbar : Option (ℕ × ℕ)

namespace Terminal

variable (t : Terminal)

/-- A line of the document that is shown. -/
def shownLine (doc : ℕ) : Option Line :=
  if doc < t.scrollback.len then some ((t.scrollback.fromTop doc).getD [])
  else t.grid.line (doc - t.scrollback.len)

/-- The cursor in the pane, unless the view is in the history or on the alternate screen. -/
def shownCursor (start bottom : ℕ) : Option (ℕ × ℕ × Bool × CursorShape × Bool) :=
  if t.viewport.scrollOffset = 0 ∧ t.altGrid = false then
    let doc := t.scrollback.len + t.grid.cursor.row
    if start ≤ doc ∧ doc < bottom then
      some (doc - start, t.grid.cursor.col, t.modes.cursorVisible, t.modes.cursorShape,
        t.blinkPhase)
    else none
  else none

def paneView : Option PaneView := do
  let bottom := t.scrollback.len + t.grid.rowCount
  let start := t.windowStart.toNat
  let lines ← (List.range' start (bottom - start)).mapM t.shownLine
  some {
    lines
    firstDocumentRow := start
    cursor := t.shownCursor start bottom
    selection := t.selection
    reverseVideo := t.modes.reverseVideo
    scrollbar := some (t.viewport.scrollOffset, bottom) }

/-- The dirty rows for the next render, or none for all of them; nothing is dirty afterwards. -/
def consumeDirty : Terminal × Option (List ℕ) :=
  let clean := { t with paneDirty := [], paneDirtyAll := false, cursorDirty := false }
  if t.paneDirtyAll then (clean, none)
  else
    let cursor := if t.cursorDirty then t.cursorVisibleIndex.toList else []
    let rows := t.paneDirty ++ cursor.filter (!t.paneDirty.contains ·)
    (clean, if rows.isEmpty then none else some rows)

/-- Render the pane, if it has a size. What the renderer is given is returned. -/
def render : Option (Terminal × Option (PaneView × Option (List ℕ))) :=
  if t.paneW = 0 ∨ t.paneH = 0 then some (t, none)
  else do
    let (t, dirty) := t.consumeDirty
    let view ← t.paneView
    some (t, some (view, dirty))

/-- Advance the clock of the cursor; whether a repaint is due is returned. -/
def tickBlink (due : Bool) : Terminal × Bool :=
  if t.modes.cursorShape.blinks && due then
    ({ t with blinkPhase := !t.blinkPhase, cursorDirty := true }, true)
  else (t, false)

end Terminal

end Ferrokey.Terminal
