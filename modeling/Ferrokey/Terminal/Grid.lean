import Ferrokey.Collections.Checked
import Mathlib.Data.UInt

/-! # The live grid

The live screen is a rectangle of cells with a cursor, a scroll region, tab stops and
a saved cursor. Every operation indexes, inserts into and takes from the rows with
checked operations; one that the source could not carry out is refused here.
-/

namespace Ferrokey.Terminal

def minCols : ℕ := 2

def maxCols : ℕ := 4096

def minRows : ℕ := 1

def maxRows : ℕ := 4096

/-- What the Unicode tables say of a character. -/
structure UnicodeTables where
  width : Char → Option ℕ
  isAlphanumeric : Char → Bool

/-- Attribute flags, packed into one byte. -/
structure CellFlags where
  bits : UInt8
  deriving DecidableEq, Repr

namespace CellFlags

def bold : UInt8 := 0x01

def italic : UInt8 := 0x02

def underline : UInt8 := 0x04

def strike : UInt8 := 0x08

def inverse : UInt8 := 0x10

def wide : UInt8 := 0x20

def wideCont : UInt8 := 0x40

def blink : UInt8 := 0x80

def empty : CellFlags := ⟨0⟩

def contains (f : CellFlags) (flag : UInt8) : Bool := f.bits &&& flag == flag

def set (f : CellFlags) (flag : UInt8) (on : Bool) : CellFlags :=
  ⟨if on then f.bits ||| flag else f.bits &&& ~~~flag⟩

end CellFlags

/-- Colour and attribute state that moves with a saved cursor. -/
structure CellAttrs where
  fg : UInt32
  bg : UInt32
  flags : CellFlags
  deriving DecidableEq, Repr

def CellAttrs.default : CellAttrs := ⟨0, 0, .empty⟩

def maxCombining : ℕ := 2

/-- One cell; an empty one holds the null character. -/
structure Cell where
  ch : Char
  fg : UInt32
  bg : UInt32
  flags : CellFlags
  combining : List Char
  deriving DecidableEq, Repr

namespace Cell

def default : Cell := ⟨'\x00', 0, 0, .empty, []⟩

def isWide (c : Cell) : Bool := c.flags.contains CellFlags.wide

/-- The second half of a wide glyph. -/
def isWideCont (c : Cell) : Bool := c.flags.contains CellFlags.wideCont

def setFlag (c : Cell) (flag : UInt8) : Cell := { c with flags := c.flags.set flag true }

end Cell

structure Pos where
  row : ℕ
  col : ℕ
  deriving DecidableEq, Repr

abbrev Line := List Cell

def blankLine (cols : ℕ) : Line := List.replicate cols Cell.default

/-- Write a cell of a row. -/
def setCell (rows : List Line) (row col : ℕ) (cell : Cell) : Option (List Line) := do
  let line ← rows[row]?
  let line ← Checked.set line col cell
  Checked.set rows row line

/-- Blank the cells of a row from one column up to another. -/
def blankRange (rows : List Line) (row lo hi : ℕ) : Option (List Line) :=
  (List.range' lo (hi - lo)).foldlM (fun rows c => setCell rows row c Cell.default) rows

/-- Take out a row at the top and put a blank one in at the bottom, several times; the rows
that were taken out are returned. -/
def rotateUp (top bottom : ℕ) (blank : Line) : ℕ → List Line → Option (List Line × List Line)
  | 0, rows => some (rows, [])
  | n + 1, rows => do
    let (removed, rows) ← Checked.remove rows top
    let rows ← Checked.insert rows bottom blank
    let (rows, out) ← rotateUp top bottom blank n rows
    some (rows, removed :: out)

/-- Put a blank row in at the top and take one out past the bottom, several times. -/
def rotateDown (top bottom : ℕ) (blank : Line) : ℕ → List Line → Option (List Line)
  | 0, rows => some rows
  | n + 1, rows => do
    let rows ← Checked.insert rows top blank
    let (_, rows) ← Checked.remove rows (bottom + 1)
    rotateDown top bottom blank n rows

/-- Cut or pad a line to a width. -/
def fitWidth (cols : ℕ) (line : Line) : Line :=
  line.take cols ++ List.replicate (cols - line.length) Cell.default

/-- A line of a new width; half a wide glyph at its end is cleared. -/
def normalise (cols : ℕ) (line : Line) : Line :=
  let line := fitWidth cols line
  match line.getLast? with
  | some last => if last.isWide then line.dropLast ++ [Cell.default] else line
  | none => line

/-- The first of some columns with a tab stop. -/
def firstStop (tabStops : List Bool) : List ℕ → Option (Option ℕ)
  | [] => some none
  | c :: cs => do
    let stop ← tabStops[c]?
    if stop then some (some c) else firstStop tabStops cs

structure Grid where
  rows : List Line
  cols : ℕ
  rowCount : ℕ
  cursor : Pos
  savedCursor : Pos
  savedAttrs : Option CellAttrs
  /-- The scroll region, both ends included. -/
  scrollTop : ℕ
  scrollBottom : ℕ
  tabStops : List Bool
  /-- Set after printing in the last column; the next printable character wraps. -/
  wrapPending : Bool
  originMode : Bool
  dirty : List Bool
  dirtyAll : Bool
  revision : UInt64
  deriving DecidableEq

inductive GridError where
  | badSize (cols rows : ℕ)
  | row (row : ℕ)
  | col (col : ℕ)
  deriving DecidableEq, Repr

def GridError.display : GridError → String
  | .badSize cols rows => s!"grid dimensions out of bounds (cols {cols}, rows {rows})"
  | .row r => s!"cursor row {r} outside grid"
  | .col c => s!"cursor column {c} outside grid"

namespace Grid

def sizeInBounds (cols rows : ℕ) : Bool :=
  decide (minCols ≤ cols ∧ cols ≤ maxCols) && decide (minRows ≤ rows ∧ rows ≤ maxRows)

def defaultTabStops (cols : ℕ) : List Bool := (List.range cols).map (· % 8 == 0)

def new (cols rows : ℕ) : Except GridError Grid :=
  if sizeInBounds cols rows then
    .ok {
      rows := List.replicate rows (blankLine cols)
      cols
      rowCount := rows
      cursor := ⟨0, 0⟩
      savedCursor := ⟨0, 0⟩
      savedAttrs := none
      scrollTop := 0
      scrollBottom := rows - 1
      tabStops := defaultTabStops cols
      wrapPending := false
      originMode := false
      dirty := List.replicate rows true
      dirtyAll := true
      revision := 0 }
  else .error (.badSize cols rows)

variable (g : Grid)

def line (row : ℕ) : Option Line := g.rows[row]?

def markAllDirty : Grid := { g with dirtyAll := true }

/-- Whether everything is dirty, and which rows are; nothing is afterwards. -/
def consumeDirty : Grid × Bool × List ℕ :=
  let rows :=
    if g.dirtyAll then List.range g.rowCount
    else (List.range g.dirty.length).filter fun i => g.dirty[i]? == some true
  ({ g with dirtyAll := false, dirty := g.dirty.map fun _ => false }, g.dirtyAll, rows)

def markDirtyRow (row : ℕ) : Option Grid :=
  if row < g.rowCount then do
    let dirty ← Checked.set g.dirty row true
    some { g with revision := g.revision + 1, dirty }
  else some { g with revision := g.revision + 1 }

/-! ### The cursor -/

def clampCursor (row col : ℕ) : Option Pos := do
  let maxRow ← Checked.sub g.rowCount 1
  let maxCol ← Checked.sub g.cols 1
  some ⟨min row maxRow, min col maxCol⟩

/-- In origin mode rows count from the top of the scroll region. -/
def absoluteRow (row : ℕ) : Option ℕ :=
  if g.originMode then some (min (g.scrollTop + row) g.scrollBottom)
  else do
    let maxRow ← Checked.sub g.rowCount 1
    some (min row maxRow)

def setCursor (row col : ℕ) : Option Grid := do
  let row ← g.absoluteRow row
  let cursor ← g.clampCursor row col
  some { g with cursor, wrapPending := false }

def setOriginMode (on : Bool) : Grid :=
  { g with
    originMode := on
    cursor := if on then ⟨g.scrollTop, 0⟩ else ⟨0, 0⟩
    wrapPending := false }

def setScrollRegion (top bottom : ℕ) : Option Grid := do
  let maxRow ← Checked.sub g.rowCount 1
  let top := min top maxRow
  let bottom := min bottom maxRow
  let g := if top ≤ bottom then { g with scrollTop := top, scrollBottom := bottom } else g
  g.setCursor 0 0

/-- Relative movement; it stops at the edges. -/
def moveCursor (drow dcol : ℤ) : Option Grid := do
  let maxRow ← Checked.sub g.rowCount 1
  let maxCol ← Checked.sub g.cols 1
  let row := min (max (g.cursor.row + drow) 0) maxRow
  let col := min (max (g.cursor.col + dcol) 0) maxCol
  some { g with cursor := ⟨row.toNat, col.toNat⟩, wrapPending := false }

def setCol (col : ℕ) : Option Grid := do
  let maxCol ← Checked.sub g.cols 1
  some { g with cursor := { g.cursor with col := min col maxCol }, wrapPending := false }

def setRow (row : ℕ) : Option Grid := do
  let maxRow ← Checked.sub g.rowCount 1
  some { g with cursor := { g.cursor with row := min row maxRow }, wrapPending := false }

def carriageReturn : Grid := { g with cursor := { g.cursor with col := 0 }, wrapPending := false }

def backspace : Grid :=
  { g with cursor := { g.cursor with col := g.cursor.col - 1 }, wrapPending := false }

def tab : Option Grid := do
  let next ← firstStop g.tabStops (List.range' (g.cursor.col + 1) (g.cols - (g.cursor.col + 1)))
  let last ← Checked.sub g.cols 1
  some { g with cursor := { g.cursor with col := next.getD last }, wrapPending := false }

def backspaceToTab : Option Grid := do
  if 0 < g.cursor.col then do
    let prev ← firstStop g.tabStops (List.range g.cursor.col).reverse
    some { g with cursor := { g.cursor with col := prev.getD 0 }, wrapPending := false }
  else some { g with wrapPending := false }

/-- Set or clear the tab stop at the cursor, if there is one. -/
def putTabStop (on : Bool) : Grid := { g with tabStops := g.tabStops.set g.cursor.col on }

def setTabStop : Grid := g.putTabStop true

def clearTabStop : Grid := g.putTabStop false

def clearAllTabStops : Grid := { g with tabStops := g.tabStops.map fun _ => false }

def saveCursor : Grid := { g with savedCursor := g.cursor }

def restoreCursor : Option Grid := do
  let cursor ← g.clampCursor g.savedCursor.row g.savedCursor.col
  some { g with cursor, wrapPending := false }

/-! ### Scrolling -/

/-- How many lines of the scroll region a count asks for. -/
def regionCount (n : ℕ) : Option ℕ := do
  let height ← Checked.sub g.scrollBottom g.scrollTop
  some (min n (height + 1))

/-- Scroll the region up. The lines that left its top are returned. -/
def scrollUpRegion (n : ℕ) : Option (Grid × List Line) := do
  let n ← g.regionCount n
  let (rows, out) ← rotateUp g.scrollTop g.scrollBottom (blankLine g.cols) n g.rows
  some ({ g with rows, dirtyAll := true }, out)

def scrollDownRegion (n : ℕ) : Option Grid := do
  let n ← g.regionCount n
  let rows ← rotateDown g.scrollTop g.scrollBottom (blankLine g.cols) n g.rows
  some { g with rows, dirtyAll := true }

def scrollUp (n : ℕ) : Option (Grid × List Line) := g.scrollUpRegion n

def scrollDown (n : ℕ) : Option Grid := g.scrollDownRegion n

/-- Move down one row; at the bottom of the region, scroll it up. The line that left the
region is returned. -/
def index : Option (Grid × Option Line) :=
  let g := { g with wrapPending := false }
  if g.cursor.row < g.scrollBottom then
    some ({ g with cursor := { g.cursor with row := g.cursor.row + 1 } }, none)
  else do
    let (g, out) ← g.scrollUpRegion 1
    some (g, out.head?)

def reverseIndex : Option Grid :=
  let g := { g with wrapPending := false }
  if g.scrollTop < g.cursor.row then
    some { g with cursor := { g.cursor with row := g.cursor.row - 1 } }
  else g.scrollDownRegion 1

def lineFeed : Option (Grid × Option Line) :=
  let g := { g with wrapPending := false }
  if g.cursor.row < g.scrollBottom then
    some ({ g with cursor := { g.cursor with row := g.cursor.row + 1 } }, none)
  else do
    let (g, out) ← g.scrollUpRegion 1
    some (g, out.getLast?)

def nextLine : Option (Grid × Option Line) := g.carriageReturn.lineFeed

/-- Scroll a line of the history back in at the top of the region. -/
def pushLineFromScrollback (line : Line) : Option Grid := do
  let g ← g.scrollDownRegion 1
  let rows ← Checked.set g.rows g.scrollTop (normalise g.cols line)
  some { g with rows, dirtyAll := true }

/-! ### Content -/

def makeCell (ch : Char) (attrs : CellAttrs) : Cell := ⟨ch, attrs.fg, attrs.bg, attrs.flags, []⟩

/-- A character of no width is attached to the cell before the cursor, if there is one. -/
def attach (ch : Char) : Option Grid :=
  if 0 < g.cursor.col then do
    let col ← Checked.sub g.cursor.col 1
    let cells ← g.rows[g.cursor.row]?
    let cell ← cells[col]?
    if cell.combining.length < maxCombining then do
      let rows ← setCell g.rows g.cursor.row col { cell with combining := cell.combining ++ [ch] }
      markDirtyRow { g with rows } g.cursor.row
    else some g
  else some g

/-- Wrap if that is pending or if the glyph needs more room than remains. -/
def wrap (width : ℕ) : Option (Grid × Option Line) :=
  if g.wrapPending || (decide (1 < width) && decide (g.cols < g.cursor.col + width)) then do
    let (g, scrolled) ← g.index
    some ({ g with cursor := { g.cursor with col := 0 } }, scrolled)
  else some (g, none)

/-- Write a glyph at the cursor, and the other half of a wide one next to it. -/
def putCell (cell : Cell) (width : ℕ) : Option (List Line) := do
  let row := g.cursor.row
  let col := g.cursor.col
  let rows ← setCell g.rows row col (if width = 2 then cell.setFlag CellFlags.wide else cell)
  if width = 2 ∧ col + 1 < g.cols then
    setCell rows row (col + 1) (Cell.default.setFlag CellFlags.wideCont)
  else some rows

/-- Move the cursor past a glyph. -/
def advanceCursor (width : ℕ) : Option Grid :=
  if g.cols ≤ g.cursor.col + width then do
    let last ← Checked.sub g.cols 1
    some { g with cursor := { g.cursor with col := last }, wrapPending := true }
  else
    some { g with cursor := { g.cursor with col := g.cursor.col + width }, wrapPending := false }

def putGlyph (cell : Cell) (width : ℕ) : Option Grid := do
  let rows ← g.putCell cell width
  let g ← markDirtyRow { g with rows } g.cursor.row
  g.advanceCursor width

/-- Print a character at the cursor. The line that a wrap scrolled out is returned. -/
def print (tables : UnicodeTables) (ch : Char) (attrs : CellAttrs) : Option (Grid × Option Line) :=
  let width := (tables.width ch).getD 0
  if width = 0 then do
    let g ← g.attach ch
    some (g, none)
  else do
    let (g, scrolled) ← g.wrap width
    let g ← g.putGlyph (makeCell ch attrs) width
    some (g, scrolled)

/-- How many cells right of the cursor a count asks for. -/
def lineCount (n : ℕ) : Option ℕ := do
  let room ← Checked.sub g.cols g.cursor.col
  some (min n room)

def insertChars (n : ℕ) : Option Grid := do
  let n ← g.lineCount n
  let line ← g.rows[g.cursor.row]?
  let line ← Checked.splice line g.cursor.col (List.replicate n Cell.default)
  let rows ← Checked.set g.rows g.cursor.row (line.take g.cols)
  markDirtyRow { g with rows } g.cursor.row

def deleteChars (n : ℕ) : Option Grid := do
  let n ← g.lineCount n
  let line ← g.rows[g.cursor.row]?
  let line ← Checked.drain line g.cursor.col (g.cursor.col + n)
  let rows ← Checked.set g.rows g.cursor.row (line ++ List.replicate n Cell.default)
  markDirtyRow { g with rows } g.cursor.row

def eraseChars (n : ℕ) : Option Grid := do
  let n ← g.lineCount n
  let rows ← blankRange g.rows g.cursor.row g.cursor.col (g.cursor.col + n)
  markDirtyRow { g with rows } g.cursor.row

/-- The columns that are erased in a line: 0 right of the cursor, 1 left of it, else all. -/
def lineRange (mode : ℕ) : ℕ × ℕ :=
  match mode with
  | 0 => (g.cursor.col, g.cols)
  | 1 => (0, g.cursor.col + 1)
  | _ => (0, g.cols)

def eraseInLine (mode : ℕ) : Option Grid := do
  let rows ← blankRange g.rows g.cursor.row (g.lineRange mode).1 (g.lineRange mode).2
  markDirtyRow { g with rows } g.cursor.row

/-- Blank whole rows, from one up to another. -/
def blankRows (rows : List Line) (lo hi : ℕ) : Option (List Line) :=
  (List.range' lo (hi - lo)).foldlM (fun rows r => blankRange rows r 0 g.cols) rows

/-- The rows after an erasure: 0 below the cursor, 1 above it, else all. -/
def erasedRows (mode : ℕ) : Option (List Line) :=
  match mode with
  | 0 => do
    let rows ← blankRange g.rows g.cursor.row g.cursor.col g.cols
    g.blankRows rows (g.cursor.row + 1) g.rowCount
  | 1 => do
    let rows ← g.blankRows g.rows 0 g.cursor.row
    blankRange rows g.cursor.row 0 (g.cursor.col + 1)
  | _ => g.blankRows g.rows 0 g.rowCount

def eraseInDisplay (mode : ℕ) : Option Grid := do
  let rows ← g.erasedRows mode
  some (markAllDirty { g with rows })

def insertLines (n : ℕ) : Option Grid := do
  let n ← g.regionCount n
  let rows ← rotateDown g.cursor.row g.scrollBottom (blankLine g.cols) n g.rows
  some (markAllDirty { g with rows })

def deleteLines (n : ℕ) : Option (Grid × List Line) := do
  let n ← g.regionCount n
  let (rows, removed) ← rotateUp g.cursor.row g.scrollBottom (blankLine g.cols) n g.rows
  some (markAllDirty { g with rows }, removed)

def fillScreen (ch : Char) : Option Grid := do
  let rows := g.rows.map fun row => row.map fun _ => { Cell.default with ch }
  let g ← setCursor { g with rows } 0 0
  some g.markAllDirty

/-! ### Resizing -/

/-- A row of the grid in a new width; half a wide glyph at its end is cleared. -/
def fitRow (cols : ℕ) (line : Line) : Option Line := do
  let cells := fitWidth cols line
  if 0 < cols then do
    let col ← Checked.sub cols 1
    let last ← cells[col]?
    if last.isWide then Checked.set cells col Cell.default else some cells
  else some cells

/-- Keep the top rows of the old screen, and fill up with blank ones. -/
def resizeRows (cols rows : ℕ) : List Line :=
  if rows < g.rowCount then g.rows.take rows
  else g.rows ++ List.replicate (rows - g.rowCount) (blankLine cols)

/-- Resize the grid and keep what is on it; a size out of bounds is an error. -/
def resize (cols rows : ℕ) : Option (Except GridError Grid) :=
  if sizeInBounds cols rows then do
    let lines ← (g.resizeRows cols rows).mapM (fitRow cols)
    let g := { g with rows := lines, cols, rowCount := rows }
    let cursor ← g.clampCursor g.cursor.row g.cursor.col
    let savedCursor ← g.clampCursor g.savedCursor.row g.savedCursor.col
    let lastRow ← Checked.sub rows 1
    let scrollBottom := if rows ≤ g.scrollBottom then lastRow else g.scrollBottom
    let scrollTop := if scrollBottom < g.scrollTop then 0 else g.scrollTop
    some (.ok { g with
      cursor, savedCursor, scrollTop, scrollBottom
      tabStops := defaultTabStops cols
      dirty := List.replicate rows true
      dirtyAll := true
      wrapPending := false })
  else some (.error (.badSize cols rows))

end Grid

end Ferrokey.Terminal
