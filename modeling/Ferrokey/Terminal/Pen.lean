import Ferrokey.Terminal.Appending
import Ferrokey.Terminal.Cells
import Ferrokey.Terminal.Plain

/-! # Where text goes

Where plain text goes depends on the cursor and the scroll region and on no cell. They
are kept apart here as a pen, whose strokes tell which rows are written and when the
region moves up. The screen follows the strokes of its pen.
-/

namespace Ferrokey.Terminal

/-- The width of a screen and its scroll region. -/
structure Region where
  cols : ℕ
  top : ℕ
  bottom : ℕ

/-- What the screen needs to know to place text. -/
structure Pen where
  region : Region
  cursor : Pos
  wrapPending : Bool

/-- The rows after the lines of the region moved up by one. -/
def Region.movedUp (region : Region) (rows : List Line) : List Line :=
  Terminal.movedUp region.top region.bottom region.cols rows

/-- What text does to the rows of a screen. -/
inductive Stroke where
  /-- The lines of the scroll region move up by one. -/
  | scroll
  /-- A cell of a row is written. -/
  | write (row : ℕ)

namespace Pen

variable (p : Pen)

def setCol (col : ℕ) : Pen := { p with cursor := { p.cursor with col } }

def nextRow : Pen × List Stroke :=
  if p.cursor.row < p.region.bottom then
    ({ p with cursor := { p.cursor with row := p.cursor.row + 1 }, wrapPending := false }, [])
  else ({ p with wrapPending := false }, [.scroll])

def wrap (width : ℕ) : Pen × List Stroke :=
  if p.wrapPending || (decide (1 < width) && decide (p.region.cols < p.cursor.col + width)) then
    (p.nextRow.1.setCol 0, p.nextRow.2)
  else (p, [])

def advance (width : ℕ) : Pen :=
  if p.region.cols ≤ p.cursor.col + width then
    { p.setCol (p.region.cols - 1) with wrapPending := true }
  else { p.setCol (p.cursor.col + width) with wrapPending := false }

theorem wrapPending_advance (width : ℕ) :
    (p.advance width).wrapPending = decide (p.region.cols ≤ p.cursor.col + width) := by
  unfold advance
  split
  next hle => exact (decide_eq_true hle).symm
  next hlt => exact (decide_eq_false hlt).symm

/-- A glyph of a width; one of no width goes to the cell before the cursor, if there is one. -/
def glyph (width : ℕ) : Pen × List Stroke :=
  if width = 0 then (p, if 0 < p.cursor.col then [.write p.cursor.row] else [])
  else
    ((p.wrap width).1.advance width,
      (p.wrap width).2 ++ [.write (p.wrap width).1.cursor.row])

def step (tables : UnicodeTables) : ParserAction → Pen × List Stroke
  | .print ch => p.glyph ((tables.width ch).getD 0)
  | .control .lineFeed => p.nextRow
  | .control .carriageReturn => ({ p.setCol 0 with wrapPending := false }, [])
  | _ => (p, [])

/-- The strokes of text. -/
def strokes (tables : UnicodeTables) : Pen → List ParserAction → List Stroke
  | _, [] => []
  | p, a :: actions => (p.step tables a).2 ++ strokes tables (p.step tables a).1 actions

/-! The region stays. -/

theorem region_nextRow : p.nextRow.1.region = p.region := by
  unfold nextRow
  split <;> rfl

theorem region_wrap (width : ℕ) : (p.wrap width).1.region = p.region := by
  unfold wrap
  split
  · exact p.region_nextRow
  · rfl

theorem region_advance (width : ℕ) : (p.advance width).region = p.region := by
  unfold advance
  split <;> rfl

theorem region_glyph (width : ℕ) : (p.glyph width).1.region = p.region := by
  unfold glyph
  split
  · rfl
  · exact (region_advance _ _).trans (p.region_wrap _)

theorem region_step (tables : UnicodeTables) (a : ParserAction) :
    (p.step tables a).1.region = p.region := by
  cases a with
  | print ch => exact p.region_glyph _
  | control code =>
    cases code with
    | lineFeed => exact p.region_nextRow
    | _ => rfl
  | _ => rfl

/-- How many lines text scrolls out. -/
def scrolls (tables : UnicodeTables) (p : Pen) (actions : List ParserAction) : ℕ :=
  (p.strokes tables actions).countP fun s => s matches .scroll

end Pen

/-- A line with a cell in the colour of the text, or with a character attached to a cell. -/
def Inked (attrs : CellAttrs) (l : Line) : Prop := ∃ c ∈ l, c.fg = attrs.fg ∨ c.combining ≠ []

/-- What strokes make of the rows of a screen, and the lines that they take out. -/
inductive Drawn (attrs : CellAttrs) (region : Region) :
    List Stroke → List Line → List Line → List Line → Prop where
  | nil (rows : List Line) : Drawn attrs region [] rows rows []
  | scroll {rows rows' out : List Line} {l : Line} {strokes : List Stroke} :
    rows[region.top]? = some l → Drawn attrs region strokes (region.movedUp rows) rows' out →
    Drawn attrs region (.scroll :: strokes) rows rows' (l :: out)
  | write {rows rows' out : List Line} {l l' : Line} {row : ℕ} {strokes : List Stroke} :
    rows[row]? = some l → l'.length = l.length → Inked attrs l' →
    Drawn attrs region strokes (rows.set row l') rows' out →
    Drawn attrs region (.write row :: strokes) rows rows' out

namespace Drawn

variable {attrs : CellAttrs} {region : Region} {strokes strokes' : List Stroke}
  {rows rows' rows'' out out' : List Line}

theorem append (h : Drawn attrs region strokes rows rows' out)
    (h' : Drawn attrs region strokes' rows' rows'' out') :
    Drawn attrs region (strokes ++ strokes') rows rows'' (out ++ out') := by
  induction h with
  | nil => exact h'
  | scroll htop _ ih => exact .scroll htop (ih h')
  | write hrow hlen hinked _ ih => exact .write hrow hlen hinked (ih h')

/-- Each scroll takes one line out. -/
theorem length_out (h : Drawn attrs region strokes rows rows' out) :
    out.length = strokes.countP fun s => s matches .scroll := by
  induction h with
  | nil => rfl
  | scroll _ _ ih => simp [ih]
  | write _ _ _ _ ih => simp [ih]

theorem single {row : ℕ} {l l' : Line} (hrow : rows[row]? = some l) (hlen : l'.length = l.length)
    (hinked : Inked attrs l') :
    Drawn attrs region [.write row] rows (rows.set row l') [] :=
  .write hrow hlen hinked (.nil _)

end Drawn

namespace Grid

def region (g : Grid) : Region := ⟨g.cols, g.scrollTop, g.scrollBottom⟩

def pen (g : Grid) : Pen := ⟨g.region, g.cursor, g.wrapPending⟩

/-- The rows follow the strokes, and the pen goes on. -/
structure Follows (attrs : CellAttrs) (g : Grid) (out : Pen × List Stroke)
    (g' : Grid) (scrolled : List Line) : Prop where
  pen : g'.pen = out.1
  drawn : Drawn attrs g.region out.2 g.rows g'.rows scrolled

variable {g g' : Grid} {c r : ℕ} {attrs : CellAttrs}

theorem Sized.getElem?_scrollTop (h : g.Sized c r) : g.rows[g.scrollTop]? = some g.topLine := by
  obtain ⟨l, hl, -⟩ := h.shape.getElem (h.region.1.trans_lt h.region.2)
  rw [topLine, hl, Option.getD_some]

/-- The screen after a line feed. -/
def fed (g : Grid) : Grid :=
  if g.atBottom then
    { g with rows := g.region.movedUp g.rows, dirtyAll := true, wrapPending := false }
  else { g with cursor := { g.cursor with row := g.cursor.row + 1 }, wrapPending := false }

/-- The screen that a glyph is put on. -/
def wrapped (g : Grid) (width : ℕ) : Grid :=
  if g.wraps width then { g.fed with cursor := { g.fed.cursor with col := 0 } } else g

theorem Sized.index_eq (h : g.Sized c r) : g.index = some (g.fed, g.fedLine) := by
  have h' := h.noWrap
  by_cases hlt : g.cursor.row < g.scrollBottom
  · have habove : g.atBottom = false := decide_eq_false (not_le.mpr hlt)
    simp [Grid.index, hlt, fed, fedLine, habove]
  · have hbottom : g.atBottom = true := decide_eq_true (not_lt.mp hlt)
    have hscroll := h'.scrollUpRegion_one.2.2
    simp only [Grid.index, hlt, if_false, hscroll, fed, fedLine, hbottom, if_true,
      Option.bind_eq_bind, Option.bind_some]
    rfl

theorem Sized.lineFeed_eq (h : g.Sized c r) : g.lineFeed = some (g.fed, g.fedLine) :=
  h.lineFeed_eq_index.trans h.index_eq

theorem Sized.wrap_eq (h : g.Sized c r) {width : ℕ} (hwidth : width ≠ 0) :
    g.wrap width = some (g.wrapped width, if g.wraps width then g.fedLine else none) := by
  have hwraps : g.wraps width =
      (g.wrapPending || (decide (1 < width) && decide (g.cols < g.cursor.col + width))) := by
    simp [wraps, hwidth]
  rw [Grid.wrap, wrapped, ← hwraps]
  cases g.wraps width with
  | true => simp [h.index_eq]
  | false => rfl

theorem Sized.wrapped (h : g.Sized c r) {width : ℕ} (hwidth : width ≠ 0) :
    (g.wrapped width).Sized c r := by
  obtain ⟨out, hout, hsized⟩ := h.wrap width
  rw [h.wrap_eq hwidth] at hout
  cases hout
  exact hsized

/-- Wherever a wide glyph is put, there is room for both of its cells. -/
theorem Sized.wrapped_room (h : g.Sized c r) : (g.wrapped 2).cursor.col + 2 ≤ c := by
  obtain ⟨⟨hcols, -⟩, -⟩ := sizeInBounds_iff.mp h.bounds
  unfold Grid.wrapped
  split
  · simpa [minCols] using hcols
  next hstays =>
    have hroom : ¬ g.cols < g.cursor.col + 2 := fun hlt => hstays (by simp [wraps, hlt])
    have hwidth := h.cols_eq
    omega

theorem Sized.print_eq (h : g.Sized c r) {tables : UnicodeTables} {ch : Char} {width : ℕ}
    (hwidth : (tables.width ch).getD 0 = width) (hne : width ≠ 0) (attrs : CellAttrs) :
    ∃ col wrapPending, g.print tables ch attrs = some (
      { (g.wrapped width).putRow (g.wrapped width).cursor.row
          ((g.wrapped width).glyphLine (makeCell ch attrs) width) with
        cursor := { (g.wrapped width).cursor with col }, wrapPending },
      if g.wraps width then g.fedLine else none) := by
  have hroom : width = 2 → (g.wrapped width).cursor.col + 2 ≤ c := by
    rintro rfl
    exact h.wrapped_room
  obtain ⟨col, wrapPending, hput⟩ := (h.wrapped hne).putGlyph_eq (makeCell ch attrs) hroom
  refine ⟨col, wrapPending, ?_⟩
  rw [Grid.print, hwidth]
  simp only [if_neg hne, h.wrap_eq hne, hput, Option.bind_eq_bind, Option.bind_some]

theorem Sized.print_attach (h : g.Sized c r) {tables : UnicodeTables} {ch : Char}
    (hwidth : (tables.width ch).getD 0 = 0) (attrs : CellAttrs) :
    g.print tables ch attrs = some (g.attached ch, none) := by
  rw [Grid.print, hwidth]
  simp only [if_true, h.attach_eq, Option.bind_eq_bind, Option.bind_some]

theorem Sized.fed_follows (h : g.Sized c r) (attrs : CellAttrs) :
    Follows attrs g g.pen.nextRow g.fed g.fedLine.toList := by
  by_cases hlt : g.cursor.row < g.scrollBottom
  · have habove : g.atBottom = false := decide_eq_false (not_le.mpr hlt)
    have hnext : g.pen.nextRow = ({ g.pen with
        cursor := { g.cursor with row := g.cursor.row + 1 }, wrapPending := false }, []) :=
      if_pos hlt
    rw [hnext, Grid.fed, fedLine, habove]
    exact ⟨rfl, .nil _⟩
  · have hbottom : g.atBottom = true := decide_eq_true (not_lt.mp hlt)
    have hnext : g.pen.nextRow = ({ g.pen with wrapPending := false }, [.scroll]) := if_neg hlt
    rw [hnext, Grid.fed, fedLine, hbottom]
    exact ⟨rfl, .scroll h.getElem?_scrollTop (.nil _)⟩

theorem Sized.lineFeed_follows (h : g.Sized c r) {scrolled : Option Line}
    (hout : g.lineFeed = some (g', scrolled)) :
    Follows attrs g g.pen.nextRow g' scrolled.toList := by
  rw [h.lineFeed_eq] at hout
  cases hout
  exact h.fed_follows attrs

theorem Sized.wrap_follows (h : g.Sized c r) (attrs : CellAttrs) {width : ℕ} (hwidth : width ≠ 0) :
    Follows attrs g (g.pen.wrap width) (g.wrapped width)
      (if g.wraps width then g.fedLine else none).toList := by
  have hwraps : g.wraps width =
      (g.wrapPending || (decide (1 < width) && decide (g.cols < g.cursor.col + width))) := by
    simp [wraps, hwidth]
  have hwrap : g.pen.wrap width =
      if g.wraps width then (g.pen.nextRow.1.setCol 0, g.pen.nextRow.2) else (g.pen, []) := by
    rw [hwraps]
    rfl
  rw [hwrap, Grid.wrapped]
  cases g.wraps width with
  | true =>
    obtain ⟨hpen, hdrawn⟩ := h.fed_follows attrs
    exact ⟨congrArg (·.setCol 0) hpen, hdrawn⟩
  | false => exact ⟨rfl, .nil _⟩

theorem attach_follows {ch : Char} (hout : g.attach ch = some g') :
    Follows attrs g (g.pen.glyph 0) g' [] := by
  unfold Grid.attach at hout
  split at hout
  next hcol =>
    have hglyph : g.pen.glyph 0 = (g.pen, [.write g.cursor.row]) := by
      simp [Pen.glyph, Grid.pen, hcol]
    rw [hglyph]
    simp only [Checked.sub_eq (Nat.succ_le_of_lt hcol), Option.bind_eq_bind, Option.bind_some,
      Option.bind_eq_some_iff] at hout
    obtain ⟨l, hl, cell, hcell, hout⟩ := hout
    split at hout
    next hroom =>
      obtain ⟨rows, hset, hmark⟩ := Option.bind_eq_some_iff.mp hout
      obtain ⟨dirty, revision, rfl⟩ := markDirtyRow_some hmark
      obtain ⟨l', hl', hlt, rfl⟩ := setCell_some hset
      obtain rfl : l = l' := Option.some_inj.mp (hl.symm.trans hl')
      refine ⟨rfl, .single hl List.length_set ⟨_, List.mem_set hlt _, .inr ?_⟩⟩
      simp
    next hfull =>
      cases hout
      have hcombining : cell.combining ≠ [] := by
        rintro hnil
        simp [hnil, maxCombining] at hfull
      have hsame : g.rows.set g.cursor.row l = g.rows := by
        obtain ⟨hrow, hget⟩ := List.getElem?_eq_some_iff.mp hl
        rw [← hget, List.set_getElem_self hrow]
      have hdrawn : Drawn attrs g.region [.write g.cursor.row] g.rows
          (g.rows.set g.cursor.row l) [] :=
        .single hl rfl ⟨cell, List.mem_of_getElem? hcell, .inr hcombining⟩
      rw [hsame] at hdrawn
      exact ⟨rfl, hdrawn⟩
  next hcol =>
    cases hout
    have hglyph : g.pen.glyph 0 = (g.pen, []) := by simp [Pen.glyph, Grid.pen, hcol]
    rw [hglyph]
    exact ⟨rfl, .nil _⟩

theorem putCell_inked {cell : Cell} {width : ℕ} {rows : List Line}
    (hcell : cell.fg = attrs.fg) (h : g.putCell cell width = some rows) :
    ∃ l l', g.rows[g.cursor.row]? = some l ∧ l'.length = l.length ∧ Inked attrs l' ∧
      rows = g.rows.set g.cursor.row l' := by
  unfold Grid.putCell at h
  obtain ⟨rows₁, hfirst, h⟩ := Option.bind_eq_some_iff.mp h
  obtain ⟨l, hl, hcol, rfl⟩ := setCell_some hfirst
  have hrow := (List.getElem?_eq_some_iff.mp hl).1
  have hfg : (if width = 2 then cell.setFlag CellFlags.wide else cell).fg = attrs.fg := by
    split <;> exact hcell
  split at h
  next =>
    -- the other half of the glyph does not overwrite the first
    obtain ⟨l₁, hl₁, hcol₁, rfl⟩ := setCell_some h
    rw [List.getElem?_set_self hrow] at hl₁
    cases hl₁
    refine ⟨l, _, hl, by simp, ⟨_, ?_, .inl hfg⟩, List.set_set ..⟩
    apply List.mem_of_getElem? (i := g.cursor.col)
    rw [List.getElem?_set_ne (by omega), List.getElem?_set_self hcol]
  next =>
    cases h
    exact ⟨l, _, hl, List.length_set, ⟨_, List.mem_set hcol _, .inl hfg⟩, rfl⟩

theorem Sized.putGlyph_follows (h : g.Sized c r) {ch : Char} {width : ℕ}
    (hout : g.putGlyph (makeCell ch attrs) width = some g') :
    Follows attrs g (g.pen.advance width, [.write g.cursor.row]) g' [] := by
  simp only [Grid.putGlyph, Option.bind_eq_bind, Option.bind_eq_some_iff] at hout
  obtain ⟨rows, hrows, g₁, hmark, hadvance⟩ := hout
  have hfg : (makeCell ch attrs).fg = attrs.fg := rfl
  obtain ⟨l, l', hl, hlen, hinked, rfl⟩ := putCell_inked hfg hrows
  obtain ⟨dirty, revision, rfl⟩ := markDirtyRow_some hmark
  have hpos : 1 ≤ g.cols := h.cols_pos.trans_eq h.cols_eq.symm
  simp only [Grid.advanceCursor, Checked.sub_eq hpos, Option.bind_eq_bind,
    Option.bind_some] at hadvance
  split at hadvance
  next hfull =>
    cases hadvance
    have hadv : g.pen.advance width = { g.pen.setCol (g.cols - 1) with wrapPending := true } :=
      if_pos hfull
    rw [hadv]
    exact ⟨rfl, .single hl hlen hinked⟩
  next hroom =>
    cases hadvance
    have hadv : g.pen.advance width =
        { g.pen.setCol (g.cursor.col + width) with wrapPending := false } := if_neg hroom
    rw [hadv]
    exact ⟨rfl, .single hl hlen hinked⟩

theorem Sized.print_follows (h : g.Sized c r) {tables : UnicodeTables} {ch : Char}
    {scrolled : Option Line} (hout : g.print tables ch attrs = some (g', scrolled)) :
    Follows attrs g (g.pen.glyph ((tables.width ch).getD 0)) g' scrolled.toList := by
  unfold Grid.print at hout
  dsimp only at hout
  split at hout
  next hzero =>
    obtain ⟨g₁, hattach, hout'⟩ := Option.bind_eq_some_iff.mp hout
    cases hout'
    rw [hzero]
    exact attach_follows hattach
  next hwidth =>
    rw [h.wrap_eq hwidth] at hout
    simp only [Option.bind_eq_bind, Option.bind_some, Option.bind_eq_some_iff,
      Option.some.injEq] at hout
    obtain ⟨g₂, hput, heq⟩ := hout
    cases heq
    obtain ⟨hpen, hdrawn⟩ := h.wrap_follows attrs hwidth
    obtain ⟨hpen', hdrawn'⟩ := (h.wrapped hwidth).putGlyph_follows hput
    have hregion : (g.wrapped ((tables.width ch).getD 0)).region = g.region :=
      (congrArg Pen.region hpen).trans (g.pen.region_wrap _)
    have hcursor : (g.wrapped ((tables.width ch).getD 0)).cursor =
        (g.pen.wrap ((tables.width ch).getD 0)).1.cursor := congrArg Pen.cursor hpen
    have hglyph : g.pen.glyph ((tables.width ch).getD 0) =
        ((g.wrapped ((tables.width ch).getD 0)).pen.advance ((tables.width ch).getD 0),
          (g.pen.wrap ((tables.width ch).getD 0)).2 ++
            [.write (g.wrapped ((tables.width ch).getD 0)).cursor.row]) := by
      rw [Pen.glyph, if_neg hwidth, hpen, hcursor]
    rw [hglyph]
    rw [hregion] at hdrawn'
    refine ⟨hpen', ?_⟩
    simpa using hdrawn.append hdrawn'

/-- Where the pen goes with a glyph. -/
theorem Sized.print_pen (h : g.Sized c r) {tables : UnicodeTables} {ch : Char} {width : ℕ}
    (hwidth : (tables.width ch).getD 0 = width) (hne : width ≠ 0) {out : Grid × Option Line}
    (hout : g.print tables ch attrs = some out) :
    out.1.pen = (g.wrapped width).pen.advance width := by
  have hfollows := (h.print_follows hout).pen
  rw [hwidth, Pen.glyph, if_neg hne, ← (h.wrap_follows attrs hne).pen] at hfollows
  exact hfollows

theorem Sized.writeOne_follows (h : g.Sized c r) {tables : UnicodeTables} {a : ParserAction}
    {scrolled : Option Line} (hout : g.writeOne tables attrs a = some (g', scrolled)) :
    Follows attrs g (g.pen.step tables a) g' scrolled.toList := by
  cases a with
  | print ch => exact h.print_follows hout
  | control code =>
    cases code with
    | lineFeed => exact h.lineFeed_follows hout
    | _ =>
      cases hout
      exact ⟨rfl, .nil _⟩
  | _ =>
    cases hout
    exact ⟨rfl, .nil _⟩

/-- The screen follows the strokes of the pen. -/
theorem Sized.write_drawn (h : g.Sized c r) {tables : UnicodeTables} {actions : List ParserAction}
    {lines : List Line} (hout : g.write tables attrs actions = some (g', lines)) :
    Drawn attrs g.region (g.pen.strokes tables actions) g.rows g'.rows lines := by
  induction actions generalizing g lines with
  | nil =>
    cases hout
    exact .nil _
  | cons a actions ih =>
    simp only [Grid.write, Option.bind_eq_bind, Option.bind_eq_some_iff, Option.some.injEq] at hout
    obtain ⟨⟨g₁, scrolled⟩, hone, ⟨g₂, lines₂⟩, hrest, heq⟩ := hout
    cases heq
    obtain ⟨_, hsome, h₁⟩ := h.writeOne tables attrs a
    obtain rfl := Option.some_inj.mp (hsome.symm.trans hone)
    obtain ⟨hpen, hdrawn⟩ := h.writeOne_follows hone
    have hregion : g₁.region = g.region :=
      (congrArg Pen.region hpen).trans (g.pen.region_step tables a)
    have hdrawn' := ih h₁ hrest
    rw [hregion, hpen] at hdrawn'
    exact hdrawn.append hdrawn'

end Grid

end Ferrokey.Terminal
