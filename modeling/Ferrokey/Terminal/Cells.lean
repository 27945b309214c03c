import Ferrokey.Terminal.Bounds

/-! # Rows, cell by cell

What the operations on rows come to: one cell is written, the cells between two columns
are blanked, one row is rewritten and marked, and the lines of a region move up by one.
-/

namespace Ferrokey.Terminal

variable {rows rows' : List Line} {l : Line} {row col lo hi : ℕ}

theorem setCell_some {cell : Cell} (h : setCell rows row col cell = some rows') :
    ∃ l, rows[row]? = some l ∧ col < l.length ∧ rows' = rows.set row (l.set col cell) := by
  simp only [setCell, Checked.set, Option.bind_eq_bind, Option.bind_eq_some_iff] at h
  obtain ⟨l, hl, l', hset, hrows⟩ := h
  split at hset
  next hcol =>
    cases hset
    split at hrows
    next hrow =>
      cases hrows
      exact ⟨l, hl, hcol, rfl⟩
    next => cases hrows
  next => cases hset

theorem setCell_eq {cell : Cell} (hl : rows[row]? = some l) (hcol : col < l.length) :
    setCell rows row col cell = some (rows.set row (l.set col cell)) := by
  have hrow : row < rows.length := (List.getElem?_eq_some_iff.mp hl).1
  simp [setCell, hl, Checked.set_eq hcol, Checked.set_eq hrow]

/-! ### Blank cells -/

/-- A line whose cells are blank from one column up to another. -/
def blanked (lo hi : ℕ) (l : Line) : Line :=
  l.take lo ++ List.replicate (hi - lo) Cell.default ++ l.drop hi

theorem blanked_full (l : Line) : blanked 0 l.length l = blankLine l.length := by
  simp [blanked, blankLine]

/-- Blanking from a column on begins with that column. -/
theorem blanked_set (hlo : lo < hi) (hhi : hi ≤ l.length) :
    blanked (lo + 1) hi (l.set lo Cell.default) = blanked lo hi l := by
  have htake : (l.set lo Cell.default).take (lo + 1) = l.take lo ++ [Cell.default] := by
    rw [List.take_add_one, List.take_set_of_le le_rfl,
      List.getElem?_set_self (hlo.trans_le hhi), Option.toList_some]
  have hcount : hi - lo = hi - (lo + 1) + 1 := by omega
  rw [blanked, blanked, htake, List.drop_set_of_lt hlo, hcount, List.replicate_succ]
  simp

theorem blankRange_eq (hl : rows[row]? = some l) (hlo : lo ≤ hi) (hhi : hi ≤ l.length) :
    blankRange rows row lo hi = some (rows.set row (blanked lo hi l)) := by
  obtain ⟨n, rfl⟩ := Nat.exists_eq_add_of_le hlo
  rw [blankRange, Nat.add_sub_cancel_left]
  induction n generalizing rows l lo with
  | zero =>
    have hrow := (List.getElem?_eq_some_iff.mp hl).1
    have hget : rows[row] = l := (List.getElem?_eq_some_iff.mp hl).2
    simp [blanked, ← hget]
  | succ n ih =>
    have hrow : row < rows.length := (List.getElem?_eq_some_iff.mp hl).1
    rw [List.range'_succ, List.foldlM_cons, setCell_eq hl (by omega)]
    have hcount : lo + 1 + n = lo + (n + 1) := by omega
    have hline : (rows.set row (l.set lo Cell.default))[row]? = some (l.set lo Cell.default) :=
      List.getElem?_set_self hrow
    refine (ih hline (Nat.le_add_right (lo + 1) n) (by rw [List.length_set]; omega)).trans ?_
    rw [List.set_set, hcount, blanked_set (by omega) hhi]

/-- Blanking rows leaves blank lines between two rows. -/
theorem Grid.blankRows_eq {g : Grid} {n : ℕ} (h : Shape rows n g.cols) (hlo : lo ≤ hi)
    (hhi : hi ≤ n) : g.blankRows rows lo hi =
      some (rows.take lo ++ List.replicate (hi - lo) (blankLine g.cols) ++ rows.drop hi) := by
  obtain ⟨k, rfl⟩ := Nat.exists_eq_add_of_le hlo
  rw [Grid.blankRows, Nat.add_sub_cancel_left]
  induction k generalizing rows lo with
  | zero => simp
  | succ k ih =>
    obtain ⟨l, hl, hcols⟩ := h.getElem (i := lo) (by omega)
    have hlen : lo < rows.length := (List.getElem?_eq_some_iff.mp hl).1
    have hblank := blankRange_eq hl (Nat.zero_le g.cols) hcols.ge
    rw [← hcols, blanked_full, hcols] at hblank
    have hshape : Shape (rows.set lo (blankLine g.cols)) n g.cols := by
      obtain ⟨_, hset, hshape⟩ := h.set (i := lo) (by omega) (length_blankLine g.cols)
      rw [Checked.set_eq hlen] at hset
      cases hset
      exact hshape
    have hcount : lo + 1 + k = lo + (k + 1) := by omega
    rw [List.range'_succ, List.foldlM_cons, hblank]
    refine (ih hshape (Nat.le_add_right (lo + 1) k) (by omega)).trans ?_
    rw [List.take_add_one, List.take_set_of_le le_rfl, List.getElem?_set_self hlen,
      List.drop_set_of_lt (by omega), hcount, List.replicate_succ]
    simp

/-- Marking a row changes nothing but the marks. -/
theorem Grid.markDirtyRow_some {g g' : Grid} (h : g.markDirtyRow row = some g') :
    ∃ dirty revision, g' = { g with dirty, revision } := by
  unfold Grid.markDirtyRow at h
  split at h
  · obtain ⟨dirty, -, hg'⟩ := Option.bind_eq_some_iff.mp h
    cases hg'
    exact ⟨dirty, _, rfl⟩
  · cases h
    exact ⟨_, _, rfl⟩

/-! ### A row that is rewritten -/

namespace Grid

variable {g : Grid} {c r : ℕ}

def cellAt (g : Grid) (row col : ℕ) : Option Cell := g.rows[row]?.bind (·[col]?)

/-- The line of the cursor. -/
def cursorLine (g : Grid) : Line := (g.rows[g.cursor.row]?).getD []

/-- A row with another line, marked as dirty. -/
def putRow (g : Grid) (row : ℕ) (l : Line) : Grid :=
  { g with
    rows := g.rows.set row l
    dirty := g.dirty.set row true
    revision := g.revision + 1 }

theorem Sized.getElem?_cursorLine (h : g.Sized c r) :
    g.rows[g.cursor.row]? = some g.cursorLine := by
  obtain ⟨l, hl, -⟩ := h.shape.getElem h.cursor.1
  rw [cursorLine, hl, Option.getD_some]

theorem Sized.length_cursorLine (h : g.Sized c r) : g.cursorLine.length = c :=
  h.shape.2 _ (List.mem_of_getElem? h.getElem?_cursorLine)

theorem Sized.markDirtyRow_eq (h : g.Sized c r) {rows : List Line} {row : ℕ} (hrow : row < r) :
    Grid.markDirtyRow { g with rows } row = some { g with
      rows
      dirty := g.dirty.set row true
      revision := g.revision + 1 } := by
  have hcount : row < g.rowCount := hrow.trans_eq h.rowCount_eq.symm
  simp [Grid.markDirtyRow, hcount, Checked.set_eq (hrow.trans_eq h.dirty.symm)]

theorem Sized.setLine (h : g.Sized c r) (l : Line) :
    Checked.set g.rows g.cursor.row l = some (g.rows.set g.cursor.row l) :=
  Checked.set_eq (h.cursor.1.trans_eq h.shape.1.symm)

/-- The cells right of the cursor that a count asks for. -/
def room (g : Grid) (n : ℕ) : ℕ := min n (g.cols - g.cursor.col)

theorem Sized.lineCount_eq (h : g.Sized c r) (n : ℕ) : g.lineCount n = some (g.room n) := by
  have hle : g.cursor.col ≤ g.cols := h.cursor.2.le.trans_eq h.cols_eq.symm
  simp [Grid.lineCount, Checked.sub_eq hle, room]

theorem Sized.room_le (h : g.Sized c r) (n : ℕ) : g.cursor.col + g.room n ≤ c := by
  have hcol := h.cursor.2
  have hcols := h.cols_eq
  unfold room
  omega

/-- What is pushed over the end of a line by blank cells is cut off. -/
theorem take_inserted {l : Line} {cols col k : ℕ} (hlen : l.length = cols)
    (hroom : col + k ≤ cols) :
    (l.take col ++ List.replicate k Cell.default ++ l.drop col).take cols =
      l.take col ++ List.replicate k Cell.default ++ (l.take (cols - k)).drop col := by
  have hfirst : (l.take col ++ List.replicate k Cell.default).length = col + k := by
    rw [List.length_append, List.length_take, List.length_replicate]
    omega
  have hrest : cols - (col + k) = cols - k - col := by omega
  rw [List.take_append, hfirst, hrest, List.take_of_length_le (by omega), List.drop_take]

theorem Sized.insertChars_eq (h : g.Sized c r) (n : ℕ) : g.insertChars n = some (g.putRow
    g.cursor.row (g.cursorLine.take g.cursor.col ++ List.replicate (g.room n) Cell.default ++
      (g.cursorLine.take (c - g.room n)).drop g.cursor.col)) := by
  have hlen := h.length_cursorLine
  have hcol := h.cursor.2
  have hcut : (g.cursorLine.take g.cursor.col ++ List.replicate (g.room n) Cell.default ++
      g.cursorLine.drop g.cursor.col).take g.cols =
        g.cursorLine.take g.cursor.col ++ List.replicate (g.room n) Cell.default ++
          (g.cursorLine.take (c - g.room n)).drop g.cursor.col := by
    rw [h.cols_eq]
    exact take_inserted hlen (h.room_le n)
  rw [Grid.insertChars, h.lineCount_eq, h.getElem?_cursorLine]
  simp only [Option.bind_eq_bind, Option.bind_some]
  rw [Checked.splice_eq (by omega), Option.bind_some, hcut, h.setLine, Option.bind_some,
    h.markDirtyRow_eq h.cursor.1]
  rfl

theorem Sized.deleteChars_eq (h : g.Sized c r) (n : ℕ) : g.deleteChars n = some (g.putRow
    g.cursor.row (g.cursorLine.take g.cursor.col ++ g.cursorLine.drop (g.cursor.col + g.room n) ++
      List.replicate (g.room n) Cell.default)) := by
  have hlen := h.length_cursorLine
  have hroom := h.room_le n
  rw [Grid.deleteChars, h.lineCount_eq, h.getElem?_cursorLine]
  simp only [Option.bind_eq_bind, Option.bind_some]
  rw [Checked.drain_eq (Nat.le_add_right _ _) (by omega), Option.bind_some, h.setLine,
    Option.bind_some, h.markDirtyRow_eq h.cursor.1]
  rfl

/-- Cells of the row of the cursor are blanked. -/
theorem Sized.putBlanked (h : g.Sized c r) {lo hi : ℕ} (hlo : lo ≤ hi) (hhi : hi ≤ c) :
    (blankRange g.rows g.cursor.row lo hi).bind
      (fun rows => Grid.markDirtyRow { g with rows } g.cursor.row) =
        some (g.putRow g.cursor.row (blanked lo hi g.cursorLine)) := by
  rw [blankRange_eq h.getElem?_cursorLine hlo (hhi.trans_eq h.length_cursorLine.symm),
    Option.bind_some, h.markDirtyRow_eq h.cursor.1]
  rfl

theorem Sized.eraseChars_eq (h : g.Sized c r) (n : ℕ) : g.eraseChars n = some (g.putRow
    g.cursor.row (blanked g.cursor.col (g.cursor.col + g.room n) g.cursorLine)) := by
  rw [Grid.eraseChars, h.lineCount_eq]
  exact h.putBlanked (Nat.le_add_right _ _) (h.room_le n)

theorem lineRange_le (h : g.Sized c r) (mode : ℕ) :
    (g.lineRange mode).1 ≤ (g.lineRange mode).2 := by
  have hcol := h.cursor.2.le.trans_eq h.cols_eq.symm
  match mode with
  | 0 => exact hcol
  | 1 => exact Nat.zero_le _
  | _ + 2 => exact Nat.zero_le _

theorem Sized.eraseInLine_eq (h : g.Sized c r) (mode : ℕ) : g.eraseInLine mode = some (g.putRow
    g.cursor.row (blanked (g.lineRange mode).1 (g.lineRange mode).2 g.cursorLine)) :=
  h.putBlanked (lineRange_le h mode) (h.lineRange mode)

/-- The cells of a glyph. -/
def glyphCells (cell : Cell) (width : ℕ) : Line :=
  if width = 2 then [cell.setFlag CellFlags.wide, Cell.default.setFlag CellFlags.wideCont]
  else [cell]

/-- A glyph takes its cells if there is room for them. -/
theorem Sized.putCell_eq (h : g.Sized c r) {cell : Cell} {width : ℕ}
    (hroom : width = 2 → g.cursor.col + 2 ≤ c) : g.putCell cell width = some (g.rows.set
      g.cursor.row (g.cursorLine.take g.cursor.col ++ glyphCells cell width ++
        g.cursorLine.drop (g.cursor.col + (glyphCells cell width).length))) := by
  have hlen := h.length_cursorLine
  have hcol := h.cursor.2
  have hrow : g.cursor.row < g.rows.length := h.cursor.1.trans_eq h.shape.1.symm
  have hset (cell : Cell) : g.cursorLine.set g.cursor.col cell =
      g.cursorLine.take g.cursor.col ++ [cell] ++ g.cursorLine.drop (g.cursor.col + 1) := by
    rw [List.set_eq_take_append_cons_drop, if_pos (by omega)]
    simp
  have hfirst : setCell g.rows g.cursor.row g.cursor.col
      (if width = 2 then cell.setFlag CellFlags.wide else cell) = some (g.rows.set g.cursor.row
        (g.cursorLine.set g.cursor.col
          (if width = 2 then cell.setFlag CellFlags.wide else cell))) :=
    setCell_eq h.getElem?_cursorLine (by omega)
  rw [Grid.putCell]
  simp only [hfirst, Option.bind_eq_bind, Option.bind_some]
  by_cases hwide : width = 2
  · have hnext : g.cursor.col + 1 < c := hroom hwide
    have htwo : (g.cursorLine.set g.cursor.col (cell.setFlag CellFlags.wide)).set
        (g.cursor.col + 1) (Cell.default.setFlag CellFlags.wideCont) =
          g.cursorLine.take g.cursor.col ++ glyphCells cell width ++
            g.cursorLine.drop (g.cursor.col + 2) := by
      rw [List.set_eq_take_append_cons_drop, if_pos (by rw [List.length_set]; omega),
        List.take_add_one, List.take_set_of_le le_rfl, List.getElem?_set_self (by omega),
        List.drop_set_of_lt (by omega)]
      simp [glyphCells, hwide]
    rw [if_pos ⟨hwide, hnext.trans_eq h.cols_eq.symm⟩, if_pos hwide,
      setCell_eq (List.getElem?_set_self hrow) (by rw [List.length_set]; omega), List.set_set, htwo]
    simp [glyphCells, hwide]
  · rw [if_neg fun hboth => hwide hboth.1, if_neg hwide, hset]
    simp [glyphCells, hwide]

/-- The line of the cursor with a glyph at the cursor. -/
def glyphLine (g : Grid) (cell : Cell) (width : ℕ) : Line :=
  g.cursorLine.take g.cursor.col ++ glyphCells cell width ++
    g.cursorLine.drop (g.cursor.col + (glyphCells cell width).length)

theorem Sized.putGlyph_eq (h : g.Sized c r) (cell : Cell) {width : ℕ}
    (hroom : width = 2 → g.cursor.col + 2 ≤ c) : ∃ col wrapPending, g.putGlyph cell width =
      some { g.putRow g.cursor.row (g.glyphLine cell width) with
        cursor := { g.cursor with col }, wrapPending } := by
  have hpos : 1 ≤ g.cols := h.cols_pos.trans_eq h.cols_eq.symm
  rw [Grid.putGlyph, h.putCell_eq hroom]
  simp only [Option.bind_eq_bind, Option.bind_some]
  rw [h.markDirtyRow_eq h.cursor.1, Option.bind_some]
  unfold Grid.advanceCursor
  split
  · rw [Checked.sub_eq hpos]
    exact ⟨_, _, rfl⟩
  · exact ⟨_, _, rfl⟩

/-- The cell that takes a character of no width, if one does. -/
def attachee (g : Grid) : Option Cell :=
  if 0 < g.cursor.col then
    (g.cursorLine[g.cursor.col - 1]?).filter fun cell =>
      decide (cell.combining.length < maxCombining)
  else none

/-- The screen after a character of no width. -/
def attached (g : Grid) (ch : Char) : Grid :=
  match g.attachee with
  | some cell =>
    g.putRow g.cursor.row
      (g.cursorLine.set (g.cursor.col - 1) { cell with combining := cell.combining ++ [ch] })
  | none => g

theorem Sized.attach_eq (h : g.Sized c r) (ch : Char) : g.attach ch = some (g.attached ch) := by
  unfold Grid.attach attached attachee
  split
  next hpos =>
    have hlt : g.cursor.col - 1 < g.cursorLine.length := by
      have hlen := h.length_cursorLine
      have hcol := h.cursor.2
      omega
    rw [Checked.sub_eq hpos, h.getElem?_cursorLine]
    simp only [Option.bind_eq_bind, Option.bind_some, List.getElem?_eq_getElem hlt,
      Option.filter_some, decide_eq_true_eq]
    split
    next hroom =>
      rw [setCell_eq h.getElem?_cursorLine hlt, Option.bind_some, h.markDirtyRow_eq h.cursor.1]
      rfl
    next hfull => rfl
  next => rfl

end Grid

/-! ### A region that moves up -/

/-- The lines of a region moved up by one, with a blank one at its bottom. -/
def movedUp (top bottom cols : ℕ) (rows : List Line) : List Line :=
  (rows.eraseIdx top).insertIdx bottom (blankLine cols)

theorem length_movedUp {top bottom cols : ℕ} (htop : top ≤ bottom)
    (hbottom : bottom < rows.length) :
    (movedUp top bottom cols rows).length = rows.length := by
  have herase := List.length_eraseIdx_of_lt (htop.trans_lt hbottom)
  rw [movedUp, List.length_insertIdx_of_le_length (by omega), herase]
  omega

theorem getElem?_movedUp {top bottom : ℕ} (cols i : ℕ) (htop : top ≤ bottom)
    (hbottom : bottom < rows.length) : (movedUp top bottom cols rows)[i]? =
      if i = bottom then some (blankLine cols)
      else if top ≤ i ∧ i < bottom then rows[i + 1]? else rows[i]? := by
  have herase := List.length_eraseIdx_of_lt (htop.trans_lt hbottom)
  rw [movedUp, List.getElem?_insertIdx, herase]
  simp only [List.getElem?_eraseIdx]
  split_ifs <;> first | rfl | omega | (congr 1; omega)

end Ferrokey.Terminal
