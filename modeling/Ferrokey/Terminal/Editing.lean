import Ferrokey.Terminal.Cells

/-! # Editing a line

Inserting, deleting and erasing cells, row by row: a row after an edit is a function of
the row before it, which is written down here with no count, index or range left to be
checked. Nothing but the rows and their marks changes.
-/

set_option linter.dupNamespace false

namespace Ferrokey.Terminal

/-! ### Lines -/

section Lines

variable {l : Line} {cols col lo hi : ℕ}

/-- Blank cells come before a column, and the rest is cut to the width. -/
def inserted (cols col k : ℕ) (l : Line) : Line :=
  (l.take col ++ List.replicate k Cell.default ++ l.drop col).take cols

/-- Cells from a column on are left out, and as many blank ones come at the end. -/
def deleted (col k : ℕ) (l : Line) : Line :=
  l.take col ++ l.drop (col + k) ++ List.replicate k Cell.default

/-- The cells of some columns are blank. -/
def erased (named : ℕ → Bool) (l : Line) : Line :=
  l.mapIdx fun i cell => if named i then Cell.default else cell

/-- What an erasure names, columns or rows: 0 what comes from a position on, 1 what comes up to
it, else all. -/
def named (mode pos i : ℕ) : Bool :=
  match mode with
  | 0 => decide (pos ≤ i)
  | 1 => decide (i ≤ pos)
  | _ => true

/-- Entries from one position up to another are overwritten. -/
theorem getElem?_overwrite {α : Type*} {as : List α} (a : α) (hlo : lo ≤ hi) (hhi : hi ≤ as.length)
    (i : ℕ) : (as.take lo ++ List.replicate (hi - lo) a ++ as.drop hi)[i]? =
      if lo ≤ i ∧ i < hi then some a else as[i]? := by
  have hleft : (as.take lo).length = lo := by
    rw [List.length_take]
    omega
  split_ifs with hin
  · rw [List.append_assoc, List.getElem?_append_right (by omega), hleft,
      List.getElem?_append_left (by rw [List.length_replicate]; omega),
      List.getElem?_replicate_of_lt (by omega)]
  · rcases Nat.lt_or_ge i lo with hi' | hi'
    · rw [List.append_assoc, List.getElem?_append_left (by omega), List.getElem?_take_of_lt hi']
    · have hmid : (as.take lo ++ List.replicate (hi - lo) a).length = hi := by
        rw [List.length_append, hleft, List.length_replicate]
        omega
      rw [List.getElem?_append_right (by omega), hmid, List.getElem?_drop]
      congr 1
      omega

theorem blanked_eq_erased {p : ℕ → Bool} (hlo : lo ≤ hi) (hhi : hi ≤ l.length)
    (hp : ∀ i < l.length, p i = true ↔ lo ≤ i ∧ i < hi) : blanked lo hi l = erased p l := by
  ext1 i
  rw [blanked, getElem?_overwrite _ hlo hhi, erased, List.getElem?_mapIdx]
  rcases Nat.lt_or_ge i l.length with hi' | hi'
  · rw [List.getElem?_eq_getElem hi', Option.map_some, ← apply_ite some]
    simp only [hp i hi']
  · rw [List.getElem?_eq_none hi', if_neg (by omega), Option.map_none]

end Lines

namespace Grid

variable {g g' : Grid} {c r n : ℕ}

/-- An edit of the rows: each row becomes what the function makes of it, and the cursor and the
margins stay. -/
structure Edits (g : Grid) (f : ℕ → Line → Line) (g' : Grid) : Prop where
  rows : ∀ i, g'.rows[i]? = g.rows[i]?.map (f i)
  cursor : g'.cursor = g.cursor
  margins : g'.scrollTop = g.scrollTop ∧ g'.scrollBottom = g.scrollBottom

/-- The row of the cursor is edited alone. -/
def onCursorRow (g : Grid) (f : Line → Line) (i : ℕ) (l : Line) : Line :=
  if i = g.cursor.row then f l else l

/-- The row of the cursor is erased in some columns, the named rows beside it as a whole. -/
def erasedRow (g : Grid) (mode i : ℕ) (l : Line) : Line :=
  if i = g.cursor.row then erased (named mode g.cursor.col) l
  else if named mode g.cursor.row i then blankLine g.cols
  else l

theorem Sized.putRow_edits (h : g.Sized c r) {f : Line → Line} {l : Line}
    (hl : l = f g.cursorLine) : g.Edits (g.onCursorRow f) (g.putRow g.cursor.row l) := by
  refine ⟨fun i => ?_, rfl, rfl, rfl⟩
  have hrow : g.cursor.row < g.rows.length := h.cursor.1.trans_eq h.shape.1.symm
  unfold onCursorRow
  by_cases hi : i = g.cursor.row
  · rw [hi, h.getElem?_cursorLine]
    simp [putRow, hrow, hl]
  · simp [putRow, List.getElem?_set_ne (Ne.symm hi), hi]

theorem Sized.insertChars_edits (h : g.Sized c r) (n : ℕ) : Returns (g.insertChars n)
    (g.Edits (g.onCursorRow (inserted g.cols g.cursor.col (g.room n)))) := by
  refine .of_eq (h.insertChars_eq n) (h.putRow_edits ?_)
  rw [inserted, h.cols_eq, take_inserted h.length_cursorLine (h.room_le n)]

theorem Sized.deleteChars_edits (h : g.Sized c r) (n : ℕ) : Returns (g.deleteChars n)
    (g.Edits (g.onCursorRow (deleted g.cursor.col (g.room n)))) :=
  .of_eq (h.deleteChars_eq n) (h.putRow_edits rfl)

theorem Sized.eraseChars_edits (h : g.Sized c r) (n : ℕ) : Returns (g.eraseChars n)
    (g.Edits (g.onCursorRow (erased fun i =>
      decide (g.cursor.col ≤ i ∧ i < g.cursor.col + g.room n)))) := by
  have hlen := h.length_cursorLine
  refine .of_eq (h.eraseChars_eq n) (h.putRow_edits ?_)
  refine blanked_eq_erased (Nat.le_add_right _ _) ?_ ?_
  · exact (h.room_le n).trans_eq hlen.symm
  · simp

theorem Sized.named_lineRange (h : g.Sized c r) (mode i : ℕ) (hi : i < g.cursorLine.length) :
    named mode g.cursor.col i = true ↔ (g.lineRange mode).1 ≤ i ∧ i < (g.lineRange mode).2 := by
  have hlen := h.length_cursorLine
  have hcols := h.cols_eq
  match mode with
  | 0 =>
    simp only [named, Grid.lineRange, decide_eq_true_eq]
    omega
  | 1 =>
    simp only [named, Grid.lineRange, decide_eq_true_eq]
    omega
  | _ + 2 =>
    simp only [named, Grid.lineRange, true_iff]
    omega

/-- The columns that an erasure of the line names are blanked. -/
theorem Sized.blanked_lineRange (h : g.Sized c r) (mode : ℕ) :
    blanked (g.lineRange mode).1 (g.lineRange mode).2 g.cursorLine =
      erased (named mode g.cursor.col) g.cursorLine := by
  refine blanked_eq_erased (lineRange_le h mode) ?_ (h.named_lineRange mode)
  exact (h.lineRange mode).trans_eq h.length_cursorLine.symm

theorem Sized.eraseInLine_edits (h : g.Sized c r) (mode : ℕ) : Returns (g.eraseInLine mode)
    (g.Edits (g.onCursorRow (erased (named mode g.cursor.col)))) :=
  .of_eq (h.eraseInLine_eq mode) (h.putRow_edits (h.blanked_lineRange mode))

theorem getElem?_blankRows {rows : List Line} {lo hi : ℕ} (hshape : Shape rows n g.cols)
    (hlo : lo ≤ hi) (hhi : hi ≤ n) : Returns (g.blankRows rows lo hi) fun rows' =>
      ∀ i, rows'[i]? = rows[i]?.map fun l => if lo ≤ i ∧ i < hi then blankLine g.cols else l := by
  have hlen := hshape.1
  refine .of_eq (blankRows_eq hshape hlo hhi) fun i => ?_
  rw [getElem?_overwrite _ hlo (by omega)]
  split_ifs with hin
  · rw [List.getElem?_eq_getElem (by omega), Option.map_some]
  · rw [Option.map_id']

/-- A row beside the one of the cursor becomes blank exactly if it is named. -/
theorem Sized.erasedRow_beside (h : g.Sized c r) {mode i : ℕ} (hi : i ≠ g.cursor.row) {p : Prop}
    [Decidable p] (hp : i < r → (p ↔ named mode g.cursor.row i = true)) :
    (g.rows[i]?.map fun l => if p then blankLine g.cols else l) =
      g.rows[i]?.map (g.erasedRow mode i) := by
  cases hl : g.rows[i]? with
  | none => rfl
  | some l =>
    have hlt : i < r := h.shape.1 ▸ (List.getElem?_eq_some_iff.mp hl).1
    simp [erasedRow, hi, hp hlt]

theorem Sized.erasedRow_cursor (h : g.Sized c r) (mode : ℕ) :
    g.rows[g.cursor.row]?.map (g.erasedRow mode g.cursor.row) =
      some (blanked (g.lineRange mode).1 (g.lineRange mode).2 g.cursorLine) := by
  rw [h.getElem?_cursorLine, h.blanked_lineRange]
  simp [erasedRow]

theorem Sized.erasedRows_eq (h : g.Sized c r) (mode : ℕ) : Returns (g.erasedRows mode) fun rows =>
    ∀ i, rows[i]? = g.rows[i]?.map (g.erasedRow mode i) := by
  obtain ⟨hrow, hcol⟩ := h.cursor
  have hcount := h.rowCount_eq
  have hshape : Shape g.rows r g.cols := h.cols_eq.symm ▸ h.shape
  have hline := h.length_cursorLine
  have hin : g.cursor.row < g.rows.length := hrow.trans_eq h.shape.1.symm
  match mode with
  | 0 =>
    -- the row of the cursor first, then the ones below it
    have hblank := blankRange_eq h.getElem?_cursorLine (hcol.le.trans_eq h.cols_eq.symm)
      (h.cols_eq.trans hline.symm).le
    obtain ⟨rows₁, hrows₁, hshape₁⟩ :
        Returns (blankRange g.rows g.cursor.row g.cursor.col g.cols) (Shape · r g.cols) :=
      hshape.blankRange hrow le_rfl
    obtain rfl := Option.some_inj.mp (hblank.symm.trans hrows₁)
    rw [Grid.erasedRows, hblank]
    refine (getElem?_blankRows hshape₁ (hcount.symm ▸ hrow) hcount.le).mono fun rows hrows i => ?_
    rw [hrows i]
    by_cases hi : i = g.cursor.row
    · rw [hi, h.erasedRow_cursor 0, List.getElem?_set_self hin]
      simp [Grid.lineRange]
    · rw [List.getElem?_set_ne (Ne.symm hi)]
      apply h.erasedRow_beside hi
      intro hlt
      simp only [named, decide_eq_true_eq]
      omega
  | 1 =>
    -- the rows above the one of the cursor first
    obtain ⟨rows₁, hrows₁, hget⟩ := getElem?_blankRows hshape (Nat.zero_le g.cursor.row) hrow.le
    have hcursor : rows₁[g.cursor.row]? = some g.cursorLine := by
      rw [hget, h.getElem?_cursorLine]
      simp
    have hblank := blankRange_eq hcursor (Nat.zero_le (g.cursor.col + 1)) (by omega)
    rw [Grid.erasedRows, hrows₁]
    refine .of_eq hblank fun i => ?_
    by_cases hi : i = g.cursor.row
    · rw [hi, h.erasedRow_cursor 1,
        List.getElem?_set_self (List.getElem?_eq_some_iff.mp hcursor).1]
      rfl
    · rw [List.getElem?_set_ne (Ne.symm hi), hget]
      apply h.erasedRow_beside hi
      intro hlt
      simp only [named, decide_eq_true_eq]
      omega
  | mode + 2 =>
    refine (getElem?_blankRows hshape (Nat.zero_le _) hcount.le).mono fun rows hrows i => ?_
    rw [hrows i]
    by_cases hi : i = g.cursor.row
    · rw [hi, h.erasedRow_cursor, h.getElem?_cursorLine]
      simp [Grid.lineRange, hcount, hrow, h.cols_eq, ← hline, blanked_full]
    · apply h.erasedRow_beside hi
      intro hlt
      simp [named, hcount, hlt]

theorem Sized.eraseInDisplay_edits (h : g.Sized c r) (mode : ℕ) :
    Returns (g.eraseInDisplay mode) (g.Edits (g.erasedRow mode)) :=
  (h.erasedRows_eq mode).bind fun _ hrows => .pure ⟨hrows, rfl, rfl, rfl⟩

/-- Every edit of a line is what its definition makes of the rows. -/
structure EditsLines (g : Grid) : Prop where
  insertChars : ∀ n, Returns (g.insertChars n)
    (g.Edits (g.onCursorRow (inserted g.cols g.cursor.col (min n (g.cols - g.cursor.col)))))
  deleteChars : ∀ n, Returns (g.deleteChars n)
    (g.Edits (g.onCursorRow (deleted g.cursor.col (min n (g.cols - g.cursor.col)))))
  eraseChars : ∀ n, Returns (g.eraseChars n)
    (g.Edits (g.onCursorRow (erased fun i => decide (g.cursor.col ≤ i ∧
      i < g.cursor.col + min n (g.cols - g.cursor.col)))))
  eraseInLine : ∀ mode, Returns (g.eraseInLine mode)
    (g.Edits (g.onCursorRow (erased (named mode g.cursor.col))))
  eraseInDisplay : ∀ mode, Returns (g.eraseInDisplay mode) (g.Edits (g.erasedRow mode))

theorem Sized.editsLines (h : g.Sized c r) : g.EditsLines where
  insertChars := h.insertChars_edits
  deleteChars := h.deleteChars_edits
  eraseChars := h.eraseChars_edits
  eraseInLine := h.eraseInLine_edits
  eraseInDisplay := h.eraseInDisplay_edits

/-- Two rows, with letters in the first one and the cursor on the second of them. -/
def lettered : Grid where
  rows := [['a', 'b', 'c', 'd'].map fun ch => { Cell.default with ch }, blankLine 4]
  cols := 4
  rowCount := 2
  cursor := ⟨0, 1⟩
  savedCursor := ⟨0, 0⟩
  savedAttrs := none
  scrollTop := 0
  scrollBottom := 1
  tabStops := defaultTabStops 4
  wrapPending := false
  originMode := false
  dirty := [false, false]
  dirtyAll := false
  revision := 0

theorem lettered_editsLines : lettered.EditsLines ∧
    (lettered.insertChars 1).map (·.cursorLine.map Cell.ch) = some ['a', '\x00', 'b', 'c'] ∧
    (lettered.deleteChars 2).map (·.cursorLine.map Cell.ch) = some ['a', 'd', '\x00', '\x00'] := by
  have h : lettered.Sized 4 2 :=
    ⟨rfl, rfl, by decide, ⟨rfl, by decide⟩, by decide, by decide, by decide, rfl, rfl⟩
  exact ⟨h.editsLines, by decide, by decide⟩

end Grid

end Ferrokey.Terminal
