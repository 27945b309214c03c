import Ferrokey.Terminal.Grid

/-! # The bounds of the grid

A grid of a given size has that many rows of that many cells, its cursors on the
screen, a scroll region inside it and one tab stop for each column. Every operation
of such a grid can be carried out and leads to one of the same size.
-/

namespace Ferrokey.Terminal

/-- So many rows of so many cells. -/
def Shape (rows : List Line) (n cols : ℕ) : Prop :=
  rows.length = n ∧ ∀ line ∈ rows, line.length = cols

section Rows

variable {rows : List Line} {n cols : ℕ}

theorem Shape.getElem {i : ℕ} (h : Shape rows n cols) (hi : i < n) :
    Returns rows[i]? fun line => line.length = cols := by
  obtain ⟨rfl, hcols⟩ := h
  exact ⟨rows[i], List.getElem?_eq_getElem hi, hcols _ (List.getElem_mem hi)⟩

theorem Shape.set {i : ℕ} {line : Line} (h : Shape rows n cols) (hi : i < n)
    (hline : line.length = cols) : Returns (Checked.set rows i line) (Shape · n cols) := by
  obtain ⟨rfl, hcols⟩ := h
  refine .of_eq (Checked.set_eq hi) ⟨List.length_set, fun line' hmem => ?_⟩
  rcases List.mem_or_eq_of_mem_set hmem with hmem | rfl
  · exact hcols line' hmem
  · exact hline

theorem Shape.setCell {r c : ℕ} {cell : Cell} (h : Shape rows n cols) (hr : r < n) (hc : c < cols) :
    Returns (setCell rows r c cell) (Shape · n cols) := by
  apply (h.getElem hr).bind
  rintro line rfl
  apply Returns.bind (P := fun line' => line'.length = line.length)
  · exact .of_eq (Checked.set_eq hc) List.length_set
  · exact fun line' hline' => h.set hr hline'

theorem Shape.blankRange {r lo hi : ℕ} (h : Shape rows n cols) (hr : r < n) (hhi : hi ≤ cols) :
    Returns (blankRange rows r lo hi) (Shape · n cols) := by
  apply Returns.foldlM (Shape · n cols)
  · intro rows' h' c hc
    obtain ⟨hge, hlt⟩ := List.mem_range'_1.mp hc
    exact h'.setCell hr (by omega)
  · exact h

theorem length_blankLine (cols : ℕ) : (blankLine cols).length = cols := List.length_replicate

theorem Shape.insert {i : ℕ} {line : Line} (h : Shape rows n cols) (hi : i ≤ n)
    (hline : line.length = cols) : Returns (Checked.insert rows i line) (Shape · (n + 1) cols) := by
  obtain ⟨rfl, hcols⟩ := h
  refine .of_eq (Checked.insert_eq hi) ⟨List.length_insertIdx_of_le_length hi line, ?_⟩
  intro line' hmem
  rcases (List.mem_insertIdx hi).mp hmem with rfl | hmem
  · exact hline
  · exact hcols line' hmem

theorem Shape.remove {i : ℕ} (h : Shape rows (n + 1) cols) (hi : i < n + 1) :
    Returns (Checked.remove rows i) fun r => r.1.length = cols ∧ Shape r.2 n cols := by
  obtain ⟨hlen, hcols⟩ := h
  have hi' : i < rows.length := by omega
  refine .of_eq (Checked.remove_eq hi') ⟨hcols _ (List.getElem_mem hi'), ?_, ?_⟩
  · rw [List.length_eraseIdx_of_lt hi', hlen, Nat.add_sub_cancel]
  · exact fun line hmem => hcols line (List.mem_of_mem_eraseIdx hmem)

theorem Shape.rotateUp {top bottom : ℕ} (h : Shape rows n cols) (htop : top < n)
    (hbottom : bottom < n) (k : ℕ) : Returns (rotateUp top bottom (blankLine cols) k rows) fun r =>
      Shape r.1 n cols ∧ ∀ line ∈ r.2, line.length = cols := by
  induction k generalizing rows with
  | zero => exact .pure ⟨h, by simp⟩
  | succ k ih =>
    obtain ⟨n, rfl⟩ : ∃ m, n = m + 1 := ⟨n - 1, by omega⟩
    apply (h.remove htop).bind
    rintro ⟨removed, rows'⟩ ⟨hremoved, h'⟩
    apply (h'.insert (Nat.lt_succ_iff.mp hbottom) (length_blankLine cols)).bind
    intro rows'' h''
    apply (ih h'').bind
    rintro ⟨rows₃, out⟩ ⟨h₃, hout⟩
    exact .pure ⟨h₃, by simpa using ⟨hremoved, hout⟩⟩

theorem Shape.rotateDown {top bottom : ℕ} (h : Shape rows n cols) (htop : top < n)
    (hbottom : bottom < n) (k : ℕ) :
    Returns (rotateDown top bottom (blankLine cols) k rows) (Shape · n cols) := by
  induction k generalizing rows with
  | zero => exact .pure h
  | succ k ih =>
    apply (h.insert htop.le (length_blankLine cols)).bind
    intro rows' h'
    apply (h'.remove (Nat.succ_lt_succ hbottom)).bind
    rintro ⟨_, rows''⟩ ⟨-, h''⟩
    exact ih h''

theorem length_fitWidth (cols : ℕ) (line : Line) : (fitWidth cols line).length = cols := by
  simp [fitWidth]
  omega

theorem length_normalise (cols : ℕ) (line : Line) : (normalise cols line).length = cols := by
  have hlen := length_fitWidth cols line
  cases hlast : (fitWidth cols line).getLast? with
  | none => simpa only [normalise, hlast] using hlen
  | some last =>
    have hne : fitWidth cols line ≠ [] := by
      intro he
      rw [he] at hlast
      cases hlast
    have hpos := List.length_pos_of_ne_nil hne
    simp only [normalise, hlast]
    split
    · simp only [List.length_append, List.length_dropLast, List.length_singleton]
      omega
    · exact hlen

theorem firstStop_returns {tabStops : List Bool} {cs : List ℕ}
    (h : ∀ c ∈ cs, c < tabStops.length) :
    Returns (firstStop tabStops cs) fun stop => ∀ c ∈ stop, c ∈ cs := by
  induction cs with
  | nil => exact .pure (by simp)
  | cons c cs ih =>
    have hc := h c List.mem_cons_self
    apply Returns.bind (P := fun _ => True) (.of_eq (List.getElem?_eq_getElem hc) trivial)
    rintro stop -
    apply Returns.ite
    · exact fun _ => .pure (by simp)
    · intro _
      apply (ih fun c' hc' => h c' (List.mem_cons_of_mem c hc')).mono
      exact fun stop' hstop c' hc' => List.mem_cons_of_mem c (hstop c' hc')

end Rows

namespace Grid

/-- A grid of so many columns and rows, with all it refers to on the screen. -/
structure Sized (c r : ℕ) (g : Grid) : Prop where
  cols_eq : g.cols = c
  rowCount_eq : g.rowCount = r
  bounds : sizeInBounds c r = true
  shape : Shape g.rows r c
  cursor : g.cursor.row < r ∧ g.cursor.col < c
  savedCursor : g.savedCursor.row < r ∧ g.savedCursor.col < c
  region : g.scrollTop ≤ g.scrollBottom ∧ g.scrollBottom < r
  tabStops : g.tabStops.length = c
  dirty : g.dirty.length = r

theorem sizeInBounds_iff {c r : ℕ} : sizeInBounds c r = true ↔
    (minCols ≤ c ∧ c ≤ maxCols) ∧ (minRows ≤ r ∧ r ≤ maxRows) := by
  simp [sizeInBounds]

theorem length_defaultTabStops (cols : ℕ) : (defaultTabStops cols).length = cols := by
  simp [defaultTabStops]

theorem new_sized {c r : ℕ} (h : sizeInBounds c r = true) : ∃ g, new c r = .ok g ∧ g.Sized c r := by
  obtain ⟨⟨hc, -⟩, hr, -⟩ := sizeInBounds_iff.mp h
  have hc' : 0 < c := Nat.lt_of_lt_of_le (by decide) hc
  have hr' : 0 < r := Nat.lt_of_lt_of_le (by decide) hr
  refine ⟨_, if_pos h, ?_⟩
  constructor
  · rfl
  · rfl
  · exact h
  · refine ⟨List.length_replicate, fun line hmem => ?_⟩
    rw [List.eq_of_mem_replicate hmem, length_blankLine]
  · exact ⟨hr', hc'⟩
  · exact ⟨hr', hc'⟩
  · exact ⟨Nat.zero_le _, Nat.sub_lt hr' Nat.one_pos⟩
  · exact length_defaultTabStops c
  · exact List.length_replicate

namespace Sized

variable {g : Grid} {c r : ℕ} (h : g.Sized c r)
include h

theorem cols_pos : 0 < c := Nat.zero_lt_of_lt h.cursor.2

theorem rows_pos : 0 < r := Nat.zero_lt_of_lt h.cursor.1

theorem maxRow : Returns (Checked.sub g.rowCount 1) (· = r - 1) := by
  have hpos : 1 ≤ g.rowCount := by
    rw [h.rowCount_eq]
    exact h.rows_pos
  exact .of_eq (Checked.sub_eq hpos) (by rw [h.rowCount_eq])

theorem maxCol : Returns (Checked.sub g.cols 1) (· = c - 1) := by
  have hpos : 1 ≤ g.cols := by
    rw [h.cols_eq]
    exact h.cols_pos
  exact .of_eq (Checked.sub_eq hpos) (by rw [h.cols_eq])

theorem markDirtyRow (row : ℕ) : Returns (g.markDirtyRow row) (Sized c r) := by
  apply Returns.ite
  · intro hrow
    have hlen : row < g.dirty.length := by rw [h.dirty, ← h.rowCount_eq]; exact hrow
    apply Returns.bind (P := fun dirty => dirty.length = r)
    · exact .of_eq (Checked.set_eq hlen) (List.length_set.trans h.dirty)
    · exact fun dirty hdirty => .pure { h with dirty := hdirty }
  · exact fun _ => .pure { h with }

theorem consumeDirty : g.consumeDirty.1.Sized c r :=
  { h with dirty := (List.length_map _).trans h.dirty }

theorem clampCursor (row col : ℕ) :
    Returns (g.clampCursor row col) fun pos => pos.row < r ∧ pos.col < c := by
  have hr := h.rows_pos
  have hc := h.cols_pos
  apply h.maxRow.bind
  rintro _ rfl
  apply h.maxCol.bind
  rintro _ rfl
  exact .pure ⟨by dsimp only; omega, by dsimp only; omega⟩

theorem setCursor (row col : ℕ) : Returns (g.setCursor row col) (Sized c r) := by
  have habs : Returns (g.absoluteRow row) fun _ => True := by
    apply Returns.ite
    · exact fun _ => .pure trivial
    · exact fun _ => h.maxRow.bind fun _ _ => .pure trivial
  apply habs.bind
  rintro row' -
  apply (h.clampCursor row' col).bind
  exact fun pos hpos => .pure { h with cursor := hpos }

theorem setOriginMode (on : Bool) : (g.setOriginMode on).Sized c r := by
  obtain ⟨htop, hbottom⟩ := h.region
  cases on with
  | true => exact { h with cursor := ⟨htop.trans_lt hbottom, h.cols_pos⟩ }
  | false => exact { h with cursor := ⟨h.rows_pos, h.cols_pos⟩ }

theorem setScrollRegion (top bottom : ℕ) : Returns (g.setScrollRegion top bottom) (Sized c r) := by
  have hr := h.rows_pos
  apply h.maxRow.bind
  rintro _ rfl
  dsimp only
  split
  next hle =>
    have hregion : Sized c r
        { g with scrollTop := min top (r - 1), scrollBottom := min bottom (r - 1) } :=
      { h with region := ⟨hle, by dsimp only; omega⟩ }
    exact hregion.setCursor 0 0
  next => exact h.setCursor 0 0

theorem moveCursor (drow dcol : ℤ) : Returns (g.moveCursor drow dcol) (Sized c r) := by
  have hr := h.rows_pos
  have hc := h.cols_pos
  apply h.maxRow.bind
  rintro _ rfl
  apply h.maxCol.bind
  rintro _ rfl
  exact .pure { h with cursor := ⟨by dsimp only; omega, by dsimp only; omega⟩ }

theorem setCol (col : ℕ) : Returns (g.setCol col) (Sized c r) := by
  have hc := h.cols_pos
  apply h.maxCol.bind
  rintro _ rfl
  exact .pure { h with cursor := ⟨h.cursor.1, by dsimp only; omega⟩ }

theorem setRow (row : ℕ) : Returns (g.setRow row) (Sized c r) := by
  have hr := h.rows_pos
  apply h.maxRow.bind
  rintro _ rfl
  exact .pure { h with cursor := ⟨by dsimp only; omega, h.cursor.2⟩ }

theorem carriageReturn : g.carriageReturn.Sized c r :=
  { h with cursor := ⟨h.cursor.1, h.cols_pos⟩ }

theorem backspace : g.backspace.Sized c r :=
  { h with cursor := ⟨h.cursor.1, (Nat.sub_le _ _).trans_lt h.cursor.2⟩ }

theorem tab : Returns g.tab (Sized c r) := by
  have hc := h.cols_pos
  have hstops : ∀ col ∈ List.range' (g.cursor.col + 1) (g.cols - (g.cursor.col + 1)),
      col < g.tabStops.length := by
    intro col hcol
    obtain ⟨hge, hlt⟩ := List.mem_range'_1.mp hcol
    have hcols := h.cols_eq
    rw [h.tabStops]
    omega
  apply (firstStop_returns hstops).bind
  intro next hnext
  apply h.maxCol.bind
  rintro _ rfl
  refine .pure { h with cursor := ⟨h.cursor.1, ?_⟩ }
  cases next with
  | none => exact Nat.sub_lt hc Nat.one_pos
  | some col => exact (hstops col (hnext col rfl)).trans_eq h.tabStops

theorem backspaceToTab : Returns g.backspaceToTab (Sized c r) := by
  apply Returns.ite
  · intro _
    have hstops : ∀ col ∈ (List.range g.cursor.col).reverse, col < g.tabStops.length := by
      intro col hcol
      rw [h.tabStops]
      exact (List.mem_range.mp (List.mem_reverse.mp hcol)).trans h.cursor.2
    apply (firstStop_returns hstops).bind
    intro prev hprev
    refine .pure { h with cursor := ⟨h.cursor.1, ?_⟩ }
    cases prev with
    | none => exact h.cols_pos
    | some col => exact (hstops col (hprev col rfl)).trans_eq h.tabStops
  · exact fun _ => .pure { h with }

theorem putTabStop (on : Bool) : (g.putTabStop on).Sized c r :=
  { h with tabStops := List.length_set.trans h.tabStops }

theorem clearAllTabStops : g.clearAllTabStops.Sized c r :=
  { h with tabStops := (List.length_map _).trans h.tabStops }

theorem saveCursor : g.saveCursor.Sized c r := { h with savedCursor := h.cursor }

theorem restoreCursor : Returns g.restoreCursor (Sized c r) := by
  apply (h.clampCursor g.savedCursor.row g.savedCursor.col).bind
  exact fun pos hpos => .pure { h with cursor := hpos }

/-! ### Scrolling -/

theorem regionCount (n : ℕ) : Returns (g.regionCount n) fun _ => True := by
  apply Returns.bind (P := fun _ => True) (.of_eq (Checked.sub_eq h.region.1) trivial)
  exact fun _ _ => .pure trivial

theorem rotateUp {top : ℕ} (htop : top < r) (n : ℕ) :
    Returns (rotateUp top g.scrollBottom (blankLine g.cols) n g.rows) fun out =>
      Shape out.1 r c ∧ ∀ line ∈ out.2, line.length = c := by
  rw [h.cols_eq]
  exact h.shape.rotateUp htop h.region.2 n

theorem rotateDown {top : ℕ} (htop : top < r) (n : ℕ) :
    Returns (rotateDown top g.scrollBottom (blankLine g.cols) n g.rows) (Shape · r c) := by
  rw [h.cols_eq]
  exact h.shape.rotateDown htop h.region.2 n

theorem scrollUpRegion (n : ℕ) : Returns (g.scrollUpRegion n) fun out =>
    out.1.Sized c r ∧ ∀ line ∈ out.2, line.length = c := by
  apply (h.regionCount n).bind
  rintro n' -
  apply (h.rotateUp (h.region.1.trans_lt h.region.2) n').bind
  rintro ⟨rows, out⟩ ⟨hrows, hout⟩
  exact .pure ⟨{ h with shape := hrows }, hout⟩

theorem scrollDownRegion (n : ℕ) : Returns (g.scrollDownRegion n) (Sized c r) := by
  apply (h.regionCount n).bind
  rintro n' -
  apply (h.rotateDown (h.region.1.trans_lt h.region.2) n').bind
  exact fun rows hrows => .pure { h with shape := hrows }

theorem noWrap : Sized c r { g with wrapPending := false } := { h with }

theorem index : Returns g.index fun out => out.1.Sized c r := by
  have h' := h.noWrap
  apply Returns.ite
  · intro hlt
    exact .pure { h with cursor := ⟨(Nat.succ_le_of_lt hlt).trans_lt h.region.2, h.cursor.2⟩ }
  · intro _
    apply (h'.scrollUpRegion 1).bind
    exact fun out hout => .pure hout.1

theorem lineFeed : Returns g.lineFeed fun out => out.1.Sized c r := by
  have h' := h.noWrap
  apply Returns.ite
  · intro hlt
    exact .pure { h with cursor := ⟨(Nat.succ_le_of_lt hlt).trans_lt h.region.2, h.cursor.2⟩ }
  · intro _
    apply (h'.scrollUpRegion 1).bind
    exact fun out hout => .pure hout.1

theorem reverseIndex : Returns g.reverseIndex (Sized c r) := by
  have h' := h.noWrap
  apply Returns.ite
  · intro _
    exact .pure { h with cursor := ⟨(Nat.sub_le _ _).trans_lt h.cursor.1, h.cursor.2⟩ }
  · exact fun _ => h'.scrollDownRegion 1

theorem nextLine : Returns g.nextLine fun out => out.1.Sized c r := h.carriageReturn.lineFeed

theorem pushLineFromScrollback (line : Line) :
    Returns (g.pushLineFromScrollback line) (Sized c r) := by
  apply (h.scrollDownRegion 1).bind
  intro g' h'
  have hlen : (normalise g'.cols line).length = c := (length_normalise _ _).trans h'.cols_eq
  apply (h'.shape.set (h'.region.1.trans_lt h'.region.2) hlen).bind
  exact fun rows hrows => .pure { h' with shape := hrows }

theorem insertLines (n : ℕ) : Returns (g.insertLines n) (Sized c r) := by
  apply (h.regionCount n).bind
  rintro n' -
  apply (h.rotateDown h.cursor.1 n').bind
  exact fun rows hrows => .pure { h with shape := hrows }

theorem deleteLines (n : ℕ) : Returns (g.deleteLines n) fun out => out.1.Sized c r := by
  apply (h.regionCount n).bind
  rintro n' -
  apply (h.rotateUp h.cursor.1 n').bind
  exact fun out hout => .pure { h with shape := hout.1 }

/-! ### Content -/

/-- A write on the rows, marked as dirty. -/
theorem putRows {rows : Option (List Line)} (hrows : Returns rows (Shape · r c)) (row : ℕ) :
    Returns (rows >>= fun rows => Grid.markDirtyRow { g with rows } row) (Sized c r) := by
  apply hrows.bind
  intro rows' hrows'
  have h' : Sized c r { g with rows := rows' } := { h with shape := hrows' }
  exact h'.markDirtyRow row

theorem attach (ch : Char) : Returns (g.attach ch) (Sized c r) := by
  obtain ⟨hrow, hcol⟩ := h.cursor
  apply Returns.ite
  · intro hpos
    apply Returns.bind (P := (· = g.cursor.col - 1)) (.of_eq (Checked.sub_eq hpos) rfl)
    rintro _ rfl
    have hlt : g.cursor.col - 1 < c := (Nat.sub_le _ _).trans_lt hcol
    apply (h.shape.getElem hrow).bind
    intro line hline
    have hlen : g.cursor.col - 1 < line.length := hlt.trans_eq hline.symm
    apply Returns.bind (P := fun _ => True) (.of_eq (List.getElem?_eq_getElem hlen) trivial)
    rintro cell -
    apply Returns.ite
    · exact fun _ => h.putRows (h.shape.setCell hrow hlt) _
    · exact fun _ => .pure h
  · exact fun _ => .pure h

theorem wrap (width : ℕ) : Returns (g.wrap width) fun out => out.1.Sized c r := by
  apply Returns.ite
  · intro _
    apply h.index.bind
    rintro ⟨g', scrolled⟩ h'
    exact .pure { h' with cursor := ⟨h'.cursor.1, h'.cols_pos⟩ }
  · exact fun _ => .pure h

theorem putCell (cell : Cell) (width : ℕ) : Returns (g.putCell cell width) (Shape · r c) := by
  obtain ⟨hrow, hcol⟩ := h.cursor
  apply (h.shape.setCell hrow hcol).bind
  intro rows hrows
  apply Returns.ite
  · rintro ⟨-, hlt⟩
    exact hrows.setCell hrow (hlt.trans_eq h.cols_eq)
  · exact fun _ => .pure hrows

theorem advanceCursor (width : ℕ) : Returns (g.advanceCursor width) (Sized c r) := by
  apply Returns.ite
  · intro _
    apply h.maxCol.bind
    rintro _ rfl
    exact .pure { h with cursor := ⟨h.cursor.1, Nat.sub_lt h.cols_pos Nat.one_pos⟩ }
  · intro hlt
    exact .pure { h with cursor := ⟨h.cursor.1, (not_le.mp hlt).trans_eq h.cols_eq⟩ }

theorem putGlyph (cell : Cell) (width : ℕ) : Returns (g.putGlyph cell width) (Sized c r) := by
  apply (h.putCell cell width).bind
  intro rows hrows
  have h' : Sized c r { g with rows } := { h with shape := hrows }
  apply (h'.markDirtyRow g.cursor.row).bind
  exact fun g' h'' => h''.advanceCursor width

theorem print (tables : UnicodeTables) (ch : Char) (attrs : CellAttrs) :
    Returns (g.print tables ch attrs) fun out => out.1.Sized c r := by
  apply Returns.ite
  · intro _
    apply (h.attach ch).bind
    exact fun g' h' => .pure h'
  · intro _
    apply (h.wrap _).bind
    rintro ⟨g', scrolled⟩ h'
    apply (h'.putGlyph _ _).bind
    exact fun g'' h'' => .pure h''

theorem lineCount (n : ℕ) : Returns (g.lineCount n) fun k => g.cursor.col + k ≤ c := by
  have hle : g.cursor.col ≤ g.cols := h.cursor.2.le.trans_eq h.cols_eq.symm
  have hcols := h.cols_eq
  apply Returns.bind (P := (· = g.cols - g.cursor.col)) (.of_eq (Checked.sub_eq hle) rfl)
  rintro _ rfl
  exact .pure (by omega)

theorem insertChars (n : ℕ) : Returns (g.insertChars n) (Sized c r) := by
  obtain ⟨hrow, hcol⟩ := h.cursor
  apply (h.lineCount n).bind
  intro k hk
  apply (h.shape.getElem hrow).bind
  intro line hline
  apply Returns.bind (P := fun line' => c ≤ line'.length)
  · refine .of_eq (Checked.splice_eq (by omega)) ?_
    simp only [List.length_append, List.length_take, List.length_replicate, List.length_drop]
    omega
  · intro line' hline'
    exact h.putRows (h.shape.set hrow (by rw [List.length_take, h.cols_eq]; omega)) _

theorem deleteChars (n : ℕ) : Returns (g.deleteChars n) (Sized c r) := by
  obtain ⟨hrow, hcol⟩ := h.cursor
  apply (h.lineCount n).bind
  intro k hk
  apply (h.shape.getElem hrow).bind
  intro line hline
  apply Returns.bind (P := fun line' => line'.length + k = c)
  · refine .of_eq (Checked.drain_eq (Nat.le_add_right _ _) (by omega)) ?_
    simp only [List.length_append, List.length_take, List.length_drop]
    omega
  · intro line' hline'
    exact h.putRows (h.shape.set hrow (by simp [hline'])) _

theorem eraseChars (n : ℕ) : Returns (g.eraseChars n) (Sized c r) := by
  apply (h.lineCount n).bind
  intro k hk
  exact h.putRows (h.shape.blankRange h.cursor.1 hk) _

theorem lineRange (mode : ℕ) : (g.lineRange mode).2 ≤ c := by
  have hcols := h.cols_eq.le
  match mode with
  | 0 => exact hcols
  | 1 => exact h.cursor.2
  | _ + 2 => exact hcols

theorem eraseInLine (mode : ℕ) : Returns (g.eraseInLine mode) (Sized c r) :=
  h.putRows (h.shape.blankRange h.cursor.1 (h.lineRange mode)) _

theorem blankRows {rows : List Line} (hrows : Shape rows r c) {lo hi : ℕ} (hhi : hi ≤ r) :
    Returns (g.blankRows rows lo hi) (Shape · r c) := by
  apply Returns.foldlM (Shape · r c)
  · intro rows' h' row hrow
    obtain ⟨hge, hlt⟩ := List.mem_range'_1.mp hrow
    exact h'.blankRange (by omega) h.cols_eq.le
  · exact hrows

theorem erasedRows (mode : ℕ) : Returns (g.erasedRows mode) (Shape · r c) := by
  obtain ⟨hrow, hcol⟩ := h.cursor
  match mode with
  | 0 =>
    apply (h.shape.blankRange hrow h.cols_eq.le).bind
    exact fun rows hrows => h.blankRows hrows h.rowCount_eq.le
  | 1 =>
    apply (h.blankRows h.shape hrow.le).bind
    exact fun rows hrows => hrows.blankRange hrow hcol
  | _ + 2 => exact h.blankRows h.shape h.rowCount_eq.le

theorem eraseInDisplay (mode : ℕ) : Returns (g.eraseInDisplay mode) (Sized c r) := by
  apply (h.erasedRows mode).bind
  exact fun rows hrows => .pure { h with shape := hrows }

theorem fillScreen (ch : Char) : Returns (g.fillScreen ch) (Sized c r) := by
  obtain ⟨hlen, hcols⟩ := h.shape
  have hfilled : Shape (g.rows.map fun row => row.map fun _ => { Cell.default with ch }) r c := by
    refine ⟨(List.length_map _).trans hlen, ?_⟩
    simpa using hcols
  have h' : Sized c r
      { g with rows := g.rows.map fun row => row.map fun _ => { Cell.default with ch } } :=
    { h with shape := hfilled }
  apply (h'.setCursor 0 0).bind
  exact fun g' h'' => .pure { h'' with }

/-! ### Resizing -/

theorem resizeRows (cols rows : ℕ) : (g.resizeRows cols rows).length = rows := by
  have hlen := h.shape.1.trans h.rowCount_eq.symm
  unfold Grid.resizeRows
  split
  · rw [List.length_take]
    omega
  · rw [List.length_append, List.length_replicate]
    omega

end Sized

theorem fitRow_returns (cols : ℕ) (line : Line) :
    Returns (fitRow cols line) fun line' => line'.length = cols := by
  have hlen := length_fitWidth cols line
  apply Returns.ite
  · intro hpos
    apply Returns.bind (P := (· = cols - 1)) (.of_eq (Checked.sub_eq hpos) rfl)
    rintro _ rfl
    have hlt : cols - 1 < (fitWidth cols line).length := by omega
    apply Returns.bind (P := fun _ => True) (.of_eq (List.getElem?_eq_getElem hlt) trivial)
    rintro last -
    apply Returns.ite
    · exact fun _ => .of_eq (Checked.set_eq hlt) (List.length_set.trans hlen)
    · exact fun _ => .pure hlen
  · exact fun _ => .pure hlen

/-- A grid can be resized to every size in bounds. -/
theorem Sized.resize {g : Grid} {c r c' r' : ℕ} (h : g.Sized c r)
    (hb : sizeInBounds c' r' = true) :
    Returns (g.resize c' r') fun out => ∃ g', out = .ok g' ∧ g'.Sized c' r' := by
  obtain ⟨⟨hc, -⟩, hr, -⟩ := sizeInBounds_iff.mp hb
  have hc' : 1 ≤ c' := Nat.le_of_lt hc
  have hr' : 1 ≤ r' := hr
  unfold Grid.resize
  rw [if_pos hb]
  apply (Returns.mapM fun line _ => fitRow_returns c' line).bind
  rintro lines ⟨hlen, hlines⟩
  have hclamp : ∀ (g' : Grid) (row col : ℕ), g'.cols = c' → g'.rowCount = r' →
      Returns (g'.clampCursor row col) fun pos => pos.row < r' ∧ pos.col < c' := by
    rintro g' row col rfl rfl
    apply Returns.bind (P := (· = g'.rowCount - 1)) (.of_eq (Checked.sub_eq hr') rfl)
    rintro _ rfl
    apply Returns.bind (P := (· = g'.cols - 1)) (.of_eq (Checked.sub_eq hc') rfl)
    rintro _ rfl
    exact .pure ⟨by dsimp only; omega, by dsimp only; omega⟩
  apply (hclamp _ _ _ rfl rfl).bind
  intro cursor hcursor
  apply (hclamp _ _ _ rfl rfl).bind
  intro savedCursor hsaved
  apply Returns.bind (P := (· = r' - 1)) (.of_eq (Checked.sub_eq hr') rfl)
  rintro _ rfl
  refine .pure ⟨_, rfl, ?_⟩
  constructor
  · rfl
  · rfl
  · exact hb
  · exact ⟨hlen.trans (h.resizeRows c' r'), hlines⟩
  · exact hcursor
  · exact hsaved
  · dsimp only
    split_ifs <;> omega
  · exact length_defaultTabStops c'
  · exact List.length_replicate

end Grid

end Ferrokey.Terminal
