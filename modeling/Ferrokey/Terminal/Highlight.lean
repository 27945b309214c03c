import Ferrokey.Terminal.Reached

/-! # What is highlighted and what is copied

The renderer highlights the rectangle between the two corners of a selection, and the
text that is copied runs from one corner to the other in reading order. The two agree
on the cells of the document only where no line is cut by a side of the rectangle.
-/

set_option linter.dupNamespace false

namespace Ferrokey.Terminal

/-- Whether the renderer highlights a position. -/
def Selection.contains (s : Selection) (pos : CellPos) : Bool :=
  decide (s.start.row ≤ pos.row) && decide (pos.row ≤ s.finish.row) &&
    decide (s.start.col ≤ pos.col) && decide (pos.col ≤ s.finish.col)

/-- A selection by characters that was not extended; no text is taken from it. -/
def Selection.isLone (s : Selection) : Prop := s.start = s.finish ∧ s.mode = .character

theorem Selection.start_le (s : Selection) : s.start.row ≤ s.finish.row ∧
    (s.start.row = s.finish.row → s.start.col ≤ s.finish.col) := by
  simp only [Selection.start, Selection.finish, CellPos.le]
  grind

namespace Terminal

variable (t : Terminal)

/-- The characters that are read of a row. -/
def charsOf (row : ℤ) : List Char := ((t.lineChars row).getD none).getD []

/-- A position with a cell, on the screen or in the history. -/
def IsCell (pos : CellPos) : Prop := 0 ≤ pos.col ∧ pos.col < (t.charsOf pos.row).length

/-- The columns of a row whose characters are read. -/
def columnsRead (s e : CellPos) (row : ℤ) : List ℤ :=
  if (t.charsOf row).isEmpty then []
  else span (max (if row = s.row then s.col else 0) 0)
    (min (if row = e.row then e.col else (t.charsOf row).length - 1) ((t.charsOf row).length - 1))

/-- The positions whose characters are read, in reading order. -/
def cellsRead (s : Selection) : List CellPos :=
  if s.start = s.finish ∧ s.mode = .character then []
  else (span s.start.row s.finish.row).flatMap fun row =>
    (t.columnsRead s.start s.finish row).map fun col => ⟨row, col⟩

/-- What a position adds to the text. -/
def charAt (pos : CellPos) : List Char :=
  ((t.charsOf pos.row)[pos.col.toNat]?.toList).filter (· != '\x00')

variable {t}

/-! ### The text is that of the cells that are read -/

theorem mem_span {lo hi x : ℤ} : x ∈ span lo hi ↔ lo ≤ x ∧ x ≤ hi := by
  simp only [span, List.mem_map, List.mem_range]
  constructor
  · rintro ⟨i, hi, rfl⟩
    omega
  · rintro ⟨hlo, hhi⟩
    exact ⟨(x - lo).toNat, by omega, by omega⟩

/-- The line break after a row that is not the last one. -/
def breakAfter (e : CellPos) (row : ℤ) : List Char := if row < e.row then ['\n'] else []

theorem mapM_getElem? {chars : List Char} {cols : List ℤ}
    (h : ∀ col ∈ cols, col.toNat < chars.length) :
    cols.mapM (fun col => chars[col.toNat]?) =
      some (cols.flatMap fun col => chars[col.toNat]?.toList) := by
  induction cols with
  | nil => rfl
  | cons col cols ih =>
    have hcol := List.getElem?_eq_getElem (h col List.mem_cons_self)
    rw [List.mapM_cons, ih fun col' hmem => h col' (List.mem_cons_of_mem col hmem), hcol]
    simp [hcol]

theorem filter_flatMap_toList (chars : List Char) (cols : List ℤ) :
    (cols.flatMap fun col => chars[col.toNat]?.toList).filter (· != '\x00') =
      cols.flatMap fun col => (chars[col.toNat]?.toList).filter (· != '\x00') := by
  induction cols with
  | nil => rfl
  | cons col cols ih => rw [List.flatMap_cons, List.filter_append, ih, List.flatMap_cons]

theorem rowSelection_eq (h : t.Valid) (s e : CellPos) (row : ℤ) : t.rowSelection s e row =
    some (((t.columnsRead s e row).flatMap fun col => t.charAt ⟨row, col⟩) ++
      breakAfter e row) := by
  obtain ⟨c, r, c₀, r₀, hs⟩ := h.sizes
  obtain ⟨chars, hchars, -⟩ := lineChars_returns hs.grid row
  have hof : t.charsOf row = chars.getD [] := by rw [charsOf, hchars, Option.getD_some]
  simp only [rowSelection, hchars, columnsRead, charAt, hof, Option.bind_eq_bind, Option.bind_some,
    breakAfter]
  split
  next => rfl
  next hne =>
    rw [lineSelection, mapM_getElem?]
    · simp only [Option.bind_eq_bind, Option.bind_some, filter_flatMap_toList]
    · intro col hcol
      have hle := (mem_span.mp hcol).2
      have hpos : 0 < (chars.getD []).length := by
        rw [List.length_pos_iff]
        rintro hnil
        simp [hnil] at hne
      omega

/-- The selected text is that of the cells that are read, row by row. -/
theorem selectedText_eq (h : t.Valid) {s : Selection} (hs : t.selection = some s)
    (hlone : ¬ s.isLone) : t.selectedText = some (some
      ((span s.start.row s.finish.row).flatMap fun row =>
        ((t.columnsRead s.start s.finish row).flatMap fun col => t.charAt ⟨row, col⟩) ++
          breakAfter s.finish row)) := by
  have hrows (rows : List ℤ) : rows.mapM (t.rowSelection s.start s.finish) =
      some (rows.map fun row =>
        ((t.columnsRead s.start s.finish row).flatMap fun col => t.charAt ⟨row, col⟩) ++
          breakAfter s.finish row) := by
    induction rows with
    | nil => rfl
    | cons row rows ih =>
      rw [List.mapM_cons, rowSelection_eq h, ih]
      rfl
  rw [Selection.isLone] at hlone
  simp only [selectedText, hs, if_neg hlone, hrows, Option.bind_eq_bind, Option.bind_some,
    List.flatMap]

theorem selectedText_lone {s : Selection} (hs : t.selection = some s) (hlone : s.isLone) :
    t.selectedText = some none := by
  rw [Selection.isLone] at hlone
  simp only [selectedText, hs, if_pos hlone]

/-! ### Where the two agree -/

theorem mem_columnsRead {s e : CellPos} {row col : ℤ} (hcell : t.IsCell ⟨row, col⟩) :
    col ∈ t.columnsRead s e row ↔
      (row = s.row → s.col ≤ col) ∧ (row = e.row → col ≤ e.col) := by
  obtain ⟨hlo, hhi⟩ := hcell
  dsimp only at hlo hhi
  have hne : ¬ (t.charsOf row).isEmpty = true := by
    intro hempty
    rw [List.isEmpty_iff.mp hempty, List.length_nil] at hhi
    omega
  rw [columnsRead, if_neg hne, mem_span]
  split_ifs with hs he <;> omega

theorem mem_cellsRead {s : Selection} {pos : CellPos} (hcell : t.IsCell pos) :
    pos ∈ t.cellsRead s ↔ ¬ s.isLone ∧ s.start.row ≤ pos.row ∧ pos.row ≤ s.finish.row ∧
      (pos.row = s.start.row → s.start.col ≤ pos.col) ∧
      (pos.row = s.finish.row → pos.col ≤ s.finish.col) := by
  have hdef : s.isLone ↔ s.start = s.finish ∧ s.mode = .character := Iff.rfl
  rw [cellsRead]
  split
  next hlone => simp [hdef, hlone]
  next hlone =>
    rw [← hdef] at hlone
    simp only [List.mem_flatMap, List.mem_map, mem_span, hlone, not_false_eq_true, true_and]
    constructor
    · rintro ⟨row, ⟨hlo, hhi⟩, col, hcol, rfl⟩
      exact ⟨hlo, hhi, (mem_columnsRead hcell).mp hcol⟩
    · rintro ⟨hlo, hhi, hcols⟩
      exact ⟨pos.row, ⟨hlo, hhi⟩, pos.col, (mem_columnsRead hcell).mpr hcols, rfl⟩

theorem contains_iff {s : Selection} {pos : CellPos} : s.contains pos = true ↔
    s.start.row ≤ pos.row ∧ pos.row ≤ s.finish.row ∧ s.start.col ≤ pos.col ∧
      pos.col ≤ s.finish.col := by
  simp only [Selection.contains, Bool.and_eq_true, decide_eq_true_eq, and_assoc]

/-- No side of the rectangle cuts a line, and a selection that was not extended is not on a
cell. -/
structure NoneCut (t : Terminal) (s : Selection) : Prop where
  lone : s.isLone → ¬ t.IsCell s.start
  right : ∀ row, s.start.row ≤ row → row < s.finish.row → t.charsOf row ≠ [] →
    (t.charsOf row).length ≤ s.finish.col + 1 ∨
      row = s.start.row ∧ (t.charsOf row).length ≤ s.start.col
  left : ∀ row, s.start.row < row → row ≤ s.finish.row → t.charsOf row ≠ [] →
    s.start.col ≤ 0 ∨ row = s.finish.row ∧ s.finish.col < 0

/-- The cells that are highlighted are those whose characters are read exactly if no side of
the rectangle cuts a line. -/
theorem highlighted_iff (t : Terminal) (s : Selection) :
    (∀ pos, t.IsCell pos → (s.contains pos = true ↔ pos ∈ t.cellsRead s)) ↔ t.NoneCut s := by
  constructor
  · intro hagree
    have hlone {row : ℤ} (hlt : s.start.row < row) (hle : row ≤ s.finish.row) : ¬ s.isLone := by
      rintro ⟨heq, -⟩
      rw [heq] at hlt
      omega
    constructor
    · intro hl hcell
      have hcontains : s.contains s.start = true := by
        rw [contains_iff, ← hl.1]
        exact ⟨le_rfl, le_rfl, le_rfl, le_rfl⟩
      exact ((mem_cellsRead hcell).mp ((hagree _ hcell).mp hcontains)).1 hl
    · -- the last cell of the line is read, and right of the rectangle if that cuts the line
      intro row hlo hhi hne
      have hpos := List.length_pos_iff.mpr hne
      by_contra hcut
      have hcell : t.IsCell ⟨row, (t.charsOf row).length - 1⟩ := ⟨by dsimp only; omega, by simp⟩
      have hread : (⟨row, (t.charsOf row).length - 1⟩ : CellPos) ∈ t.cellsRead s := by
        rw [mem_cellsRead hcell]
        exact ⟨hlone (hlo.trans_lt hhi) le_rfl, hlo, hhi.le, by dsimp only; omega,
          by dsimp only; omega⟩
      have hcontained := contains_iff.mp ((hagree _ hcell).mpr hread)
      dsimp only at hcontained
      omega
    · -- the first cell of the line is read, and left of the rectangle if that cuts the line
      intro row hlo hhi hne
      have hpos := List.length_pos_iff.mpr hne
      by_contra hcut
      have hcell : t.IsCell ⟨row, 0⟩ := ⟨le_rfl, by dsimp only; omega⟩
      have hread : (⟨row, 0⟩ : CellPos) ∈ t.cellsRead s := by
        rw [mem_cellsRead hcell]
        exact ⟨hlone hlo hhi, hlo.le, hhi, by dsimp only; omega, by dsimp only; omega⟩
      have hcontained := contains_iff.mp ((hagree _ hcell).mpr hread)
      dsimp only at hcontained
      omega
  · intro hnone pos hcell
    have hne : t.charsOf pos.row ≠ [] := by
      intro hnil
      have hlen := hcell.2
      have hlo := hcell.1
      rw [hnil, List.length_nil] at hlen
      omega
    have hhi := hcell.2
    have hright := hnone.right pos.row
    have hleft := hnone.left pos.row
    have horder := s.start_le
    rw [contains_iff, mem_cellsRead hcell]
    constructor
    · rintro ⟨hrow, hrow', hcol, hcol'⟩
      refine ⟨fun hl => ?_, hrow, hrow', fun _ => hcol, fun _ => hcol'⟩
      -- the two corners are one position, and it is this one
      rw [← hl.1] at hrow' hcol'
      have hstart : t.IsCell s.start := by
        rw [IsCell, ← le_antisymm hrow' hrow, ← le_antisymm hcol' hcol]
        exact hcell
      exact hnone.lone hl hstart
    · rintro ⟨-, hrow, hrow', hcol, hcol'⟩
      have hlo := hcell.1
      have hleft' := fun h => hleft h hrow' hne
      have hright' := fun h => hright hrow h hne
      omega

/-- Two rows of four cells, selected from the end of the first to the start of the second. -/
theorem wrapped_not_highlighted : ∃ t s, Reachable asciiTables t ∧ t.selection = some s ∧
    ¬ ∀ pos, t.IsCell pos → (s.contains pos = true ↔ pos ∈ t.cellsRead s) := by
  refine ⟨_, ⟨⟨0, 3⟩, ⟨1, 0⟩, .character⟩, ⟨.default, fontCells, _,
    [.resize 64 64 (.ok ()), .feed [0x61, 0x62, 0x63, 0x64, 0x65, 0x66, 0x67, 0x68],
      .selectionStart ⟨0, 3⟩ .character, .selectionExtend ⟨1, 0⟩], rfl, rfl⟩, rfl, fun hagree => ?_⟩
  have hcell := hagree ⟨0, 3⟩ ⟨by decide, by decide⟩
  revert hcell
  decide

end Terminal

end Ferrokey.Terminal
