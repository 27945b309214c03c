import Ferrokey.Collections.Text
import Ferrokey.Terminal.Glyphs

/-! # Characters of no width

A character of no width goes to the cell before the cursor. After a glyph that is the
cell of the glyph only if the cursor stands right of it: a narrow glyph at the end of a row
leaves the cursor on it, and a wide one elsewhere leaves it two cells further.
-/

namespace Ferrokey.Terminal

open Text

open Terminal (asciiTables)

def Cell.isEmpty (c : Cell) : Bool := c.ch == '\x00'

namespace Grid

/-- The characters of a row from a cell on, after a wide glyph or not. -/
def textFrom (prevWide : Bool) : Line → List Char
  | [] => []
  | cell :: l =>
    if cell.isWideCont || (prevWide && cell.isEmpty) then textFrom false l
    else (if cell.ch ≠ '\x00' then cell.ch :: cell.combining else []) ++ textFrom cell.isWide l

/-- The text of a row, without the white space at its end. -/
def lineText (g : Grid) (row : ℕ) : Option (List Char) := do
  let line ← g.line row
  some (trimEnd (textFrom false line))

/-- The characters of a cell. -/
def cellText (c : Cell) : List Char :=
  if c.isWideCont || c.isEmpty then [] else c.ch :: c.combining

/-- What came before a cell does not matter. -/
theorem textFrom_eq (prevWide : Bool) (l : Line) : textFrom prevWide l = l.flatMap cellText := by
  induction l generalizing prevWide with
  | nil => rfl
  | cons c l ih =>
    rw [textFrom, List.flatMap_cons, cellText]
    cases hcont : c.isWideCont with
    | true => simpa using ih false
    | false =>
      cases hempty : c.isEmpty with
      | true =>
        have hch : c.ch = '\x00' := by simpa [Cell.isEmpty] using hempty
        cases prevWide with
        | true => simpa using ih false
        | false => simpa [hch] using ih c.isWide
      | false =>
        have hch : c.ch ≠ '\x00' := by simpa [Cell.isEmpty] using hempty
        simpa [hch] using ih c.isWide

section Glyph

variable {g g' : Grid} {c r width : ℕ} {tables : UnicodeTables} {attrs : CellAttrs} {b z : Char}

/-- The cell that a glyph is put into. -/
def glyphCell (attrs : CellAttrs) (b : Char) (width : ℕ) : Cell :=
  if width = 2 then (makeCell b attrs).setFlag CellFlags.wide else makeCell b attrs

/-- The other half of a wide glyph. -/
def glyphRest (width : ℕ) : Line :=
  if width = 2 then [Cell.default.setFlag CellFlags.wideCont] else []

theorem glyphCells_eq (attrs : CellAttrs) (b : Char) (width : ℕ) :
    glyphCells (makeCell b attrs) width = glyphCell attrs b width :: glyphRest width := by
  unfold glyphCells glyphCell glyphRest
  split <;> rfl

theorem glyphCell_ch (attrs : CellAttrs) (b : Char) (width : ℕ) :
    (glyphCell attrs b width).ch = b ∧ (glyphCell attrs b width).combining = [] := by
  unfold glyphCell
  split <;> exact ⟨rfl, rfl⟩

/-- The screen after a glyph: it is in its row, and the cursor stands right of it or at the end. -/
theorem Sized.print_glyph (h : g.Sized c r) (hwidth : (tables.width b).getD 0 = width)
    (hne : width ≠ 0) (attrs : CellAttrs) : Returns (g.print tables b attrs) fun out =>
      out.1.Sized c r ∧
      out.1.rows = (g.wrapped width).rows.set (g.wrapped width).cursor.row
        ((g.wrapped width).glyphLine (makeCell b attrs) width) ∧
      out.1.cursor = ⟨(g.wrapped width).cursor.row,
        min ((g.wrapped width).cursor.col + width) (c - 1)⟩ := by
  obtain ⟨out, hout, hsized⟩ := h.print tables b attrs
  refine ⟨out, hout, hsized, ?_, ?_⟩
  · obtain ⟨col, wrapPending, hprint⟩ := h.print_eq hwidth hne attrs
    rw [hprint] at hout
    cases hout
    rfl
  · have hcursor : out.1.cursor = ((g.wrapped width).pen.advance width).cursor :=
      congrArg Pen.cursor (h.print_pen hwidth hne hout)
    have hcols : (g.wrapped width).pen.region.cols = c := (h.wrapped hne).cols_eq
    rw [hcursor, Pen.advance, hcols]
    split
    next hle =>
      have hle' : c - 1 ≤ (g.wrapped width).cursor.col + width := (Nat.sub_le c 1).trans hle
      rw [min_eq_right hle']
      rfl
    next hlt =>
      have hle : (g.wrapped width).cursor.col + width ≤ c - 1 :=
        Nat.le_sub_one_of_lt (not_le.mp hlt)
      rw [min_eq_left hle]
      rfl

theorem glyphLine_eq (g : Grid) (hb : width = 1 ∨ width = 2) :
    g.glyphLine (makeCell b attrs) width = g.cursorLine.take g.cursor.col ++
      glyphCell attrs b width :: (glyphRest width ++ g.cursorLine.drop (g.cursor.col + width)) := by
  have hlen : (glyphCells (makeCell b attrs) width).length = width := by
    rcases hb with rfl | rfl <;> rfl
  rw [glyphLine, hlen, glyphCells_eq, List.append_assoc, List.cons_append]

/-- The cell at the cursor, between those before it and those after it. -/
theorem Sized.getElem?_cursor (h : g.Sized c r) (cell : Cell) (rest : Line) :
    (g.cursorLine.take g.cursor.col ++ cell :: rest)[g.cursor.col]? = some cell := by
  have hlen : (g.cursorLine.take g.cursor.col).length = g.cursor.col := by
    rw [List.length_take, h.length_cursorLine, min_eq_left h.cursor.2.le]
  rw [List.getElem?_append_right hlen.le, hlen, Nat.sub_self, List.getElem?_cons_zero]

/-- A glyph is in the cell that it is put into. -/
theorem Sized.print_cellAt (h : g.Sized c r) (hwidth : (tables.width b).getD 0 = width)
    (hb : width = 1 ∨ width = 2) (attrs : CellAttrs) : Returns (g.print tables b attrs) fun out =>
      out.1.cellAt (g.wrapped width).cursor.row (g.wrapped width).cursor.col =
        some (glyphCell attrs b width) := by
  have hne : width ≠ 0 := by rcases hb with rfl | rfl <;> decide
  have hw := h.wrapped hne
  apply (h.print_glyph hwidth hne attrs).mono
  rintro out ⟨-, hrows, -⟩
  have hrow : (g.wrapped width).cursor.row < (g.wrapped width).rows.length :=
    hw.cursor.1.trans_eq hw.shape.1.symm
  rw [cellAt, hrows, List.getElem?_set_self hrow, glyphLine_eq _ hb]
  exact hw.getElem?_cursor _ _

/-- The mark goes into the cell of the glyph, and the text of the row has it next to the glyph. -/
structure Combined (g : Grid) (pos : Pos) (b z : Char) : Prop where
  stored : ∃ cell, g.cellAt pos.row pos.col = some cell ∧ cell.ch = b ∧ z ∈ cell.combining
  text : Returns (g.lineText pos.row) ([b, z] <:+: ·)

/-- A narrow glyph does not fill the last column, or a wide one does; and the mark is not white
space at the end of the row, unless the row has the two characters already. -/
structure TakesMark (g : Grid) (width : ℕ) (b z : Char) : Prop where
  place : (g.wrapped width).cursor.col + width = g.cols ↔ width = 2
  kept : isWhitespace z = false ∨
    (∃ ch ∈ textFrom false
      ((g.wrapped width).cursorLine.drop ((g.wrapped width).cursor.col + width)),
        isWhitespace ch = false) ∨
    [b, z] <:+: trimEnd (textFrom false
      ((g.wrapped width).cursorLine.take (g.wrapped width).cursor.col) ++ [b])

theorem infix_trimEnd_iff {before after : List Char} :
    [b, z] <:+: trimEnd (before ++ [b] ++ z :: after) ↔ isWhitespace z = false ∨
      (∃ ch ∈ after, isWhitespace ch = false) ∨ [b, z] <:+: trimEnd (before ++ [b]) := by
  by_cases hkept : ∃ ch ∈ z :: after, isWhitespace ch = false
  · have hne : trimEnd (z :: after) ≠ [] := by
      obtain ⟨ch, hmem, hch⟩ := hkept
      intro hnil
      have hwhite := List.rdropWhile_eq_nil_iff.mp hnil ch hmem
      rw [hch] at hwhite
      cases hwhite
    obtain ⟨y, rest, hrest⟩ := List.exists_cons_of_ne_nil hne
    obtain rfl : y = z := by
      have hprefix : trimEnd (z :: after) <+: z :: after := List.rdropWhile_prefix _ _
      rw [hrest] at hprefix
      exact (List.cons_prefix_cons.mp hprefix).1
    rw [trimEnd_append_of_exists _ hkept, hrest]
    refine iff_of_true ⟨before, rest, by simp⟩ ?_
    obtain ⟨ch, hmem, hch⟩ := hkept
    rcases List.mem_cons.mp hmem with rfl | hmem
    · exact .inl hch
    · exact .inr (.inl ⟨ch, hmem, hch⟩)
  · have hwhite : ∀ ch ∈ z :: after, isWhitespace ch = true := by
      intro ch hmem
      by_contra hch
      exact hkept ⟨ch, hmem, Bool.not_eq_true _ ▸ hch⟩
    rw [trimEnd_append_white _ hwhite]
    constructor
    · exact fun h => .inr (.inr h)
    · rintro (hz | ⟨ch, hmem, hch⟩ | h)
      · exact absurd ⟨z, List.mem_cons_self, hz⟩ hkept
      · exact absurd ⟨ch, List.mem_cons_of_mem z hmem, hch⟩ hkept
      · exact h

theorem flatMap_glyphRest (width : ℕ) : (glyphRest width).flatMap cellText = [] := by
  unfold glyphRest
  split <;> rfl

/-- A glyph shows unless the pen makes it the half of another one. -/
theorem cellText_glyphCell (hattrs : attrs.flags.contains CellFlags.wideCont = false)
    (hb : b ≠ '\x00') (width : ℕ) (marks : List Char) :
    cellText { glyphCell attrs b width with combining := marks } = b :: marks := by
  have hcont : (glyphCell attrs b width).flags.contains CellFlags.wideCont = false := by
    unfold glyphCell
    split
    · exact (attrs.flags.contains_set (by decide) (by decide) true).trans hattrs
    · exact hattrs
  have hch := (glyphCell_ch attrs b width).1
  simp [cellText, Cell.isWideCont, Cell.isEmpty, hcont, hch, hb]

/-- The cursor is right of the cell of the glyph. -/
theorem Sized.place_iff (h : g.Sized c r) (hb : width = 1 ∨ width = 2) :
    min ((g.wrapped width).cursor.col + width) (c - 1) - 1 = (g.wrapped width).cursor.col ↔
      ((g.wrapped width).cursor.col + width = g.cols ↔ width = 2) := by
  have hcols := h.cols_eq
  have hmin : minCols ≤ c := (sizeInBounds_iff.mp h.bounds).1.1
  unfold minCols at hmin
  rcases hb with rfl | rfl
  · have hcol := (h.wrapped one_ne_zero).cursor.2
    omega
  · have hroom := h.wrapped_room
    omega

/-- A mark goes into a cell that has none. -/
theorem Sized.attached_line (h : g.Sized c r) {cell : Cell} (hpos : 0 < g.cursor.col)
    (hcell : g.cursorLine[g.cursor.col - 1]? = some cell) (hroom : cell.combining = []) (z : Char) :
    (g.attached z).rows[g.cursor.row]? =
      some (g.cursorLine.set (g.cursor.col - 1) { cell with combining := [z] }) := by
  have hattachee : g.attachee = some cell := by
    simp [attachee, hpos, hcell, hroom, maxCombining]
  have hrow : g.cursor.row < g.rows.length := h.cursor.1.trans_eq h.shape.1.symm
  simp only [attached, hattachee, putRow, List.getElem?_set_self hrow, hroom, List.nil_append]

/-- A mark leaves the cells that are not right before the cursor. -/
theorem Sized.attached_other (h : g.Sized c r) {col : ℕ} (hcol : g.cursor.col - 1 ≠ col)
    (z : Char) : ∃ l, (g.attached z).rows[g.cursor.row]? = some l ∧
      l[col]? = g.cursorLine[col]? := by
  have hrow : g.cursor.row < g.rows.length := h.cursor.1.trans_eq h.shape.1.symm
  unfold Grid.attached
  split
  · exact ⟨_, List.getElem?_set_self hrow, List.getElem?_set_ne hcol⟩
  · exact ⟨_, h.getElem?_cursorLine, rfl⟩

/-- A glyph and a mark right after it. -/
def printMarked (g : Grid) (tables : UnicodeTables) (b z : Char) (attrs attrs' : CellAttrs) :
    Option Grid := do
  let (g, _) ← g.print tables b attrs
  let (g, _) ← g.print tables z attrs'
  some g

/-- What becomes of the row of a glyph that a mark follows. -/
theorem Sized.printMarked_line (h : g.Sized c r) (hwidth : (tables.width b).getD 0 = width)
    (hb : width = 1 ∨ width = 2) (hz : (tables.width z).getD 0 = 0) (attrs attrs' : CellAttrs) :
    Returns (g.printMarked tables b z attrs attrs') fun g' => ∃ l,
      g'.rows[(g.wrapped width).cursor.row]? = some l ∧
      (((g.wrapped width).cursor.col + width = g.cols ↔ width = 2) →
        l = (g.wrapped width).cursorLine.take (g.wrapped width).cursor.col ++
          { glyphCell attrs b width with combining := [z] } ::
            (glyphRest width ++
              (g.wrapped width).cursorLine.drop ((g.wrapped width).cursor.col + width))) ∧
      (¬ ((g.wrapped width).cursor.col + width = g.cols ↔ width = 2) →
        l[(g.wrapped width).cursor.col]? = some (glyphCell attrs b width)) := by
  have hne : width ≠ 0 := by rcases hb with rfl | rfl <;> decide
  have hw := h.wrapped hne
  have hlen : ((g.wrapped width).cursorLine.take (g.wrapped width).cursor.col).length =
      (g.wrapped width).cursor.col := by
    rw [List.length_take, hw.length_cursorLine, min_eq_left hw.cursor.2.le]
  obtain ⟨⟨g₁, scrolled⟩, hprint, h₁, hrows, hcursor⟩ := h.print_glyph hwidth hne attrs
  rw [glyphLine_eq _ hb] at hrows
  generalize hrest : glyphRest width ++
    (g.wrapped width).cursorLine.drop ((g.wrapped width).cursor.col + width) = rest at hrows ⊢
  have hline : g₁.cursorLine = (g.wrapped width).cursorLine.take (g.wrapped width).cursor.col ++
      glyphCell attrs b width :: rest := by
    have hrow : (g.wrapped width).cursor.row < (g.wrapped width).rows.length :=
      hw.cursor.1.trans_eq hw.shape.1.symm
    rw [cursorLine, hcursor, hrows, List.getElem?_set_self hrow, Option.getD_some]
  have hcell : g₁.cursorLine[(g.wrapped width).cursor.col]? = some (glyphCell attrs b width) := by
    rw [hline]
    exact hw.getElem?_cursor _ _
  have hcol : g₁.cursor.col - 1 = (g.wrapped width).cursor.col ↔
      ((g.wrapped width).cursor.col + width = g.cols ↔ width = 2) := by
    rw [hcursor]
    exact h.place_iff hb
  refine ⟨g₁.attached z, ?_, ?_⟩
  · rw [printMarked, hprint]
    simp only [Option.bind_eq_bind, Option.bind_some, h₁.print_attach hz attrs']
  · have hrow : (g.wrapped width).cursor.row = g₁.cursor.row := (congrArg Pos.row hcursor).symm
    rw [hrow, ← hcol]
    by_cases hplace : g₁.cursor.col - 1 = (g.wrapped width).cursor.col
    · have hpos : 0 < g₁.cursor.col := by
        rw [hcursor]
        have hmin : minCols ≤ c := (sizeInBounds_iff.mp h.bounds).1.1
        unfold minCols at hmin
        dsimp only
        omega
      have hset : g₁.cursorLine.set (g.wrapped width).cursor.col
          { glyphCell attrs b width with combining := [z] } =
            (g.wrapped width).cursorLine.take (g.wrapped width).cursor.col ++
              { glyphCell attrs b width with combining := [z] } :: rest := by
        rw [hline, List.set_append_right _ _ hlen.le, hlen, Nat.sub_self, List.set_cons_zero]
      refine ⟨_, h₁.attached_line hpos (hplace ▸ hcell) (glyphCell_ch attrs b width).2 z, ?_, ?_⟩
      · exact fun _ => hplace ▸ hset
      · exact fun hother => absurd hplace hother
    · obtain ⟨l, hl, hother⟩ := h₁.attached_other hplace z
      exact ⟨l, hl, fun hsame => absurd hsame hplace, fun _ => hother.trans hcell⟩

/-- A mark is found with the glyph before it exactly if the cursor is right of that glyph's cell
and the mark is not taken off as white space. -/
theorem Sized.combined_iff (h : g.Sized c r) (hnul : (tables.width '\x00').getD 0 = 0)
    (hwidth : (tables.width b).getD 0 = width) (hb : width = 1 ∨ width = 2)
    (hz : (tables.width z).getD 0 = 0)
    (hattrs : attrs.flags.contains CellFlags.wideCont = false) (attrs' : CellAttrs) :
    Returns (g.printMarked tables b z attrs attrs') fun g' =>
      Combined g' (g.wrapped width).cursor b z ↔ TakesMark g width b z := by
  have hne : b ≠ '\x00' := by
    rintro rfl
    rw [hnul] at hwidth
    omega
  apply (h.printMarked_line hwidth hb hz attrs attrs').mono
  rintro g' ⟨l, hl, hright, hwrong⟩
  have hzero : width ≠ 0 := by omega
  have hw := h.wrapped hzero
  have hcell : g'.cellAt (g.wrapped width).cursor.row (g.wrapped width).cursor.col =
      l[(g.wrapped width).cursor.col]? := by rw [cellAt, hl, Option.bind_some]
  by_cases hplace : (g.wrapped width).cursor.col + width = g.cols ↔ width = 2
  · have hline := hright hplace
    have htext : g'.lineText (g.wrapped width).cursor.row = some (trimEnd (
        textFrom false ((g.wrapped width).cursorLine.take (g.wrapped width).cursor.col) ++ [b] ++
          z :: textFrom false
            ((g.wrapped width).cursorLine.drop ((g.wrapped width).cursor.col + width)))) := by
      rw [lineText, line, hl, hline]
      simp only [textFrom_eq, List.flatMap_append, List.flatMap_cons, flatMap_glyphRest,
        cellText_glyphCell hattrs hne, Option.bind_eq_bind, Option.bind_some, List.nil_append,
        List.append_assoc, List.cons_append]
    have hstored : ∃ cell, g'.cellAt (g.wrapped width).cursor.row (g.wrapped width).cursor.col =
        some cell ∧ cell.ch = b ∧ z ∈ cell.combining := by
      refine ⟨{ glyphCell attrs b width with combining := [z] }, ?_,
        (glyphCell_ch attrs b width).1, List.mem_singleton_self z⟩
      rw [hcell, hline]
      exact hw.getElem?_cursor _ _
    constructor
    · rintro ⟨-, _, htext', hinfix⟩
      rw [htext] at htext'
      cases htext'
      exact ⟨hplace, infix_trimEnd_iff.mp hinfix⟩
    · rintro ⟨-, hkept⟩
      exact ⟨hstored, .of_eq htext (infix_trimEnd_iff.mpr hkept)⟩
  · refine iff_of_false ?_ fun htakes => hplace htakes.place
    rintro ⟨⟨cell, hat, -, hmark⟩, -⟩
    rw [hcell, hwrong hplace] at hat
    cases hat
    rw [(glyphCell_ch attrs b width).2] at hmark
    cases hmark

end Glyph

/-- A screen of two columns with the cursor in the last one. -/
def lastColumn : Option Grid := do
  let g ← (Grid.new 2 1).toOption
  g.setCol 1

theorem lastColumn_sized : Returns lastColumn (Sized 2 1) := by
  obtain ⟨g, hg, hs⟩ := new_sized (show sizeInBounds 2 1 = true from rfl)
  rw [lastColumn, hg]
  exact hs.setCol 1

theorem lastColumn_combined_iff : Returns lastColumn fun g =>
    Returns (g.printMarked asciiTables 'b' '\u0301' .default .default) fun g' =>
      Combined g' (g.wrapped 1).cursor 'b' '\u0301' ↔ TakesMark g 1 'b' '\u0301' :=
  lastColumn_sized.mono fun _ h => h.combined_iff rfl rfl (.inl rfl) rfl rfl .default

/-- The accent goes to the cell left of the letter. -/
theorem lastColumn_not_combined : ∃ g g', lastColumn = some g ∧
    g.printMarked asciiTables 'b' '\u0301' .default .default = some g' ∧
      ¬ Combined g' (g.wrapped 1).cursor 'b' '\u0301' := by
  refine ⟨_, _, rfl, rfl, fun h => ?_⟩
  obtain ⟨cell, hcell, -, hmark⟩ := h.stored
  cases hcell
  revert hmark
  decide

end Grid

end Ferrokey.Terminal
