import Ferrokey.Terminal.Combining
import Ferrokey.Terminal.Highlight

/-! # Copied columns

What is copied of a row has none of its empty cells. Printed on an empty row, the
characters therefore come to their old columns exactly if no empty cell stands between
them.
-/

set_option linter.dupNamespace false

namespace Ferrokey.Terminal

/-! ### A text on an empty row -/

namespace Grid

variable {g : Grid} {c r row : ℕ} {tables : UnicodeTables} {ch : Char} {text text' : List Char}

def printText (g : Grid) (tables : UnicodeTables) (attrs : CellAttrs) (text : List Char) :
    Option Grid :=
  text.foldlM (fun g ch => (g.print tables ch attrs).map Prod.fst) g

/-- The cursor stands at the start of an empty row. -/
structure AtEmptyRow (c r : ℕ) (g : Grid) : Prop extends Sized c r g where
  col : g.cursor.col = 0
  pending : g.wrapPending = false
  blank : ∀ cell ∈ g.cursorLine, cell.ch = '\x00'

/-- A row holds a text from its first column on, and the cursor stands behind the text. -/
structure Holds (c r row : ℕ) (text : List Char) (g : Grid) : Prop extends Sized c r g where
  row_eq : g.cursor.row = row
  col : g.cursor.col = min text.length (c - 1)
  pending : g.wrapPending = decide (c ≤ text.length)
  chars : g.cursorLine.map Cell.ch = text ++ List.replicate (c - text.length) '\x00'

theorem new_atEmptyRow (h : sizeInBounds c r = true) :
    ∃ g, Grid.new c r = .ok g ∧ g.AtEmptyRow c r := by
  obtain ⟨g, hnew, hsized⟩ := new_sized h
  have hblank : Grid.new c r = .ok g → ∀ cell ∈ g.cursorLine, cell.ch = '\x00' := by
    rw [Grid.new, if_pos h]
    intro hg cell hcell
    cases hg
    have hline := hsized.getElem?_cursorLine
    have hrow := List.eq_of_mem_replicate (List.mem_of_getElem? hline)
    rw [hrow] at hcell
    rw [List.eq_of_mem_replicate hcell]
    rfl
  have hstart : Grid.new c r = .ok g → g.cursor.col = 0 ∧ g.wrapPending = false := by
    rw [Grid.new, if_pos h]
    intro hg
    cases hg
    exact ⟨rfl, rfl⟩
  exact ⟨g, hnew, hsized, (hstart hnew).1, (hstart hnew).2, hblank hnew⟩

theorem AtEmptyRow.holds (h : g.AtEmptyRow c r) : g.Holds c r g.cursor.row [] where
  toSized := h.toSized
  row_eq := rfl
  col := by
    rw [h.col]
    exact (Nat.zero_min _).symm
  pending := by
    have hpos := h.cols_pos
    rw [h.pending, List.length_nil, decide_eq_false (Nat.not_le.mpr hpos)]
  chars := by
    have hlen := h.length_cursorLine
    rw [List.nil_append, List.length_nil, Nat.sub_zero, List.eq_replicate_iff, List.length_map]
    refine ⟨hlen, ?_⟩
    intro ch hch
    obtain ⟨cell, hcell, rfl⟩ := List.mem_map.mp hch
    exact h.blank cell hcell

/-- A narrow character goes behind the text, as long as there is room. -/
theorem Holds.print (h : g.Holds c r row text) (hroom : text.length < c)
    (hwidth : (tables.width ch).getD 0 = 1) (attrs : CellAttrs) :
    Returns (g.print tables ch attrs) fun out => out.1.Holds c r row (text ++ [ch]) := by
  have hcol : g.cursor.col = text.length := by
    rw [h.col]
    exact min_eq_left (Nat.le_sub_one_of_lt hroom)
  have hwraps : g.wrapped 1 = g := by
    have hpending : g.wrapPending = false := by
      rw [h.pending]
      exact decide_eq_false (Nat.not_le.mpr hroom)
    simp [Grid.wrapped, Grid.wraps, hpending]
  obtain ⟨out, hout, hsized, hrows, hcursor⟩ := h.print_glyph hwidth one_ne_zero attrs
  have hpen := h.print_pen hwidth one_ne_zero hout
  rw [hwraps] at hrows hcursor hpen
  have hlen : (text ++ [ch]).length = text.length + 1 := List.length_append
  refine ⟨out, hout, hsized, ?_, ?_, ?_, ?_⟩
  · rw [hcursor]
    exact h.row_eq
  · rw [hcursor, hlen, ← hcol]
  · have hpending : out.1.wrapPending = (g.pen.advance 1).wrapPending :=
      congrArg Pen.wrapPending hpen
    have hcols : g.pen.region.cols = c := h.cols_eq
    have hpos : g.pen.cursor.col = text.length := hcol
    rw [hpending, Pen.wrapPending_advance, hcols, hpos, hlen]
  · have hrow : g.cursor.row < g.rows.length := h.cursor.1.trans_eq h.shape.1.symm
    have hline : out.1.cursorLine = g.glyphLine (makeCell ch attrs) 1 := by
      rw [cursorLine, hcursor, hrows, List.getElem?_set_self hrow, Option.getD_some]
    have hrest : c - text.length = (c - (text.length + 1)) + 1 := by omega
    rw [hline, glyphLine_eq g (.inl rfl), hcol, List.map_append, List.map_take, List.map_cons,
      List.map_append, List.map_drop, h.chars, (glyphCell_ch attrs ch 1).1, hlen, hrest,
      List.take_left, List.drop_append, List.replicate_succ]
    simp [glyphRest]

/-- A text of narrow characters that fits goes behind the text that is there. -/
theorem Holds.printText (h : g.Holds c r row text) (hroom : text.length + text'.length ≤ c)
    (hwidth : ∀ ch ∈ text', (tables.width ch).getD 0 = 1) (attrs : CellAttrs) :
    Returns (g.printText tables attrs text') (Holds c r row (text ++ text')) := by
  induction text' generalizing g text with
  | nil => exact ⟨g, rfl, by rwa [List.append_nil]⟩
  | cons ch text' ih =>
    rw [List.length_cons] at hroom
    obtain ⟨out, hout, hnext⟩ := h.print (by omega) (hwidth ch List.mem_cons_self) attrs
    have hlen : (text ++ [ch]).length + text'.length ≤ c := by
      rw [List.length_append, List.length_singleton]
      omega
    have hrest := ih hnext hlen fun ch' hmem => hwidth ch' (List.mem_cons_of_mem ch hmem)
    rw [List.append_assoc, List.singleton_append] at hrest
    rw [Grid.printText, List.foldlM_cons, hout]
    exact hrest

/-- The character of a cell in the row that holds a text. -/
theorem Holds.cellAt (h : g.Holds c r row text) (col : ℕ) :
    (g.cellAt row col).map Cell.ch = (text ++ List.replicate (c - text.length) '\x00')[col]? := by
  rw [← h.chars, List.getElem?_map, Grid.cellAt, ← h.row_eq, h.getElem?_cursorLine,
    Option.bind_some]

end Grid

/-! ### A row that is copied -/

/-- Reading the first columns of a line that it has, but not what is left out. -/
theorem flatMap_range_getElem? {α : Type} (p : α → Bool) (l : List α) (n : ℕ) :
    ((List.range n).flatMap fun i => (l[i]?.toList).filter p) = (l.take n).filter p := by
  induction n with
  | zero => simp
  | succ n ih =>
    rw [List.range_succ, List.flatMap_append, ih, List.take_add_one, List.filter_append,
      List.flatMap_singleton]

namespace Terminal

variable {t : Terminal} {tables : UnicodeTables} {attrs : CellAttrs} {g : Grid} {row : ℤ}
  {last r : ℕ}

/-- A row of narrow characters and empty cells is selected from its first cell up to the last one
that is not empty. -/
structure SelectsRow (tables : UnicodeTables) (t : Terminal) (row : ℤ) (last : ℕ) : Prop where
  selection : t.selection = some ⟨⟨row, 0⟩, ⟨row, last⟩, .character⟩
  narrow : ∀ ch ∈ t.charsOf row, ch = '\x00' ∨ (tables.width ch).getD 0 = 1
  shown : ∃ ch, (t.charsOf row)[last]? = some ch ∧ ch ≠ '\x00'
  behind : ∀ col ch, last < col → (t.charsOf row)[col]? = some ch → ch = '\x00'

/-- There is a selected text, and printing it puts the characters of a row in their columns. -/
def KeepsColumns (tables : UnicodeTables) (attrs : CellAttrs) (t : Terminal) (row : ℤ) (g : Grid) :
    Prop :=
  ∃ text, t.selectedText = some (some text) ∧ Returns (g.printText tables attrs text) fun g' =>
    ∀ col ch, (t.charsOf row)[col]? = some ch → ch ≠ '\x00' →
      (g'.cellAt g.cursor.row col).map Cell.ch = some ch

theorem SelectsRow.lt_length (h : t.SelectsRow tables row last) :
    last < (t.charsOf row).length := by
  obtain ⟨ch, hch, -⟩ := h.shown
  exact (List.getElem?_eq_some_iff.mp hch).1

/-- What is copied of the row are its characters up to the last one that are not empty cells,
unless that is the first cell. -/
theorem SelectsRow.selectedText (h : t.SelectsRow tables row last) (hv : t.Valid) :
    t.selectedText = some (if last = 0 then none
      else some (((t.charsOf row).take (last + 1)).filter (· != '\x00'))) := by
  have hlt := h.lt_length
  have hle : CellPos.le ⟨row, 0⟩ ⟨row, last⟩ = true := by simp [CellPos.le]
  split
  next hzero =>
    subst hzero
    exact selectedText_lone h.selection ⟨by simp [Selection.start, Selection.finish], rfl⟩
  next hpos =>
    have hlone : ¬ Selection.isLone ⟨⟨row, 0⟩, ⟨row, last⟩, .character⟩ := by
      rintro ⟨heq, -⟩
      simp only [Selection.start, Selection.finish, hle, if_true, CellPos.mk.injEq] at heq
      omega
    have hne : ¬ (t.charsOf row).isEmpty = true := by
      intro hempty
      rw [List.isEmpty_iff.mp hempty] at hlt
      exact Nat.not_lt_zero _ hlt
    have hrow : span row row = [row] := by simp [span]
    have hcols : t.columnsRead ⟨row, 0⟩ ⟨row, last⟩ row =
        (List.range (last + 1)).map fun i : ℕ => (i : ℤ) := by
      have hmin : min (last : ℤ) ((t.charsOf row).length - 1) = last := by omega
      have hcount : ((last : ℤ) - 0 + 1).toNat = last + 1 := by omega
      simp only [columnsRead, if_neg hne, if_true, max_self, hmin, span, hcount, zero_add]
    rw [selectedText_eq hv h.selection hlone]
    simp only [Selection.start, Selection.finish, hle, if_true, hrow, List.flatMap_singleton,
      breakAfter, lt_irrefl, if_false, List.append_nil, hcols, List.flatMap_map, charAt,
      Int.toNat_natCast, flatMap_range_getElem?]

/-- A row that is copied and printed keeps its columns exactly if there is no empty cell before its
last character and that is not in the first column. -/
theorem keepsColumns_iff (hv : t.Valid) (h : t.SelectsRow tables row last)
    (hg : g.AtEmptyRow (t.charsOf row).length r) (attrs : CellAttrs) :
    t.KeepsColumns tables attrs row g ↔ 0 < last ∧ '\x00' ∉ (t.charsOf row).take last := by
  have hlt := h.lt_length
  have hcopied := h.selectedText hv
  generalize htext : ((t.charsOf row).take (last + 1)).filter (· != '\x00') = text at hcopied
  have hprinted : Returns (g.printText tables attrs text)
      (Grid.Holds (t.charsOf row).length r g.cursor.row text) := by
    refine hg.holds.printText ?_ ?_ attrs
    · have hfilter := List.length_filter_le (· != '\x00') ((t.charsOf row).take (last + 1))
      rw [htext, List.length_take] at hfilter
      rw [List.length_nil]
      omega
    · intro ch hch
      rw [← htext, List.mem_filter, bne_iff_ne] at hch
      exact (h.narrow ch (List.mem_of_mem_take hch.1)).resolve_left hch.2
  obtain ⟨lastCh, hlast, hshown⟩ := h.shown
  have htake : (t.charsOf row).take (last + 1) = (t.charsOf row).take last ++ [lastCh] := by
    rw [List.take_add_one, hlast, Option.toList_some]
  constructor
  · rintro ⟨copied, hsome, g', hprint, hkeeps⟩
    have hpos : last ≠ 0 := by
      rintro rfl
      rw [hcopied, if_pos rfl] at hsome
      cases hsome
    rw [hcopied, if_neg hpos] at hsome
    cases hsome
    refine ⟨Nat.pos_of_ne_zero hpos, fun hgap => ?_⟩
    obtain ⟨_, hprint', hholds⟩ := hprinted
    rw [hprint] at hprint'
    cases hprint'
    -- with an empty cell left out, the text ends before the column of the last character
    have hshort : text.length ≤ last := by
      have hfilter := List.length_filter_lt_length_iff_exists (p := (· != '\x00')).mpr
        ⟨'\x00', List.mem_append_left [lastCh] hgap, by decide⟩
      rw [← htake, htext, List.length_take, min_eq_left hlt] at hfilter
      exact Nat.le_of_lt_succ hfilter
    have hempty := hholds.cellAt last
    rw [hkeeps last lastCh hlast hshown, List.getElem?_append_right hshort,
      List.getElem?_replicate, if_pos (by omega)] at hempty
    exact hshown (Option.some_inj.mp hempty)
  · rintro ⟨hpos, hgapless⟩
    have hall : text = (t.charsOf row).take (last + 1) := by
      rw [← htext, List.filter_eq_self, htake]
      intro ch hch
      rw [bne_iff_ne]
      rintro rfl
      rcases List.mem_append.mp hch with hmem | hmem
      · exact hgapless hmem
      · exact hshown (List.mem_singleton.mp hmem).symm
    have hlen : text.length = last + 1 := by
      rw [hall, List.length_take]
      exact min_eq_left hlt
    rw [if_neg hpos.ne'] at hcopied
    refine ⟨text, hcopied, hprinted.mono ?_⟩
    intro g' hholds col ch hch hne
    have hcol : col ≤ last := by
      by_contra hbehind
      exact hne (h.behind col ch (Nat.lt_of_not_le hbehind) hch)
    rw [hholds.cellAt, List.getElem?_append_left (by omega), hall,
      List.getElem?_take_of_lt (by omega)]
    exact hch

/-- A row of four cells is filled and selected up to one of them. -/
def selectUpTo (last : ℕ) (bytes : List UInt8) : List TerminalOp :=
  [.resize 64 64 (.ok ()), .feed bytes, .selectionStart ⟨0, 0⟩ .character,
    .selectionExtend ⟨0, last⟩]

/-- Two characters next to each other. -/
theorem adjacent_keepsColumns_iff : ∃ t g, Reachable asciiTables t ∧ Grid.new 4 2 = .ok g ∧
    (t.KeepsColumns asciiTables .default 0 g ↔ 0 < 1 ∧ '\x00' ∉ (t.charsOf 0).take 1) := by
  obtain ⟨g, hnew, hg⟩ := Grid.new_atEmptyRow (c := 4) (r := 2) (by decide)
  obtain ⟨t₀, h₀⟩ : ∃ t₀, Terminal.new .default fontCells = .ok t₀ := ⟨_, rfl⟩
  have hfacts : (Terminal.new .default fontCells).toOption.bind (fun t =>
      (performAll asciiTables t (selectUpTo 1 [0x61, 0x62])).map fun t =>
        (t.selection, t.charsOf 0)) =
      some (some ⟨⟨0, 0⟩, ⟨0, 1⟩, .character⟩, ['a', 'b', '\x00', '\x00']) := by decide
  rw [h₀] at hfacts
  obtain ⟨t, hrun, hpair⟩ := Option.map_eq_some_iff.mp hfacts
  obtain ⟨hselection, hchars⟩ := Prod.mk.inj hpair
  have hreach : Reachable asciiTables t := ⟨.default, fontCells, t₀, _, h₀, hrun⟩
  have hselects : t.SelectsRow asciiTables 0 1 := by
    refine ⟨hselection, ?_, ⟨'b', ?_, by decide⟩, ?_⟩ <;> rw [hchars]
    · simp [asciiTables]
    · rfl
    · rintro (_ | _ | _ | _ | col) ch hlt hch
      · omega
      · omega
      · cases hch
        rfl
      · cases hch
        rfl
      · simp at hch
  rw [← show (t.charsOf 0).length = 4 by rw [hchars]; rfl] at hg
  exact ⟨t, g, hreach, hnew, keepsColumns_iff hreach.kept.toValid hselects hg .default⟩

/-- Two characters with an empty cell between them are copied as neighbours. -/
theorem gap_not_keepsColumns : ∃ t g, Reachable asciiTables t ∧ t.SelectsRow asciiTables 0 2 ∧
    g.AtEmptyRow (t.charsOf 0).length 2 ∧ ¬ t.KeepsColumns asciiTables .default 0 g := by
  obtain ⟨g, hnew, hg⟩ := Grid.new_atEmptyRow (c := 4) (r := 2) (by decide)
  obtain ⟨t₀, h₀⟩ : ∃ t₀, Terminal.new .default fontCells = .ok t₀ := ⟨_, rfl⟩
  have hfacts : (Terminal.new .default fontCells).toOption.bind (fun t =>
      (performAll asciiTables t (selectUpTo 2 [0x61, 0x1B, 0x5B, 0x43, 0x62])).map fun t =>
        (t.selection, t.charsOf 0, t.selectedText)) =
      some (some ⟨⟨0, 0⟩, ⟨0, 2⟩, .character⟩, ['a', '\x00', 'b', '\x00'], some (some ['a', 'b'])) := by
    decide
  have hprinted : (Grid.new 4 2).toOption.bind (fun g =>
      (g.printText asciiTables .default ['a', 'b']).map fun g' =>
        (g'.cellAt g.cursor.row 2).map Cell.ch) = some (some '\x00') := by decide
  rw [h₀] at hfacts
  rw [hnew] at hprinted
  obtain ⟨t, hrun, htriple⟩ := Option.map_eq_some_iff.mp hfacts
  obtain ⟨hselection, hrest⟩ := Prod.mk.inj htriple
  obtain ⟨hchars, hcopied⟩ := Prod.mk.inj hrest
  refine ⟨t, g, ⟨.default, fontCells, t₀, _, h₀, hrun⟩, ?_, ?_, ?_⟩
  · refine ⟨hselection, ?_, ⟨'b', ?_, by decide⟩, ?_⟩ <;> rw [hchars]
    · simp [asciiTables]
    · rfl
    · rintro (_ | _ | _ | _ | col) ch hlt hch
      · omega
      · omega
      · omega
      · cases hch
        rfl
      · simp at hch
  · rw [hchars]
    exact hg
  · rintro ⟨text, htext, g', hprint, hkeeps⟩
    rw [hcopied] at htext
    cases htext
    obtain ⟨g'', hprint', hcell⟩ := Option.map_eq_some_iff.mp hprinted
    rw [hprint] at hprint'
    cases hprint'
    rw [hkeeps 2 'b' (by rw [hchars]; rfl) (by decide)] at hcell
    exact absurd hcell (by decide)

end Terminal

end Ferrokey.Terminal
