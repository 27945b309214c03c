import Ferrokey.Collections.Pairing
import Ferrokey.Terminal.Pen

/-! # Halves of wide glyphs

A wide glyph takes two cells, and most edits of the screen look at one cell only. A line
is whole if it has no half of a glyph alone. Every edit keeps the lines whole exactly if
it begins and ends where no glyph is cut.
-/

set_option linter.dupNamespace false

namespace Ferrokey.Terminal

/-- A line without half a glyph. -/
def Whole (l : Line) : Prop := Paired Cell.isWide Cell.isWideCont l

/-- Whether a glyph is cut before a column. -/
def cutsGlyph (l : Line) (col : ℕ) : Bool := cutAt Cell.isWide l col

/-! ### Flags -/

/-- What is printed takes a cell of its own. -/
def CellAttrs.Narrow (a : CellAttrs) : Prop :=
  a.flags.contains CellFlags.wide = false ∧ a.flags.contains CellFlags.wideCont = false

theorem and_or_right (a b c : UInt8) : (a ||| b) &&& c = a &&& c ||| b &&& c := by
  apply UInt8.toBitVec_inj.mp
  simp only [UInt8.toBitVec_and, UInt8.toBitVec_or]
  ext i
  simp [Bool.and_or_distrib_right]

/-- A flag does not meet another one. -/
theorem CellFlags.contains_set (f : CellFlags) {flag other : UInt8} (hor : flag &&& other = 0)
    (hand : other &&& ~~~flag = other) (on : Bool) :
    (f.set flag on).contains other = f.contains other := by
  cases on with
  | true => simp [CellFlags.set, CellFlags.contains, and_or_right, hor]
  | false =>
    have hclear : f.bits &&& ~~~flag &&& other = f.bits &&& other := by
      rw [UInt8.and_assoc, UInt8.and_comm (~~~flag), hand]
    simp [CellFlags.set, CellFlags.contains, hclear]

theorem CellFlags.contains_set_self (f : CellFlags) (flag : UInt8) :
    (f.set flag true).contains flag = true := by
  have hself : (f.bits ||| flag) &&& flag = flag := by
    apply UInt8.toBitVec_inj.mp
    simp only [UInt8.toBitVec_and, UInt8.toBitVec_or]
    ext i
    simp only [BitVec.getElem_and, BitVec.getElem_or]
    cases f.bits.toBitVec[i] <;> cases flag.toBitVec[i] <;> rfl
  simp [CellFlags.set, CellFlags.contains, hself]

namespace CellAttrs

variable {a : CellAttrs}

theorem narrow_default : Narrow .default := ⟨by decide, by decide⟩

theorem Narrow.setFlag (h : a.Narrow) {flag : UInt8}
    (hwide : flag &&& CellFlags.wide = 0 ∧ CellFlags.wide &&& ~~~flag = CellFlags.wide)
    (hcont : flag &&& CellFlags.wideCont = 0 ∧
      CellFlags.wideCont &&& ~~~flag = CellFlags.wideCont) (on : Bool) :
    (a.setFlag flag on).Narrow :=
  ⟨(a.flags.contains_set hwide.1 hwide.2 on).trans h.1,
    (a.flags.contains_set hcont.1 hcont.2 on).trans h.2⟩

theorem Narrow.sgrCode (h : a.Narrow) (code : ℕ) (rest : List ℕ) :
    (sgrCode code rest a).1.Narrow := by
  unfold Terminal.sgrCode
  split
  case h_1 => exact narrow_default
  case h_16 | h_18 => split <;> exact h
  case h_17 | h_19 => exact h
  case h_20 => split_ifs <;> exact h
  all_goals exact h.setFlag (by decide) (by decide) _

theorem Narrow.sgr (h : a.Narrow) (params : List ℕ) : (sgr params a).Narrow := by
  have hfrom (skip : ℕ) (params : List ℕ) {a : CellAttrs} (h : a.Narrow) :
      (sgrFrom skip params a).Narrow := by
    induction params generalizing skip a with
    | nil => cases skip <;> exact h
    | cons code params ih =>
      cases skip with
      | succ skip => exact ih skip h
      | zero => exact ih _ (h.sgrCode code params)
  unfold Terminal.sgr
  split
  · exact narrow_default
  · exact hfrom 0 params h

end CellAttrs

/-! ### Lines -/

section Lines

variable {l : Line} {cols : ℕ}

/-- Cells of their own make a whole line. -/
theorem whole_of_narrow (h : ∀ c ∈ l, c.isWide = false ∧ c.isWideCont = false) : Whole l := by
  induction l with
  | nil => rfl
  | cons c l ih =>
    obtain ⟨hwide, hcont⟩ := h c List.mem_cons_self
    have hrest : Whole l := ih fun c' hmem => h c' (List.mem_cons_of_mem c hmem)
    rw [Whole, Paired, pairing, hwide, hcont]
    exact hrest

theorem narrow_blank : Cell.default.isWide = false ∧ Cell.default.isWideCont = false := by decide

theorem whole_blank (n : ℕ) : Whole (List.replicate n Cell.default) :=
  whole_of_narrow fun c hmem => by rw [List.eq_of_mem_replicate hmem]; exact narrow_blank

theorem whole_filled (l : Line) (ch : Char) :
    Whole (l.map fun _ => { Cell.default with ch }) := by
  apply whole_of_narrow
  intro c hmem
  obtain ⟨_, -, rfl⟩ := List.mem_map.mp hmem
  exact narrow_blank

theorem whole_makeCell {a : CellAttrs} (h : a.Narrow) (ch : Char) :
    Whole [Grid.makeCell ch a] := by
  apply whole_of_narrow
  intro c hmem
  rw [List.mem_singleton.mp hmem]
  exact h

/-- A wide glyph is put in two cells. -/
theorem whole_wide {a : CellAttrs} (h : a.Narrow) (ch : Char) :
    Whole [(Grid.makeCell ch a).setFlag CellFlags.wide,
      Cell.default.setFlag CellFlags.wideCont] := by
  have hwide : ((Grid.makeCell ch a).setFlag CellFlags.wide).isWide = true :=
    a.flags.contains_set_self CellFlags.wide
  have hcont : ((Grid.makeCell ch a).setFlag CellFlags.wide).isWideCont = false :=
    have hor : CellFlags.wide &&& CellFlags.wideCont = 0 := by decide
    (a.flags.contains_set hor (by decide) true).trans h.2
  have hwide' : (Cell.default.setFlag CellFlags.wideCont).isWide = false := by decide
  have hcont' : (Cell.default.setFlag CellFlags.wideCont).isWideCont = true := by decide
  simp [Whole, Paired, pairing, hwide, hcont, hwide', hcont']

/-- A line that is cut or padded leaves a glyph open only where its last cell is cut off. -/
theorem Whole.fitWidth (h : Whole l) (cols : ℕ) :
    ∃ isOpen, pairing Cell.isWide Cell.isWideCont false (fitWidth cols l) = some isOpen := by
  rw [Terminal.fitWidth]
  rcases Nat.le_total cols l.length with hcut | hpad
  · rw [Nat.sub_eq_zero_of_le hcut, List.replicate_zero, List.append_nil]
    exact ⟨_, (h.split hcut).1⟩
  · rw [List.take_of_length_le hpad]
    exact ⟨false, h.append (whole_blank _)⟩

/-- A line in a new width is whole: half a glyph at its end is cleared. -/
theorem Whole.normalise (h : Whole l) (cols : ℕ) : Whole (normalise cols l) := by
  obtain ⟨isOpen, hfit⟩ := h.fitWidth cols
  have hlast := pairing_last hfit
  unfold Terminal.normalise
  dsimp only
  split
  next last hget =>
    rw [hget, Option.map_some, Option.getD_some] at hlast
    rw [hlast] at hfit
    split
    next hwide =>
      rw [hwide] at hfit
      exact (paired_dropLast hfit).append (whole_blank 1)
    next hwide =>
      rw [Bool.not_eq_true] at hwide
      rw [hwide] at hfit
      exact hfit
  next hget =>
    rw [hget] at hlast
    rw [hlast] at hfit
    exact hfit

/-- A whole line ends with no half of a glyph. -/
theorem Whole.cutsGlyph_end (h : Whole l) : cutsGlyph l l.length = false := by
  have hsplit := (h.split le_rfl).1
  rw [List.take_length] at hsplit
  exact (Option.some_inj.mp (h.symm.trans hsplit)).symm

/-- Cells of a whole line are blanked. -/
theorem Whole.blanked_iff (h : Whole l) (lo hi : ℕ) (hlo : lo < hi) (hhi : hi ≤ l.length) :
    Whole (blanked lo hi l) ↔ cutsGlyph l lo = false ∧ cutsGlyph l hi = false := by
  apply Paired.replace_iff h (hlo.le.trans hhi) hhi (whole_blank (hi - lo))
  intro hnil
  rw [List.replicate_eq_nil_iff] at hnil
  omega

theorem whole_glyphCells {a : CellAttrs} (h : a.Narrow) (ch : Char) (width : ℕ) :
    Whole (Grid.glyphCells (Grid.makeCell ch a) width) := by
  unfold Grid.glyphCells
  split
  · exact whole_wide h ch
  · exact whole_makeCell h ch

/-- A cell is exchanged for one that takes as much room. -/
theorem Whole.set_flags (h : Whole l) {i : ℕ} {cell cell' : Cell} (hi : l[i]? = some cell)
    (hflags : cell'.flags = cell.flags) : Whole (l.set i cell') := by
  have hlt : i < l.length := (List.getElem?_eq_some_iff.mp hi).1
  have hget : l[i] = cell := (List.getElem?_eq_some_iff.mp hi).2
  have hsame : (l.set i cell').map (fun c => (c.isWide, c.isWideCont)) =
      l.map fun c => (c.isWide, c.isWideCont) := by
    have hcell : (cell'.isWide, cell'.isWideCont) = (cell.isWide, cell.isWideCont) := by
      simp only [Cell.isWide, Cell.isWideCont, hflags]
    rw [List.map_set, hcell, ← hget, ← List.getElem_map (fun c : Cell => (c.isWide, c.isWideCont))
      (h := by rwa [List.length_map]), List.set_getElem_self]
  exact (pairing_congr hsame).trans h

theorem fitRow_eq (h : 0 < cols) (l : Line) : Grid.fitRow cols l = some (normalise cols l) := by
  have hlen := length_fitWidth cols l
  have hlt : cols - 1 < (fitWidth cols l).length := by omega
  have hlast : (fitWidth cols l).getLast? = some (fitWidth cols l)[cols - 1] := by
    rw [List.getLast?_eq_getElem?, hlen, List.getElem?_eq_getElem hlt]
  have hset : (fitWidth cols l).set (cols - 1) Cell.default =
      (fitWidth cols l).dropLast ++ [Cell.default] := by
    rw [List.set_eq_take_append_cons_drop, if_pos hlt, List.drop_of_length_le (by omega),
      List.dropLast_eq_take, hlen]
  rw [Grid.fitRow, Terminal.normalise]
  simp only [if_pos h, Checked.sub_eq h, List.getElem?_eq_getElem hlt, hlast,
    Checked.set_eq hlt, hset, Option.bind_eq_bind, Option.bind_some]
  split <;> rfl

end Lines

/-! ### Rows -/

section Rows

variable {rows rows' : List Line}

/-- Rows without half a glyph. -/
def WholeRows (rows : List Line) : Prop := ∀ l ∈ rows, Whole l

theorem WholeRows.set_iff (h : WholeRows rows) {row : ℕ} {l : Line} (hrow : row < rows.length) :
    WholeRows (rows.set row l) ↔ Whole l := by
  constructor
  · exact fun hset => hset l (List.mem_set hrow l)
  · intro hl l' hmem
    rcases List.mem_or_eq_of_mem_set hmem with hmem | rfl
    · exact h l' hmem
    · exact hl

theorem wholeRows_append {rows₁ rows₂ : List Line} :
    WholeRows (rows₁ ++ rows₂) ↔ WholeRows rows₁ ∧ WholeRows rows₂ := List.forall_mem_append

theorem wholeRows_blank (n cols : ℕ) : WholeRows (List.replicate n (blankLine cols)) := by
  intro l hmem
  rw [List.eq_of_mem_replicate hmem]
  exact whole_blank cols

theorem WholeRows.insert {i cols : ℕ} (h : WholeRows rows)
    (hout : Checked.insert rows i (blankLine cols) = some rows') : WholeRows rows' := by
  obtain ⟨hi, heq⟩ := Option.ite_none_right_eq_some.mp hout
  cases heq
  intro l hmem
  rcases (List.mem_insertIdx hi).mp hmem with rfl | hmem
  · exact whole_blank cols
  · exact h l hmem

theorem WholeRows.remove {i : ℕ} (h : WholeRows rows) {out : Line × List Line}
    (hout : Checked.remove rows i = some out) : Whole out.1 ∧ WholeRows out.2 := by
  obtain ⟨l, hl, rfl⟩ := Option.map_eq_some_iff.mp hout
  exact ⟨h l (List.mem_of_getElem? hl), fun l' hmem => h l' (List.mem_of_mem_eraseIdx hmem)⟩

theorem WholeRows.rotateUp {top bottom cols n : ℕ} (h : WholeRows rows)
    {out : List Line × List Line}
    (hout : rotateUp top bottom (blankLine cols) n rows = some out) :
    WholeRows out.1 ∧ WholeRows out.2 := by
  induction n generalizing rows out with
  | zero =>
    cases hout
    exact ⟨h, by simp [WholeRows]⟩
  | succ n ih =>
    simp only [Terminal.rotateUp, Option.bind_eq_bind, Option.bind_eq_some_iff,
      Option.some.injEq] at hout
    obtain ⟨⟨l, rows₁⟩, hremove, rows₂, hinsert, ⟨rows₃, lines⟩, hrest, rfl⟩ := hout
    obtain ⟨hl, h₁⟩ := h.remove hremove
    obtain ⟨h₃, hlines⟩ := ih (h₁.insert hinsert) hrest
    exact ⟨h₃, List.forall_mem_cons.mpr ⟨hl, hlines⟩⟩

theorem WholeRows.rotateDown {top bottom cols n : ℕ} (h : WholeRows rows)
    (hout : rotateDown top bottom (blankLine cols) n rows = some rows') : WholeRows rows' := by
  induction n generalizing rows with
  | zero =>
    cases hout
    exact h
  | succ n ih =>
    simp only [Terminal.rotateDown, Option.bind_eq_bind, Option.bind_eq_some_iff] at hout
    obtain ⟨rows₁, hinsert, ⟨l, rows₂⟩, hremove, hrest⟩ := hout
    exact ih ((h.insert hinsert).remove hremove).2 hrest

end Rows

/-! ### Edits of the screen -/

namespace Grid

variable {g g' : Grid} {c r : ℕ}

/-- The screen has no half of a glyph, and the saved rendition makes none. -/
structure Neat (g : Grid) : Prop where
  whole : WholeRows g.rows
  narrow : ∀ a ∈ g.savedAttrs, a.Narrow

/-- Whether a glyph in the line of the cursor is cut before a column. -/
def cuts (g : Grid) (col : ℕ) : Bool := cutsGlyph g.cursorLine col

/-- An erasure cuts no glyph in the line of the cursor. -/
def SparesErase (g : Grid) : ℕ → Prop
  | 0 => g.cuts g.cursor.col = false
  | 1 => g.cuts (g.cursor.col + 1) = false
  | _ => True

/-- An edit cuts no glyph. Cells may be deleted from the middle of one glyph to the middle of
another one. -/
def SparesEdit (g : Grid) : Edit → Prop
  | .insertChars n =>
    n = 0 ∨ g.cuts g.cursor.col = false ∧ g.cuts (g.cols - g.room n) = false
  | .deleteChars n => g.cuts g.cursor.col = g.cuts (g.cursor.col + g.room n)
  | .eraseChars n =>
    n = 0 ∨ g.cuts g.cursor.col = false ∧ g.cuts (g.cursor.col + g.room n) = false
  | .eraseInLine mode | .eraseInDisplay mode => g.SparesErase mode
  | _ => True

/-- A glyph of a width cuts none of those that are there. -/
def SparesGlyph (g : Grid) (width : ℕ) : Prop :=
  width = 0 ∨ (g.wrapped width).cuts (g.wrapped width).cursor.col = false ∧
    (g.wrapped width).cuts ((g.wrapped width).cursor.col + if width = 2 then 2 else 1) = false

theorem Neat.of_rows (h : g.Neat) (hrows : WholeRows g'.rows)
    (hsaved : g'.savedAttrs = g.savedAttrs) : g'.Neat := ⟨hrows, hsaved ▸ h.narrow⟩

theorem Neat.cursorLine (h : g.Neat) (hs : g.Sized c r) : Whole g.cursorLine :=
  h.whole _ (List.mem_of_getElem? hs.getElem?_cursorLine)

/-- A row that is rewritten, whatever else becomes of the screen. -/
theorem Neat.row_iff (h : g.Neat) (hs : g.Sized c r) {l : Line}
    (hrows : g'.rows = g.rows.set g.cursor.row l) (hsaved : g'.savedAttrs = g.savedAttrs) :
    g'.Neat ↔ Whole l := by
  have hset := h.whole.set_iff (l := l) (hs.cursor.1.trans_eq hs.shape.1.symm)
  rw [← hset, ← hrows]
  exact ⟨Neat.whole, fun hwhole => h.of_rows hwhole hsaved⟩

theorem Neat.putRow_iff (h : g.Neat) (hs : g.Sized c r) (l : Line) :
    (g.putRow g.cursor.row l).Neat ↔ Whole l := h.row_iff hs rfl rfl

theorem room_eq_zero (hs : g.Sized c r) {n : ℕ} : g.room n = 0 ↔ n = 0 := by
  have hcol := hs.cursor.2
  have hcols := hs.cols_eq
  unfold room
  omega

theorem Neat.insertChars_iff (h : g.Neat) (hs : g.Sized c r) {n : ℕ}
    (he : g.insertChars n = some g') : g'.Neat ↔ g.SparesEdit (.insertChars n) := by
  have hlen := hs.length_cursorLine
  have hroom := hs.room_le n
  rw [hs.insertChars_eq] at he
  cases he
  rw [h.putRow_iff hs]
  simp only [SparesEdit, cuts, hs.cols_eq]
  rcases Nat.eq_zero_or_pos n with rfl | hpos
  · have hzero : g.room 0 = 0 := (room_eq_zero hs).mpr rfl
    apply iff_of_true _ (.inl rfl)
    rw [hzero, Nat.sub_zero, ← hlen, List.take_length, List.replicate_zero, List.append_nil,
      List.take_append_drop]
    exact h.cursorLine hs
  · rw [or_iff_right hpos.ne']
    apply Paired.insert_iff (h.cursorLine hs) (by omega) (by omega) (whole_blank (g.room n))
    rw [Ne, List.replicate_eq_nil_iff, room_eq_zero hs]
    exact hpos.ne'

theorem Neat.deleteChars_iff (h : g.Neat) (hs : g.Sized c r) {n : ℕ}
    (he : g.deleteChars n = some g') : g'.Neat ↔ g.SparesEdit (.deleteChars n) := by
  have hlen := hs.length_cursorLine
  have hroom := hs.room_le n
  rw [hs.deleteChars_eq] at he
  cases he
  rw [h.putRow_iff hs]
  simp only [SparesEdit, cuts]
  rcases Nat.eq_zero_or_pos n with rfl | hpos
  · have hzero : g.room 0 = 0 := (room_eq_zero hs).mpr rfl
    rw [hzero, Nat.add_zero, List.take_append_drop, List.replicate_zero, List.append_nil]
    exact iff_of_true (h.cursorLine hs) rfl
  · apply Paired.remove_iff (h.cursorLine hs) (by omega) (by omega) (whole_blank (g.room n))
    rw [Ne, List.replicate_eq_nil_iff, room_eq_zero hs]
    exact hpos.ne'

theorem Neat.eraseChars_iff (h : g.Neat) (hs : g.Sized c r) {n : ℕ}
    (he : g.eraseChars n = some g') : g'.Neat ↔ g.SparesEdit (.eraseChars n) := by
  have hlen := hs.length_cursorLine
  have hroom := hs.room_le n
  rw [hs.eraseChars_eq] at he
  cases he
  rw [h.putRow_iff hs]
  simp only [SparesEdit, cuts]
  rcases Nat.eq_zero_or_pos n with rfl | hpos
  · have hzero : g.room 0 = 0 := (room_eq_zero hs).mpr rfl
    apply iff_of_true _ (.inl rfl)
    simp only [hzero, blanked, Nat.add_zero, Nat.sub_self, List.replicate_zero, List.append_nil,
      List.take_append_drop]
    exact h.cursorLine hs
  · rw [or_iff_right hpos.ne']
    have hsome : 0 < g.room n :=
      Nat.pos_of_ne_zero fun hzero => hpos.ne' ((room_eq_zero hs).mp hzero)
    exact (h.cursorLine hs).blanked_iff _ _ (by omega) (by omega)

/-- The cells that are erased in the line of the cursor. -/
theorem Neat.blanked_iff (h : g.Neat) (hs : g.Sized c r) (mode : ℕ) :
    Whole (blanked (g.lineRange mode).1 (g.lineRange mode).2 g.cursorLine) ↔
      g.SparesErase mode := by
  have hlen := hs.length_cursorLine
  have hcol := hs.cursor.2
  have hline := h.cursorLine hs
  have hend : cutsGlyph g.cursorLine g.cols = false := by
    rw [hs.cols_eq, ← hlen]
    exact hline.cutsGlyph_end
  match mode with
  | 0 =>
    have hiff := hline.blanked_iff g.cursor.col g.cols
      (hcol.trans_eq hs.cols_eq.symm) (by rw [hs.cols_eq, hlen])
    rw [hend] at hiff
    exact hiff.trans (and_iff_left rfl)
  | 1 =>
    have hiff := hline.blanked_iff 0 (g.cursor.col + 1) (Nat.succ_pos _) (by omega)
    exact hiff.trans (and_iff_right rfl)
  | _ + 2 =>
    have hiff := hline.blanked_iff 0 g.cols
      (hs.cols_pos.trans_eq hs.cols_eq.symm) (by rw [hs.cols_eq, hlen])
    rw [hend] at hiff
    exact iff_of_true (hiff.mpr ⟨rfl, rfl⟩) trivial

theorem Neat.eraseInLine_iff (h : g.Neat) (hs : g.Sized c r) {mode : ℕ}
    (he : g.eraseInLine mode = some g') : g'.Neat ↔ g.SparesEdit (.eraseInLine mode) := by
  rw [hs.eraseInLine_eq] at he
  cases he
  rw [h.putRow_iff hs]
  exact h.blanked_iff hs mode

theorem wholeRows_blankRows {rows : List Line} (h : WholeRows rows)
    (hshape : Shape rows r g.cols) {lo hi : ℕ} (hlo : lo ≤ hi) (hhi : hi ≤ r) :
    Returns (g.blankRows rows lo hi) fun rows' => WholeRows rows' ∧
      ∀ i, (i < lo ∨ hi ≤ i) → rows'[i]? = rows[i]? := by
  refine .of_eq (blankRows_eq hshape hlo hhi) ⟨?_, ?_⟩
  · refine wholeRows_append.mpr ⟨wholeRows_append.mpr ⟨?_, wholeRows_blank _ _⟩, ?_⟩
    · exact fun l hmem => h l (List.mem_of_mem_take hmem)
    · exact fun l hmem => h l (List.mem_of_mem_drop hmem)
  · have hlen := hshape.1
    have hleft : (rows.take lo).length = lo := by
      rw [List.length_take]
      omega
    rintro i (hi | hi)
    · rw [List.append_assoc, List.getElem?_append_left (by omega), List.getElem?_take, if_pos hi]
    · rw [List.getElem?_append_right (by simp; omega), List.getElem?_drop]
      congr 1
      simp only [List.length_append, hleft, List.length_replicate]
      omega

theorem Neat.erasedRows_iff (h : g.Neat) (hs : g.Sized c r) (mode : ℕ) :
    Returns (g.erasedRows mode) fun rows => WholeRows rows ↔ g.SparesErase mode := by
  obtain ⟨hrow, hcol⟩ := hs.cursor
  have hshape : Shape g.rows r g.cols := hs.cols_eq.symm ▸ hs.shape
  have hlen := hs.length_cursorLine
  have hin : g.cursor.row < g.rows.length := hrow.trans_eq hs.shape.1.symm
  match mode with
  | 0 =>
    have hblank := blankRange_eq hs.getElem?_cursorLine
      (hcol.le.trans_eq hs.cols_eq.symm) (hs.cols_eq.trans hlen.symm).le
    have hshape' : Shape (g.rows.set g.cursor.row (blanked g.cursor.col g.cols g.cursorLine))
        r g.cols := by
      obtain ⟨rows, hrows, hshape'⟩ := hshape.blankRange hrow le_rfl
      rw [hblank] at hrows
      cases hrows
      exact hshape'
    have hrow' : g.cursor.row + 1 ≤ r := hrow
    have herased : g.erasedRows 0 = g.blankRows
        (g.rows.set g.cursor.row (blanked g.cursor.col g.cols g.cursorLine))
        (g.cursor.row + 1) r := by
      rw [Grid.erasedRows, hblank, hs.rowCount_eq]
      rfl
    rw [herased]
    by_cases hspares : g.SparesErase 0
    · -- the row of the cursor is whole, and the ones below it become blank
      have hwhole : WholeRows
          (g.rows.set g.cursor.row (blanked g.cursor.col g.cols g.cursorLine)) :=
        (h.whole.set_iff hin).mpr ((h.blanked_iff hs 0).mpr hspares)
      apply (wholeRows_blankRows hwhole hshape' hrow' le_rfl).mono
      exact fun rows hrows => iff_of_true hrows.1 hspares
    · -- the row of the cursor is above all that become blank
      have hblanked : ¬ Whole (blanked g.cursor.col g.cols g.cursorLine) :=
        fun hwhole => hspares ((h.blanked_iff hs 0).mp hwhole)
      refine .of_eq (blankRows_eq hshape' hrow' le_rfl) (iff_of_false ?_ hspares)
      intro hwhole
      apply hblanked (hwhole _ (List.mem_append_left _ (List.mem_append_left _ ?_)))
      apply List.mem_of_getElem? (i := g.cursor.row)
      rw [List.getElem?_take, if_pos (Nat.lt_succ_self _), List.getElem?_set_self hin]
  | 1 =>
    obtain ⟨rows, hrows, hwhole, hsame⟩ :=
      wholeRows_blankRows h.whole hshape (Nat.zero_le g.cursor.row) hrow.le
    have hline : rows[g.cursor.row]? = some g.cursorLine :=
      (hsame g.cursor.row (.inr le_rfl)).trans hs.getElem?_cursorLine
    have hblank := blankRange_eq hline (Nat.zero_le (g.cursor.col + 1)) (by omega)
    rw [Grid.erasedRows, hrows]
    refine .of_eq hblank ?_
    rw [hwhole.set_iff (List.getElem?_eq_some_iff.mp hline).1]
    exact h.blanked_iff hs 1
  | mode + 2 =>
    apply (wholeRows_blankRows h.whole hshape (Nat.zero_le _) hs.rowCount_eq.le).mono
    exact fun rows hrows => iff_of_true hrows.1 trivial

theorem Neat.eraseInDisplay_iff (h : g.Neat) (hs : g.Sized c r) {mode : ℕ}
    (he : g.eraseInDisplay mode = some g') : g'.Neat ↔ g.SparesEdit (.eraseInDisplay mode) := by
  obtain ⟨rows, hrows, hiff⟩ := h.erasedRows_iff hs mode
  simp only [Grid.eraseInDisplay, hrows, Option.bind_eq_bind, Option.bind_some,
    Option.some.injEq] at he
  subst he
  have hneat : Neat (markAllDirty { g with rows }) ↔ WholeRows rows :=
    ⟨Neat.whole, fun hwhole => h.of_rows hwhole rfl⟩
  exact hneat.trans hiff

/-! Lines move as they are. -/

theorem Neat.scrollUpRegion (h : g.Neat) {n : ℕ} {out : Grid × List Line}
    (hout : g.scrollUpRegion n = some out) : out.1.Neat ∧ WholeRows out.2 := by
  simp only [Grid.scrollUpRegion, Option.bind_eq_bind, Option.bind_eq_some_iff,
    Option.some.injEq] at hout
  obtain ⟨k, -, ⟨rows, lines⟩, hrotate, rfl⟩ := hout
  obtain ⟨hrows, hlines⟩ := h.whole.rotateUp hrotate
  exact ⟨h.of_rows hrows rfl, hlines⟩

theorem Neat.scrollDownRegion (h : g.Neat) {n : ℕ} (hout : g.scrollDownRegion n = some g') :
    g'.Neat := by
  simp only [Grid.scrollDownRegion, Option.bind_eq_bind, Option.bind_eq_some_iff,
    Option.some.injEq] at hout
  obtain ⟨k, -, rows, hrotate, rfl⟩ := hout
  exact h.of_rows (h.whole.rotateDown hrotate) rfl

theorem Neat.insertLines (h : g.Neat) {n : ℕ} (hout : g.insertLines n = some g') : g'.Neat := by
  simp only [Grid.insertLines, Option.bind_eq_bind, Option.bind_eq_some_iff,
    Option.some.injEq] at hout
  obtain ⟨k, -, rows, hrotate, rfl⟩ := hout
  exact h.of_rows (h.whole.rotateDown hrotate) rfl

theorem Neat.deleteLines (h : g.Neat) {n : ℕ} (hout : (g.deleteLines n).map Prod.fst = some g') :
    g'.Neat := by
  simp only [Grid.deleteLines, Option.bind_eq_bind, Option.map_eq_some_iff,
    Option.bind_eq_some_iff, Option.some.injEq] at hout
  obtain ⟨_, ⟨k, -, ⟨rows, lines⟩, hrotate, rfl⟩, rfl⟩ := hout
  exact h.of_rows (h.whole.rotateUp hrotate).1 rfl

theorem Neat.reverseIndex (h : g.Neat) (hout : g.reverseIndex = some g') : g'.Neat := by
  unfold Grid.reverseIndex at hout
  dsimp only at hout
  split at hout
  · cases hout
    exact h.of_rows h.whole rfl
  · have h' : Neat { g with wrapPending := false } := h.of_rows h.whole rfl
    exact h'.scrollDownRegion hout

theorem Neat.fillScreen (h : g.Neat) {ch : Char} (hout : g.fillScreen ch = some g') : g'.Neat := by
  simp only [Grid.fillScreen, setCursor, Option.bind_eq_bind, Option.bind_eq_some_iff,
    Option.some.injEq] at hout
  obtain ⟨_, ⟨row, -, cursor, -, rfl⟩, rfl⟩ := hout
  refine ⟨?_, h.narrow⟩
  intro l hmem
  obtain ⟨l', -, rfl⟩ := List.mem_map.mp hmem
  exact whole_filled l' ch

/-- An edit leaves half a glyph exactly if it cuts one. -/
theorem Neat.edit_iff (h : g.Neat) (hs : g.Sized c r) {e : Edit} (he : g.edit e = some g') :
    g'.Neat ↔ g.SparesEdit e := by
  cases e with
  | insertChars n => exact h.insertChars_iff hs he
  | deleteChars n => exact h.deleteChars_iff hs he
  | eraseChars n => exact h.eraseChars_iff hs he
  | eraseInLine mode => exact h.eraseInLine_iff hs he
  | eraseInDisplay mode => exact h.eraseInDisplay_iff hs he
  | insertLines n => exact iff_of_true (h.insertLines he) trivial
  | deleteLines n => exact iff_of_true (h.deleteLines he) trivial
  | scrollDown n => exact iff_of_true (h.scrollDownRegion he) trivial
  | reverseIndex => exact iff_of_true (h.reverseIndex he) trivial
  | fillScreen ch => exact iff_of_true (h.fillScreen he) trivial

theorem Neat.fed (h : g.Neat) (hs : g.Sized c r) : g.fed.Neat ∧ WholeRows g.fedLine.toList := by
  unfold Grid.fed fedLine
  split
  · obtain ⟨hneat, hlines⟩ := h.scrollUpRegion hs.scrollUpRegion_one.2.2
    exact ⟨⟨hneat.whole, h.narrow⟩, hlines⟩
  · exact ⟨⟨h.whole, h.narrow⟩, by simp [WholeRows]⟩

theorem Neat.wrapped (h : g.Neat) (hs : g.Sized c r) (width : ℕ) : (g.wrapped width).Neat := by
  unfold Grid.wrapped
  split
  · exact ⟨(h.fed hs).1.whole, (h.fed hs).1.narrow⟩
  · exact h

theorem Neat.attached (h : g.Neat) (hs : g.Sized c r) (ch : Char) : (g.attached ch).Neat := by
  unfold Grid.attached
  split
  next cell hcell =>
    rw [h.putRow_iff hs]
    unfold attachee at hcell
    split at hcell
    · exact (h.cursorLine hs).set_flags (Option.filter_eq_some_iff.mp hcell).1 rfl
    · cases hcell
  next => exact h

/-- A glyph leaves half of another one exactly if it cuts it. -/
theorem Neat.print_iff (h : g.Neat) (hs : g.Sized c r) {tables : UnicodeTables} {ch : Char}
    {width : ℕ} (hwidth : (tables.width ch).getD 0 = width) {attrs : CellAttrs}
    (hattrs : attrs.Narrow) {scrolled : Option Line}
    (hout : g.print tables ch attrs = some (g', scrolled)) :
    (g'.Neat ↔ g.SparesGlyph width) ∧ WholeRows scrolled.toList := by
  by_cases hzero : width = 0
  · rw [hs.print_attach (hwidth.trans hzero)] at hout
    cases hout
    exact ⟨iff_of_true (h.attached hs ch) (.inl hzero), by simp [WholeRows]⟩
  · obtain ⟨col, wrapPending, hprint⟩ := hs.print_eq hwidth hzero attrs
    rw [hprint] at hout
    cases hout
    have hs' := hs.wrapped hzero
    have h' := h.wrapped hs width
    constructor
    · have hlen := hs'.length_cursorLine
      have hcol := hs'.cursor.2
      have hcells : (glyphCells (makeCell ch attrs) width).length = if width = 2 then 2 else 1 := by
        unfold glyphCells
        split <;> rfl
      have hroom : (g.wrapped width).cursor.col + (if width = 2 then 2 else 1) ≤ c := by
        split
        next htwo =>
          rw [htwo]
          exact hs.wrapped_room
        next => exact hcol
      have hrow : Neat { (g.wrapped width).putRow (g.wrapped width).cursor.row
          ((g.wrapped width).glyphLine (makeCell ch attrs) width) with
            cursor := { (g.wrapped width).cursor with col }, wrapPending } ↔
          Whole ((g.wrapped width).glyphLine (makeCell ch attrs) width) := h'.row_iff hs' rfl rfl
      rw [hrow, glyphLine, hcells, SparesGlyph, or_iff_right hzero]
      apply Paired.replace_iff (h'.cursorLine hs') (by omega) (by omega)
        (whole_glyphCells hattrs ch _)
      intro hnil
      rw [hnil] at hcells
      split at hcells <;> cases hcells
    · split
      · exact (h.fed hs).2
      · simp [WholeRows]

theorem Neat.pushLineFromScrollback (h : g.Neat) {l : Line} (hl : Whole l)
    (hout : g.pushLineFromScrollback l = some g') : g'.Neat := by
  simp only [Grid.pushLineFromScrollback, Option.bind_eq_bind, Option.bind_eq_some_iff,
    Option.some.injEq] at hout
  obtain ⟨g₁, hscroll, rows, hset, rfl⟩ := hout
  have h₁ := h.scrollDownRegion hscroll
  obtain ⟨hlt, hrows⟩ := Option.ite_none_right_eq_some.mp hset
  cases hrows
  exact h₁.of_rows ((h₁.whole.set_iff hlt).mpr (hl.normalise g₁.cols)) rfl

theorem Neat.resize (h : g.Neat) {cols rows : ℕ} (hout : g.resize cols rows = some (.ok g')) :
    g'.Neat := by
  unfold Grid.resize at hout
  split at hout
  next hbounds =>
    obtain ⟨⟨hcols, -⟩, -⟩ := sizeInBounds_iff.mp hbounds
    have hpos : 0 < cols := Nat.lt_of_lt_of_le (by decide) hcols
    simp only [Option.bind_eq_bind, Option.bind_eq_some_iff, Option.some.injEq] at hout
    obtain ⟨lines, hlines, cursor, -, saved, -, last, -, heq⟩ := hout
    cases heq
    have hkept : WholeRows (g.resizeRows cols rows) := by
      unfold Grid.resizeRows
      split
      · exact fun l hmem => h.whole l (List.mem_of_mem_take hmem)
      · exact wholeRows_append.mpr ⟨h.whole, wholeRows_blank _ _⟩
    obtain ⟨lines', hlines', -, hwhole⟩ := Returns.mapM (R := Whole) fun l hmem =>
      .of_eq (fitRow_eq hpos l) ((hkept l hmem).normalise cols)
    obtain rfl := Option.some_inj.mp (hlines.symm.trans hlines')
    exact h.of_rows hwhole rfl
  next => cases hout

theorem new_neat {cols rows : ℕ} (h : Grid.new cols rows = .ok g) : g.Neat := by
  unfold Grid.new at h
  split at h
  · cases h
    exact ⟨wholeRows_blank _ _, by simp⟩
  · cases h

end Grid

end Ferrokey.Terminal
