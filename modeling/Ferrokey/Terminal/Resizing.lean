import Ferrokey.Machine.Runs
import Ferrokey.Terminal.Appending
import Ferrokey.Terminal.Glyphs

/-! # Resizing the screen

A resize keeps the cells that both sizes have, but for half a wide glyph at the end of
a row. The bottom margin follows the last row up; it does not follow it down, so a screen
that grows is no longer scrolled as a whole.
-/

set_option linter.dupNamespace false

namespace Ferrokey.Terminal

open Machine

section Lines

variable {cols : ℕ} {l : Line}

theorem getElem?_fitWidth {col : ℕ} (hcol : col < cols) (hl : col < l.length) :
    (fitWidth cols l)[col]? = l[col]? := by
  rw [fitWidth, List.getElem?_append_left (by rw [List.length_take]; omega),
    List.getElem?_take_of_lt hcol]

theorem normalise_eq (hpos : 0 < cols) (l : Line) :
    ∃ last, (fitWidth cols l)[cols - 1]? = some last ∧ normalise cols l =
      if last.isWide then (fitWidth cols l).set (cols - 1) Cell.default else fitWidth cols l := by
  have hlt : cols - 1 < (fitWidth cols l).length := by
    rw [length_fitWidth]
    omega
  refine ⟨(fitWidth cols l)[cols - 1], List.getElem?_eq_getElem hlt, ?_⟩
  have hfit := fitRow_eq hpos l
  simp only [Grid.fitRow, if_pos hpos, Checked.sub_eq hpos, List.getElem?_eq_getElem hlt,
    Checked.set_eq hlt, Option.bind_eq_bind, Option.bind_some] at hfit
  split at hfit
  next hwide => rw [if_pos hwide, Option.some_inj.mp hfit]
  next hwide => rw [if_neg hwide, Option.some_inj.mp hfit]

/-- A line of a new width has the cells of the old one; half a glyph at its end is blanked. -/
theorem getElem?_normalise {col : ℕ} {cell : Cell} (hcol : col < cols) (hl : l[col]? = some cell) :
    (normalise cols l)[col]? =
      some (if col + 1 = cols ∧ cell.isWide = true then Cell.default else cell) := by
  obtain ⟨hlt, -⟩ := List.getElem?_eq_some_iff.mp hl
  have hfit : (fitWidth cols l)[col]? = some cell := (getElem?_fitWidth hcol hlt).trans hl
  obtain ⟨last, hlast, hnormal⟩ := normalise_eq (Nat.zero_lt_of_lt hcol) l
  rw [hnormal]
  by_cases hend : col + 1 = cols
  · have hcell : last = cell := by
      rw [← hend, Nat.add_sub_cancel, hend, hfit] at hlast
      exact (Option.some_inj.mp hlast).symm
    rw [hcell]
    by_cases hwide : cell.isWide = true
    · rw [if_pos hwide, if_pos ⟨hend, hwide⟩, ← hend, Nat.add_sub_cancel, hend,
        List.getElem?_set_self (by rwa [length_fitWidth])]
    · rw [if_neg hwide, if_neg fun h => hwide h.2, hfit]
  · have hmiddle : ¬ (col + 1 = cols ∧ cell.isWide = true) := fun h => hend h.1
    rw [if_neg hmiddle]
    split
    · rw [List.getElem?_set_ne (by omega), hfit]
    · exact hfit

end Lines

namespace Grid

variable {g g' : Grid} {c r cols rows : ℕ}

/-- The cells that both screens have are the same; a wide glyph in the last column is blanked. -/
def KeepsCells (g g' : Grid) : Prop :=
  ∀ row col cell, row < g'.rowCount → col < g'.cols → g.cellAt row col = some cell →
    g'.cellAt row col =
      some (if col + 1 = g'.cols ∧ cell.isWide = true then Cell.default else cell)

/-- The screen in another size. -/
def resized (g : Grid) (cols rows : ℕ) : Grid :=
  { g with
    rows := (g.resizeRows cols rows).map (normalise cols)
    cols
    rowCount := rows
    cursor := ⟨min g.cursor.row (rows - 1), min g.cursor.col (cols - 1)⟩
    savedCursor := ⟨min g.savedCursor.row (rows - 1), min g.savedCursor.col (cols - 1)⟩
    scrollTop := if min g.scrollBottom (rows - 1) < g.scrollTop then 0 else g.scrollTop
    scrollBottom := min g.scrollBottom (rows - 1)
    tabStops := defaultTabStops cols
    dirty := List.replicate rows true
    dirtyAll := true
    wrapPending := false }

theorem resize_eq (g : Grid) (hb : sizeInBounds cols rows = true) :
    g.resize cols rows = some (.ok (g.resized cols rows)) := by
  obtain ⟨⟨hc, -⟩, hr, -⟩ := sizeInBounds_iff.mp hb
  have hcols : 1 ≤ cols := Nat.le_of_lt hc
  have hrows : 1 ≤ rows := hr
  have hfit : fitRow cols = fun l => some (normalise cols l) := funext (fitRow_eq hcols)
  have hlines : (g.resizeRows cols rows).mapM (fitRow cols) =
      some ((g.resizeRows cols rows).map (normalise cols)) := by
    rw [hfit]
    exact List.mapM_pure
  have hbottom : (if rows ≤ g.scrollBottom then rows - 1 else g.scrollBottom) =
      min g.scrollBottom (rows - 1) := by
    split <;> omega
  simp only [Grid.resize, if_pos hb, hlines, Grid.clampCursor, Checked.sub_eq hcols,
    Checked.sub_eq hrows, Option.bind_eq_bind, Option.bind_some, hbottom]
  rfl

/-- A resize that is carried out. -/
theorem Sized.resizes (h : g.Sized c r) (hb : sizeInBounds cols rows = true) :
    Returns ((g.resize cols rows).bind Except.toOption) (Sized cols rows) := by
  obtain ⟨_, hout, g', rfl, h'⟩ := h.resize hb
  exact .of_eq (by rw [hout]; rfl) h'

/-- A row that both screens have. -/
theorem Sized.getElem?_resizeRows (h : g.Sized c r) {row : ℕ} (hrow : row < rows) (hr : row < r) :
    (g.resizeRows cols rows)[row]? = g.rows[row]? := by
  have hlen := h.shape.1
  unfold Grid.resizeRows
  split
  · rw [List.getElem?_take_of_lt hrow]
  · rw [List.getElem?_append_left (by omega)]

theorem Sized.keepsCells (h : g.Sized c r) (cols rows : ℕ) :
    g.KeepsCells (g.resized cols rows) := by
  intro row col cell hrow hcol hcell
  obtain ⟨l, hl, hcell⟩ := Option.bind_eq_some_iff.mp hcell
  have hr : row < r := h.shape.1 ▸ (List.getElem?_eq_some_iff.mp hl).1
  have hrow' : row < rows := hrow
  have hline : (g.resized cols rows).rows[row]? = some (normalise cols l) := by
    rw [Grid.resized, List.getElem?_map, h.getElem?_resizeRows hrow' hr, hl]
    rfl
  rw [cellAt, hline, Option.bind_some]
  exact getElem?_normalise hcol hcell

/-- A screen that is scrolled as a whole is so in another size exactly if it does not grow. -/
theorem IsFull.resized_iff (hfull : g.IsFull) (hrows : 0 < rows) :
    (g.resized cols rows).IsFull ↔ rows ≤ g.rowCount := by
  obtain ⟨htop, hbottom⟩ := hfull
  simp only [IsFull, resized, htop, Nat.not_lt_zero, if_false, true_and]
  omega

end Grid

/-- A screen within its bounds. -/
structure SizedGrid where
  cols : ℕ
  rows : ℕ
  grid : Grid
  sized : grid.Sized cols rows

/-- A size that a screen may have. -/
structure ValidSize where
  cols : ℕ
  rows : ℕ
  inBounds : Grid.sizeInBounds cols rows = true

namespace SizedGrid

def resize (v : SizedGrid) (s : ValidSize) : SizedGrid × Unit :=
  let h := v.sized.resizes s.inBounds
  (⟨s.cols, s.rows, ((v.grid.resize s.cols s.rows).bind Except.toOption).get h.isSome, h.get⟩, ())

theorem resize_grid (v : SizedGrid) (s : ValidSize) :
    (v.resize s).1.grid = v.grid.resized s.cols s.rows := by
  simp [resize, Grid.resize_eq v.grid s.inBounds, Except.toOption]

/-- No step grows the screen exactly if the heights descend. -/
theorem steps_iff_isChain (v : SizedGrid) (sizes : List ValidSize) :
    Steps resize (fun w s => s.rows ≤ w.rows) v sizes ↔
      (v.rows :: sizes.map (·.rows)).IsChain (· ≥ ·) := by
  induction sizes generalizing v with
  | nil => simp
  | cons s sizes ih =>
    rw [steps_cons_iff, ih, List.map_cons, List.isChain_cons_cons]
    rfl

/-- Over any resizes a screen that is scrolled as a whole stays so and keeps its cells exactly if
it never grows in height. -/
theorem keeps_margins_iff (v : SizedGrid) (hfull : v.grid.IsFull) (sizes : List ValidSize) :
    (Always resize (·.grid.IsFull) v sizes ∧
        ∀ (w : SizedGrid) (s : ValidSize), w.grid.KeepsCells (w.resize s).1.grid) ↔
      (v.rows :: sizes.map (·.rows)).IsChain (· ≥ ·) := by
  have hcells (w : SizedGrid) (s : ValidSize) : w.grid.KeepsCells (w.resize s).1.grid := by
    rw [resize_grid]
    exact w.sized.keepsCells s.cols s.rows
  have hstep (w : SizedGrid) (s : ValidSize) (hw : w.grid.IsFull) :
      (w.resize s).1.grid.IsFull ↔ s.rows ≤ w.rows := by
    have hrows : 0 < s.rows := (Grid.sizeInBounds_iff.mp s.inBounds).2.1
    rw [resize_grid, ← w.sized.rowCount_eq]
    exact hw.resized_iff hrows
  rw [and_iff_left hcells, ← steps_iff_isChain]
  apply always_iff_steps (fun w : SizedGrid => w.grid.IsFull) hfull (fun _ => id)
  · exact fun w s hw hle => (hstep w s hw).mpr hle
  · exact fun w s hw hgrows hw' => hgrows ((hstep w s hw).mp hw')

/-- Two columns and so many rows. -/
def twoColumns (rows : ℕ) (h : Grid.sizeInBounds 2 rows = true) : ValidSize := ⟨2, rows, h⟩

theorem shrunk_keeps_margins_iff : ∃ v : SizedGrid, Grid.new 2 3 = .ok v.grid ∧
    ((Always resize (·.grid.IsFull) v [twoColumns 2 rfl, twoColumns 1 rfl] ∧
        ∀ (w : SizedGrid) (s : ValidSize), w.grid.KeepsCells (w.resize s).1.grid) ↔
      (v.rows :: [twoColumns 2 rfl, twoColumns 1 rfl].map (·.rows)).IsChain (· ≥ ·)) := by
  obtain ⟨g, hg, hs⟩ := Grid.new_sized (show Grid.sizeInBounds 2 3 = true from rfl)
  have hfull : g.IsFull := by
    cases hg
    exact ⟨rfl, rfl⟩
  exact ⟨⟨2, 3, g, hs⟩, hg, keeps_margins_iff ⟨2, 3, g, hs⟩ hfull _⟩

/-- A new screen of one row that grows to two is scrolled in its first row only. -/
theorem grown_not_full : ∃ v : SizedGrid, Grid.new 2 1 = .ok v.grid ∧ v.grid.IsFull ∧
    ¬ Always resize (·.grid.IsFull) v [twoColumns 2 rfl] := by
  obtain ⟨g, hg, hs⟩ := Grid.new_sized (show Grid.sizeInBounds 2 1 = true from rfl)
  cases hg
  refine ⟨⟨2, 1, _, hs⟩, rfl, ⟨rfl, rfl⟩, fun halways => ?_⟩
  have hbottom : 0 + 1 = 2 := (halways [twoColumns 2 rfl] List.prefix_rfl).2
  cases hbottom

end SizedGrid

end Ferrokey.Terminal
