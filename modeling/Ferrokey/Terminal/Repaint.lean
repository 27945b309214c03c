import Ferrokey.Terminal.Marks

/-! # What the next render repaints

A render repaints the rows that are marked, and everything if none is. Whatever bytes
write is marked, and so is the row that the cursor ends in, by its number on the screen.
The row that the cursor leaves is not, so it keeps the cursor that was painted in it.
-/

set_option linter.dupNamespace false

namespace Ferrokey.Terminal

/-- Whether a visible cursor is drawn, by its shape and its clock. -/
def CursorShape.drawn (blinkOn : Bool) : CursorShape → Bool
  | .block | .steadyUnderline | .steadyBar => true
  | .blinkingBlock | .steadyBlock | .blinkingUnderline | .blinkingBar => blinkOn

/-- The row of the pane that the cursor is painted in, if it is. The other half of a wide glyph
and the cells past the pane are not painted. -/
def PaneView.paintedRow (view : PaneView) (visibleCols : ℕ) : Option ℕ :=
  match view.cursor with
  | some (row, col, visible, shape, blinkOn) =>
    if visible && shape.drawn blinkOn && decide (col < visibleCols) &&
        (view.lines[row]?.bind (·[col]?)).any (!·.isWideCont) then some row
    else none
  | none => none

namespace Terminal

variable (t : Terminal)

def visibleCols : ℕ := t.paneW / t.metrics.cellW

/-- The row of the pane that a render paints the cursor in. -/
def paintedRow : Option ℕ := t.paneView.bind (·.paintedRow t.visibleCols)

/-- A row is in the dirty set, or the whole pane is dirty. -/
def Repainted (dirty : Option (List ℕ)) (row : ℕ) : Prop := ∀ rows, dirty = some rows → row ∈ rows

/-- The next render repaints every visible row whose cells are not those of an earlier view, and
every one that gained or lost the painted cursor since. -/
def Refreshes (view : PaneView) : Prop :=
  Returns t.render fun out => ∀ view' dirty, out.2 = some (view', dirty) →
    ∀ row < t.visibleRows, (view'.lines[row]? ≠ view.lines[row]? ∨
      ¬ (view'.paintedRow t.visibleCols = some row ↔ view.paintedRow t.visibleCols = some row)) →
    Repainted dirty row

/-- A row of the screen that was dirty before the bytes or that they write. -/
def RowWritten (tables : UnicodeTables) (bytes : List UInt8) (row : ℕ) : Prop :=
  t.grid.dirty[row]? = some true ∨ .row row ∈ t.feedMarks tables bytes

/-- The bytes mark a row of the pane: it shows a row that is written, or has the number of the
row that the cursor is in afterwards. -/
def Told (tables : UnicodeTables) (bytes : List UInt8) (after : Terminal) (row : ℕ) : Prop :=
  (∃ i, t.RowWritten tables bytes i ∧ t.paneRow i = some row) ∨ after.cursorVisibleIndex = some row

/-- What has to be marked is: the rows that the painted cursor leaves and enters. No row is
written with other cells that has no number in 16 bits. -/
structure Tells (tables : UnicodeTables) (bytes : List UInt8) (after : Terminal) : Prop where
  cursor : after.paintedRow ≠ t.paintedRow →
    ∀ row, t.paintedRow = some row ∨ after.paintedRow = some row → t.Told tables bytes after row
  numbered : ∀ i, t.RowWritten tables bytes i → 65536 ≤ t.windowRow i →
    t.windowRow i < t.visibleRows → after.grid.rows[i]? = t.grid.rows[i]?

/-- The bytes mark everything, or nothing, or the rows that have to be. -/
def Covers (tables : UnicodeTables) (bytes : List UInt8) : Prop :=
  t.grid.dirtyAll = true ∨ .all ∈ t.feedMarks tables bytes ∨
    ∀ after, (t.receive bytes).operateAll tables (t.feedOps bytes) = some after →
      (∀ row, ¬ t.Told tables bytes after row) ∨ t.Tells tables bytes after

/-- What the host can come to with a new terminal that it renders from time to time. -/
inductive InUse (tables : UnicodeTables) : Terminal → Prop where
  | new {config : TerminalConfig} {metrics : CellMetrics} {t : Terminal} :
    Terminal.new config metrics = .ok t → InUse tables t
  | call {t : Terminal} {op : TerminalOp} {out : Terminal × Reply} :
    InUse tables t → t.perform tables op = some out → InUse tables out.1
  | render {t : Terminal} {out : Terminal × Option (PaneView × Option (List ℕ))} :
    InUse tables t → t.render = some out → InUse tables out.1
  | tickBlink {t : Terminal} (due : Bool) : InUse tables t → InUse tables (t.tickBlink due).1

variable {t} {t' after : Terminal} {tables : UnicodeTables} {view : PaneView}
  {dirty : Option (List ℕ)} {bytes : List UInt8}

/-! ### Rendering -/

/-- What a render leaves. -/
structure Rendered (t t' : Terminal) (view : PaneView) : Prop where
  sizes : t'.paneW ≠ 0 ∧ t'.paneH ≠ 0
  view : t'.paneView = some view
  same : SameScreens t t'
  paneDirty : t'.paneDirty = []
  paneDirtyAll : t'.paneDirtyAll = false

theorem consumeDirty_fst : t.consumeDirty.1 =
    { t with paneDirty := [], paneDirtyAll := false, cursorDirty := false } := by
  unfold consumeDirty
  dsimp only
  split <;> rfl

theorem render_eq (hsizes : t.paneW ≠ 0 ∧ t.paneH ≠ 0) : t.render =
    t.consumeDirty.1.paneView.map fun view =>
      (t.consumeDirty.1, some (view, t.consumeDirty.2)) := by
  rw [Terminal.render, if_neg (not_or.mpr hsizes)]
  exact Option.map_eq_bind.symm

theorem render_rendered (h : t.render = some (t', some (view, dirty))) : Rendered t t' view := by
  by_cases hsizes : t.paneW ≠ 0 ∧ t.paneH ≠ 0
  · rw [render_eq hsizes, consumeDirty_fst] at h
    obtain ⟨view', hview, heq⟩ := Option.map_eq_some_iff.mp h
    cases heq
    exact ⟨hsizes, hview, ⟨rfl, rfl, rfl, rfl⟩, rfl, rfl⟩
  · rw [Terminal.render, if_pos (by tauto)] at h
    cases h

theorem InUse.valid (h : InUse tables t) : t.Valid := by
  induction h with
  | new hnew => exact new_valid hnew
  | call _ hcall ih =>
    obtain ⟨out', hout', hv⟩ := perform_valid ih tables _
    obtain rfl := Option.some_inj.mp (hcall.symm.trans hout')
    exact hv
  | @render t out _ hrender ih =>
    obtain ⟨t', shown⟩ := out
    cases shown with
    | some shown => exact ih.of_same (render_rendered hrender).same
    | none =>
      by_cases hsizes : t.paneW ≠ 0 ∧ t.paneH ≠ 0
      · rw [render_eq hsizes] at hrender
        obtain ⟨_, -, heq⟩ := Option.map_eq_some_iff.mp hrender
        cases heq
      · rw [Terminal.render, if_pos (by tauto)] at hrender
        cases hrender
        exact ih
  | tickBlink due _ ih =>
    apply ih.of_same
    unfold Terminal.tickBlink
    split <;> exact ⟨rfl, rfl, rfl, rfl⟩

/-! ### What is in the pane -/

theorem getElem?_paneView (h : t.paneView = some view) (row : ℕ) : view.lines[row]? =
    if t.windowStart.toNat + row < t.scrollback.len + t.grid.rowCount then
      t.shownLine (t.windowStart.toNat + row)
    else none := by
  obtain ⟨lines, hlines, hview⟩ := Option.bind_eq_some_iff.mp h
  cases hview
  rw [getElem?_mapM hlines]
  split
  next hlt => rw [List.getElem?_range' (by omega), one_mul, Option.bind_some]
  next hge => rw [List.getElem?_eq_none (by rw [List.length_range']; omega), Option.bind_none]

theorem paintedRow_of_view (h : t.paneView = some view) :
    t.paintedRow = view.paintedRow t.visibleCols := by
  rw [Terminal.paintedRow, h, Option.bind_some]

theorem windowStart_nonneg (t : Terminal) : 0 ≤ t.windowStart := le_max_right _ _

/-- The cursor is painted in its own row, at the newest output of the main screen. -/
theorem paintedRow_some {row : ℕ} (h : t.paintedRow = some row) : t.viewport.scrollOffset = 0 ∧
    t.altGrid = false ∧ t.windowRow t.grid.cursor.row = row ∧
    t.grid.cursor.row < t.grid.rowCount := by
  obtain ⟨view, hview, hrow⟩ := Option.bind_eq_some_iff.mp h
  obtain ⟨lines, -, heq⟩ := Option.bind_eq_some_iff.mp hview
  cases heq
  simp only [PaneView.paintedRow, shownCursor] at hrow
  split at hrow
  next row' col visible shape blinkOn hcursor =>
    obtain rfl : row' = row := by
      split at hrow
      · exact Option.some_inj.mp hrow
      · cases hrow
    split at hcursor
    next hmain =>
      split at hcursor
      next hdoc =>
        cases hcursor
        have hstart := t.windowStart_nonneg
        refine ⟨hmain.1, hmain.2, ?_, by omega⟩
        rw [windowRow]
        omega
      next => cases hcursor
    next => cases hcursor
  next => cases hrow

theorem paintedRow_lt {row : ℕ} (h : t.paintedRow = some row) : row < t.visibleRows := by
  obtain ⟨hnewest, -, hrow, hlt⟩ := paintedRow_some h
  have hstart := t.windowStart_toNat
  have hstart' := t.windowStart_nonneg
  rw [windowRow] at hrow
  omega

/-! ### What is marked -/

/-- After the operations the marks of the screen are handed to the pane. -/
theorem settle_paneDirtyAll (h : t.AllDirty) : (t.settle false).paneDirtyAll = true := by
  simp only [settle, markDirtyFromGrid, Grid.consumeDirty, Bool.false_eq_true, if_false]
  split
  · rfl
  next hgrid =>
    rcases h with hpane | hgrid'
    · exact hpane
    · exact absurd hgrid' hgrid

theorem settle_paneDirty (h : ¬ t.AllDirty) : (t.settle false).paneDirtyAll = false ∧
    ∀ row, row ∈ (t.settle false).paneDirty ↔ row ∈ t.paneDirty ∨
      (∃ i, t.grid.dirty[i]? = some true ∧ t.paneRow i = some row) ∨
        t.cursorVisibleIndex = some row := by
  rw [AllDirty, not_or, Bool.not_eq_true, Bool.not_eq_true] at h
  obtain ⟨hpane, hgrid⟩ := h
  simp only [settle, markDirtyFromGrid, Grid.consumeDirty, hgrid, Bool.false_eq_true, if_false]
  refine ⟨hpane, fun row => ?_⟩
  have hrow (i : ℕ) : (i < t.grid.dirty.length ∧ t.grid.dirty[i]? = some true) ↔
      t.grid.dirty[i]? = some true :=
    and_iff_right_of_imp fun hi => (List.getElem?_eq_some_iff.mp hi).1
  simp only [List.mem_append, List.mem_filterMap, List.mem_filter, List.mem_range, beq_iff_eq,
    hrow, Option.mem_toList, or_assoc]
  exact Iff.rfl

theorem repainted_of_all (h : t.paneDirtyAll = true) (row : ℕ) :
    Repainted t.consumeDirty.2 row := by
  intro rows hrows
  rw [consumeDirty, if_pos h] at hrows
  cases hrows

/-- A render that finds nothing dirty repaints everything. -/
theorem repainted_iff (h : t.paneDirtyAll = false) (hcursor : ∀ row,
    t.cursorVisibleIndex = some row → row ∈ t.paneDirty) (row : ℕ) :
    Repainted t.consumeDirty.2 row ↔ (∀ row', row' ∉ t.paneDirty) ∨ row ∈ t.paneDirty := by
  have hnew : (if t.cursorDirty then t.cursorVisibleIndex.toList else []).filter
      (!t.paneDirty.contains ·) = [] := by
    rw [List.filter_eq_nil_iff]
    intro idx hidx
    split at hidx
    · simp [hcursor idx (Option.mem_toList.mp hidx)]
    · cases hidx
  have hdirty : t.consumeDirty.2 = if t.paneDirty.isEmpty then none else some t.paneDirty := by
    simp only [consumeDirty, h, hnew, List.append_nil, Bool.false_eq_true, if_false]
  rw [hdirty, ← List.eq_nil_iff_forall_not_mem]
  cases t.paneDirty with
  | nil => simp [Repainted]
  | cons first rows => simp [Repainted]

/-- The marks are no part of what is shown. -/
theorem settle_shown (t : Terminal) (synced : Bool) : (t.settle synced).paneView = t.paneView ∧
    (t.settle synced).host = t.host ∧
    (t.settle synced).cursorVisibleIndex = t.cursorVisibleIndex := by
  unfold settle
  split
  · exact ⟨rfl, rfl, rfl⟩
  · unfold markDirtyFromGrid
    dsimp only
    split <;> exact ⟨rfl, rfl, rfl⟩

/-! ### After bytes -/

section After

variable {s : Terminal} {view' : PaneView} {marks : List Mark}

theorem visibleRows_of_host (h : t'.host = t.host) : t'.visibleRows = t.visibleRows := by
  have hpane : t'.paneH = t.paneH := congrArg Host.paneH h
  have hcell : t'.metrics = t.metrics := congrArg Host.metrics h
  rw [visibleRows, visibleRows, hpane, hcell]

theorem visibleCols_of_host (h : t'.host = t.host) : t'.visibleCols = t.visibleCols := by
  have hpane : t'.paneW = t.paneW := congrArg Host.paneW h
  have hcell : t'.metrics = t.metrics := congrArg Host.metrics h
  rw [visibleCols, visibleCols, hpane, hcell]

/-- What a refresh comes to for the rows of the pane. -/
theorem settle_refreshes_iff (hr : Rendered s t view) (hhost : after.host = t.host)
    (hview : after.paneView = some view') : (after.settle false).Refreshes view ↔
      ∀ row < t.visibleRows, (view'.lines[row]? ≠ view.lines[row]? ∨
        ¬ (after.paintedRow = some row ↔ t.paintedRow = some row)) →
      Repainted (after.settle false).consumeDirty.2 row := by
  obtain ⟨hshown, hsettled, -⟩ := settle_shown after false
  have hhost' : (after.settle false).host = t.host := hsettled.trans hhost
  have hsizes : (after.settle false).paneW ≠ 0 ∧ (after.settle false).paneH ≠ 0 := by
    have hpaneW : (after.settle false).paneW = t.paneW := congrArg Host.paneW hhost'
    have hpaneH : (after.settle false).paneH = t.paneH := congrArg Host.paneH hhost'
    rw [hpaneW, hpaneH]
    exact hr.sizes
  have hnext : (after.settle false).consumeDirty.1.paneView = some view' := by
    rw [consumeDirty_fst]
    exact hshown.trans hview
  rw [Refreshes, render_eq hsizes, hnext, paintedRow_of_view hview, paintedRow_of_view hr.view,
    visibleRows_of_host hhost', visibleCols_of_host hhost', visibleCols_of_host hhost]
  constructor
  · rintro ⟨_, heq, hall⟩
    cases heq
    exact hall view' _ rfl
  · intro hall
    refine ⟨_, rfl, ?_⟩
    rintro _ _ ⟨⟩
    exact hall

variable (hu : Unmoved marks t after) (hhost : after.host = t.host)
  (hhistory : .history ∉ marks)
include hu hhost hhistory

/-- The window stays where it is. -/
theorem Unmoved.windowStart : after.windowStart = t.windowStart := by
  simp only [Terminal.windowStart, hu.scrollback hhistory, hu.rowCount, hu.viewport,
    visibleRows_of_host hhost]

theorem Unmoved.windowRow (i : ℕ) : after.windowRow i = t.windowRow i := by
  rw [Terminal.windowRow, Terminal.windowRow, hu.windowStart hhost hhistory,
    hu.scrollback hhistory]

theorem Unmoved.paneRow (i : ℕ) : after.paneRow i = t.paneRow i := by
  rw [Terminal.paneRow, Terminal.paneRow, hu.windowRow hhost hhistory,
    visibleRows_of_host hhost]

/-- A row of the pane has other cells exactly if it shows a row of the screen that has. -/
theorem Unmoved.lines_ne_iff (hview : t.paneView = some view)
    (hview' : after.paneView = some view') (h : t.Valid) (h' : after.Valid) (row : ℕ) :
    view'.lines[row]? ≠ view.lines[row]? ↔
      ∃ i, t.windowRow i = row ∧ after.grid.rows[i]? ≠ t.grid.rows[i]? := by
  obtain ⟨start, hstart⟩ := Int.eq_ofNat_of_zero_le t.windowStart_nonneg
  have hshows (i : ℕ) : t.windowRow i = row ↔ t.scrollback.len + i = start + row := by
    rw [Terminal.windowRow, hstart]
    omega
  rw [getElem?_paneView hview, getElem?_paneView hview', hu.windowStart hhost hhistory, hstart,
    Int.toNat_natCast, hu.rowCount]
  simp only [hshows, shownLine, hu.scrollback hhistory, Grid.line]
  by_cases hbelow : start + row < t.scrollback.len + t.grid.rowCount
  · simp only [if_pos hbelow]
    by_cases hstored : start + row < t.scrollback.len
    · -- the lines of the history stay
      simp only [if_pos hstored]
      refine iff_of_false (fun hne => hne rfl) ?_
      rintro ⟨i, hi, -⟩
      omega
    · simp only [if_neg hstored]
      constructor
      · exact fun hne => ⟨start + row - t.scrollback.len, by omega, hne⟩
      · rintro ⟨i, hi, hne⟩
        obtain rfl : i = start + row - t.scrollback.len := by omega
        exact hne
  · rw [if_neg hbelow, if_neg hbelow]
    refine iff_of_false (fun hne => hne rfl) ?_
    rintro ⟨i, hi, hne⟩
    have hlen := h.safe.rows
    have hlen' := h'.safe.rows
    rw [hu.rowCount] at hlen'
    rw [List.getElem?_eq_none (by omega), List.getElem?_eq_none (by omega)] at hne
    exact hne rfl

end After

/-- Rows are told in 16 bits. -/
theorem Told.lt {row : ℕ} (h : t.Told tables bytes after row) (hv : after.Valid) :
    row < 65536 := by
  rcases h with ⟨i, -, hi⟩ | hcursor
  · rw [Terminal.paneRow] at hi
    split at hi
    · cases hi
      exact Nat.mod_lt _ (by decide)
    · cases hi
  · have hrow : after.grid.cursor.row = row := by
      rw [cursorVisibleIndex] at hcursor
      split at hcursor
      · cases hcursor
      · split at hcursor
        · exact Option.some_inj.mp hcursor
        · cases hcursor
    obtain ⟨c, r, c₀, r₀, hs⟩ := hv.sizes
    obtain ⟨-, -, hmax⟩ := Grid.sizeInBounds_iff.mp hs.grid.bounds
    have hlt := hs.grid.cursor.1
    rw [maxRows] at hmax
    omega

/-- Bytes tell what they have to exactly if they tell every row that is not as it was painted. -/
theorem Unmoved.tells_iff (hu : Unmoved (t.feedMarks tables bytes) t after)
    (hhost : after.host = t.host) (hv : after.Valid) :
    (∀ row < t.visibleRows, ((∃ i, t.windowRow i = row ∧ after.grid.rows[i]? ≠ t.grid.rows[i]?) ∨
      ¬ (after.paintedRow = some row ↔ t.paintedRow = some row)) → t.Told tables bytes after row) ↔
    t.Tells tables bytes after := by
  constructor
  · intro hall
    constructor
    · intro hne row hrow
      apply hall row
      · rcases hrow with hleft | hentered
        · exact paintedRow_lt hleft
        · rw [← visibleRows_of_host hhost]
          exact paintedRow_lt hentered
      · right
        rintro hiff
        rcases hrow with hleft | hentered
        · exact hne ((hiff.mpr hleft).trans hleft.symm)
        · exact hne (hentered.trans (hiff.mp hentered).symm)
    · intro i _ hge hlt
      by_contra hne
      obtain ⟨row, hrow⟩ : ∃ row : ℕ, t.windowRow i = row := Int.eq_ofNat_of_zero_le (by omega)
      have hnumbered := (hall row (by omega) (.inl ⟨i, hrow, hne⟩)).lt hv
      omega
  · rintro ⟨hcursor, hnumbered⟩ row hlt (⟨i, hi, hne⟩ | hpainted)
    · have hwritten : t.RowWritten tables bytes i := by
        by_contra hnot
        exact hne (hu.rows i fun hmem => hnot (.inr hmem))
      by_cases hfar : row < 65536
      · left
        refine ⟨i, hwritten, ?_⟩
        rw [Terminal.paneRow, hi, if_pos ⟨by omega, by omega⟩, Int.toNat_natCast,
          Nat.mod_eq_of_lt hfar]
      · exact absurd (hnumbered i hwritten (by omega) (by omega)) hne
    · have hmoved : after.paintedRow ≠ t.paintedRow := fun heq => hpainted (by rw [heq])
      exact hcursor hmoved row (by tauto)

/-- Unless they mark everything, bytes move nothing that they do not mark. -/
theorem feed_unmoved (h : t.Valid)
    (hafter : (t.receive bytes).operateAll tables (t.feedOps bytes) = some after)
    (hmarks : .all ∉ t.feedMarks tables bytes) : Unmoved (t.feedMarks tables bytes) t after ∧
      .history ∉ t.feedMarks tables bytes ∧ after.Valid ∧ after.host = t.host := by
  have hreceived : (t.receive bytes).Valid := h.of_same ⟨rfl, rfl, rfl, rfl⟩
  obtain ⟨htracks, hv, hhost⟩ := operateAll_tracks hreceived hafter
  obtain ⟨hcount, hrows, hdirty, halt, hview, hpane, hscroll⟩ := htracks.unmoved hmarks
  exact ⟨⟨hcount, hrows, hdirty, halt, hview, hpane, hscroll⟩,
    fun hmem => hmarks (all_mem_feedMarks hafter hmem), hv, hhost⟩

/-- Bytes that mark everything or not, and what the next render repaints after them. -/
theorem feed_refreshes_iff (h : t.Valid) {s : Terminal} (hr : Rendered s t view)
    (hafter : (t.receive bytes).operateAll tables (t.feedOps bytes) = some after) :
    (after.settle false).Refreshes view ↔ t.grid.dirtyAll = true ∨
      .all ∈ t.feedMarks tables bytes ∨ (∀ row, ¬ t.Told tables bytes after row) ∨
        t.Tells tables bytes after := by
  have hreceived : (t.receive bytes).Valid := h.of_same ⟨rfl, rfl, rfl, rfl⟩
  obtain ⟨htracks, hv', hhost'⟩ := operateAll_tracks hreceived hafter
  have hhost : after.host = t.host := hhost'
  have hall : after.AllDirty ↔ t.grid.dirtyAll = true ∨ .all ∈ t.feedMarks tables bytes := by
    have hbefore : (t.receive bytes).AllDirty ↔ t.grid.dirtyAll = true := by
      simp [AllDirty, receive, hr.paneDirtyAll]
    rw [htracks.all, hbefore]
    rfl
  rw [← or_assoc, ← hall]
  obtain ⟨view', hview'⟩ := hv'.safe.paneView
  rw [settle_refreshes_iff hr hhost hview']
  by_cases hdirty : after.AllDirty
  · exact iff_of_true (fun row _ _ => repainted_of_all (settle_paneDirtyAll hdirty) row)
      (.inl hdirty)
  rw [or_iff_right hdirty]
  have hmarks : .all ∉ t.feedMarks tables bytes := fun hmem => hdirty (hall.mpr (.inr hmem))
  obtain ⟨hu, hhistory, -, -⟩ := feed_unmoved h hafter hmarks
  obtain ⟨hpane, hrows⟩ := settle_paneDirty hdirty
  have htold (row : ℕ) : row ∈ (after.settle false).paneDirty ↔ t.Told tables bytes after row := by
    simp only [hrows, hu.paneDirty, hr.paneDirty, List.not_mem_nil, false_or, hu.dirty,
      hu.paneRow hhost hhistory]
    rfl
  have hrepainted (row : ℕ) : Repainted (after.settle false).consumeDirty.2 row ↔
      (∀ row', ¬ t.Told tables bytes after row') ∨ t.Told tables bytes after row := by
    have hcursor : ∀ row, (after.settle false).cursorVisibleIndex = some row →
        row ∈ (after.settle false).paneDirty := by
      intro row hrow
      rw [(settle_shown after false).2.2] at hrow
      exact (hrows row).mpr (.inr (.inr hrow))
    simp only [repainted_iff hpane hcursor, htold]
  have hlines := hu.lines_ne_iff hhost hhistory hr.view hview' h hv'
  simp only [hlines, hrepainted]
  by_cases hnone : ∀ row, ¬ t.Told tables bytes after row
  · exact iff_of_true (fun _ _ _ => .inl hnone) (.inl hnone)
  rw [or_iff_right hnone]
  simp only [or_iff_right hnone]
  exact hu.tells_iff hhost hv'

/-- The rows that are not as they were painted are repainted exactly if everything is marked, or
nothing, or the rows that the painted cursor leaves and enters. -/
theorem refreshes_iff {s : Terminal} (h : InUse tables s)
    (hrender : s.render = some (t, some (view, dirty)))
    (hsync : t.modes.synchronizedOutput = false) (bytes : List UInt8) :
    Returns (t.feed tables bytes) fun t' => t'.Refreshes view ↔ t.Covers tables bytes := by
  have hr := render_rendered hrender
  have hv : t.Valid := h.valid.of_same hr.same
  obtain ⟨t', ht', -⟩ := feed_valid hv tables bytes
  refine ⟨t', ht', ?_⟩
  rw [feed_eq, hsync] at ht'
  obtain ⟨after, hafter, rfl⟩ := Option.map_eq_some_iff.mp ht'
  rw [feed_refreshes_iff hv hr hafter, Covers]
  have hone (P : Terminal → Prop) : P after ↔ ∀ after',
      (t.receive bytes).operateAll tables (t.feedOps bytes) = some after' → P after' :=
    ⟨fun hP after' heq => Option.some_inj.mp (hafter.symm.trans heq) ▸ hP,
      fun hall => hall after hafter⟩
  rw [← hone]

/-- In a pane that shows just the screen: everything is marked, or the row in which the cursor
was painted is written, or the cursor ends in it. -/
theorem covers_iff (h : t.Valid) (hnewest : t.viewport.scrollOffset = 0)
    (hfits : t.visibleRows = t.grid.rowCount) : t.Covers tables bytes ↔
      t.grid.dirtyAll = true ∨ .all ∈ t.feedMarks tables bytes ∨
        ∀ after, (t.receive bytes).operateAll tables (t.feedOps bytes) = some after →
          ∀ row, t.paintedRow = some row →
            after.grid.cursor.row = row ∨ t.RowWritten tables bytes row := by
  by_cases hmarks : .all ∈ t.feedMarks tables bytes
  · exact iff_of_true (.inr (.inl hmarks)) (.inr (.inl hmarks))
  refine or_congr_right (or_congr_right (forall₂_congr fun after hafter => ?_))
  obtain ⟨hu, hhistory, hv', hhost⟩ := feed_unmoved h hafter hmarks
  obtain ⟨c, r, c₀, r₀, hs⟩ := h.sizes
  obtain ⟨-, -, hmax⟩ := Grid.sizeInBounds_iff.mp hs.grid.bounds
  have hcount : t.visibleRows < 65536 := by
    rw [hfits, hs.grid.rowCount_eq]
    exact hmax.trans_lt (by decide)
  have hstart : t.windowStart = t.scrollback.len := by
    rw [windowStart, hfits, hnewest]
    omega
  have hwindow (i : ℕ) : t.windowRow i = i := by
    rw [windowRow, hstart]
    omega
  have hpane (i row : ℕ) : t.paneRow i = some row ↔ i = row ∧ row < t.visibleRows := by
    rw [Terminal.paneRow, hwindow, Option.ite_none_right_eq_some, Option.some_inj,
      Int.toNat_natCast]
    omega
  have hindex (row : ℕ) : after.cursorVisibleIndex = some row ↔
      t.altGrid = false ∧ after.grid.cursor.row = row := by
    have hlt := hv'.safe.cursor.1
    rw [hu.rowCount, ← hfits, ← visibleRows_of_host hhost] at hlt
    rw [cursorVisibleIndex, hu.viewport, hu.altGrid, hnewest]
    cases t.altGrid <;> simp [hlt]
  have htold (row : ℕ) : t.Told tables bytes after row ↔
      t.RowWritten tables bytes row ∧ row < t.visibleRows ∨
        t.altGrid = false ∧ after.grid.cursor.row = row := by
    simp only [Told, hpane, hindex]
    constructor
    · rintro (⟨i, hwritten, rfl, hlt⟩ | hcursor)
      · exact .inl ⟨hwritten, hlt⟩
      · exact .inr hcursor
    · rintro (⟨hwritten, hlt⟩ | hcursor)
      · exact .inl ⟨row, hwritten, rfl, hlt⟩
      · exact .inr hcursor
  have hentered {row : ℕ} (hrow : after.paintedRow = some row) :
      t.altGrid = false ∧ after.grid.cursor.row = row := by
    obtain ⟨-, halt, hcursor, -⟩ := paintedRow_some hrow
    rw [hu.windowRow hhost hhistory, hwindow] at hcursor
    exact ⟨hu.altGrid ▸ halt, Int.ofNat_inj.mp hcursor⟩
  constructor
  · rintro (hnone | htells) row hrow
    · obtain ⟨-, halt, -⟩ := paintedRow_some hrow
      exact absurd ((htold _).mpr (.inr ⟨halt, rfl⟩)) (hnone _)
    · by_cases hstays : after.paintedRow = t.paintedRow
      · exact .inl (hentered (hstays.trans hrow)).2
      · rcases (htold row).mp (htells.cursor hstays row (.inl hrow)) with hwritten | hcursor
        · exact .inr hwritten.1
        · exact .inl hcursor.2
  · intro hall
    right
    constructor
    · rintro - row (hrow | hrow)
      · obtain ⟨-, halt, -⟩ := paintedRow_some hrow
        rw [htold]
        rcases hall row hrow with hcursor | hwritten
        · exact .inr ⟨halt, hcursor⟩
        · exact .inl ⟨hwritten, paintedRow_lt hrow⟩
      · exact (htold row).mpr (.inr (hentered hrow))
    · intro i _ hge hlt
      omega

/-- A character in a pane of two rows of four cells that was just rendered. -/
theorem twoRows_refreshes_iff : ∃ s t view dirty, InUse asciiTables s ∧
    s.render = some (t, some (view, dirty)) ∧
    Returns (t.feed asciiTables [0x61]) fun t' =>
      t'.Refreshes view ↔ t.Covers asciiTables [0x61] := by
  have hrows : InUse asciiTables _ := @InUse.call _ _ (.resize 64 64 (.ok ())) _
    (@InUse.new _ .default fontCells _ rfl) rfl
  have hclean : InUse asciiTables _ := @InUse.call _ _ (.feed []) _ (.render hrows rfl) rfl
  exact ⟨_, _, _, _, hclean, rfl, refreshes_iff hclean rfl rfl _⟩

/-- A line feed leaves the cursor that was painted in the first row. -/
theorem lineFeed_not_refreshes : ∃ s t view dirty, InUse asciiTables s ∧
    s.render = some (t, some (view, dirty)) ∧ t.viewport.scrollOffset = 0 ∧
    t.modes.synchronizedOutput = false ∧
    ¬ Returns (t.feed asciiTables [0x0A]) fun t' => t'.Refreshes view := by
  have hrows : InUse asciiTables _ := @InUse.call _ _ (.resize 64 64 (.ok ())) _
    (@InUse.new _ .default fontCells _ rfl) rfl
  have hclean : InUse asciiTables _ := @InUse.call _ _ (.feed []) _ (.render hrows rfl) rfl
  refine ⟨_, _, _, _, hclean, rfl, rfl, rfl, ?_⟩
  rintro ⟨_, ⟨⟩, _, ⟨⟩, hrefreshes⟩
  have hfirst := hrefreshes _ _ rfl 0 (by decide) (.inr (by decide)) _ rfl
  revert hfirst
  decide

end Terminal

end Ferrokey.Terminal
