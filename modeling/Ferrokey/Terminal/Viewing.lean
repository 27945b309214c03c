import Ferrokey.Terminal.Reached

/-! # Scrolling through the history

The view can go back over the whole history, but the window follows it by no more lines
than the pane shows. So a history that is longer than that has lines that no scrolling
brings into the window.
-/

set_option linter.dupNamespace false

namespace Ferrokey.Terminal

namespace Terminal

variable (t : Terminal)

/-- The view, so many lines above the newest output. -/
def viewedAt (offset : ℕ) : Terminal :=
  { t with viewport := { t.viewport with scrollOffset := offset } }

/-- A row of the document lies within the window. -/
def InWindow (row : ℕ) : Prop :=
  t.windowStart ≤ row ∧ (row : ℤ) < t.windowStart + t.visibleRows

/-- Scrolling up from the newest output brings every line of the history into the window, and
the window starts as far back as the view is. -/
structure HistoryViewable : Prop where
  reached : ∀ row < t.scrollback.len, ∃ n < usizeSize, (t.returnToNewest.scrollUp n).InWindow row
  start : ∀ k ≤ t.scrollback.len, (t.viewedAt k).windowStart =
    max 0 ((t.scrollback.len : ℤ) + t.grid.rowCount - t.visibleRows - k)

variable {t} {tables : UnicodeTables}

theorem windowStart_viewedAt (k : ℕ) : (t.viewedAt k).windowStart =
    max ((t.scrollback.len : ℤ) + t.grid.rowCount - min (k : ℤ) t.visibleRows - t.visibleRows)
      0 := by
  have hvisible : max (t.visibleRows : ℤ) 0 = t.visibleRows := max_eq_left (Int.natCast_nonneg _)
  simp only [windowStart, viewedAt, visibleRows] at hvisible ⊢
  rw [hvisible]

/-- Scrolling up from the newest output goes back as far as asked for, within the history. -/
theorem windowStart_scrollUp (h : t.scrollback.len ≤ maxScrollback) {n : ℕ} (hn : n < usizeSize) :
    (t.returnToNewest.scrollUp n).windowStart =
      (t.viewedAt (min n t.scrollback.len)).windowStart := by
  have hoffset : (t.returnToNewest.scrollUp n).viewport.scrollOffset =
      min n t.scrollback.len := by
    simp only [scrollUp, returnToNewest, Viewport.returnToNewest, Viewport.updateBounds,
      Viewport.scrollUp, if_true, min_eq_left h, Nat.zero_add, Nat.mod_eq_of_lt hn]
    split
    next hzero => rw [hzero, Nat.zero_min]
    next => rfl
  simp only [windowStart, hoffset]
  rfl

/-- All of the history can be scrolled into view exactly when there is none, or the screen fits
into the pane and together with the history into two of them. -/
theorem historyViewable_iff (h : Reachable tables t) (hpane : 0 < t.visibleRows) :
    t.HistoryViewable ↔ t.scrollback.len = 0 ∨ t.grid.rowCount ≤ t.visibleRows ∧
      t.scrollback.len + t.grid.rowCount ≤ 2 * t.visibleRows := by
  have hkept := h.kept
  have hmax : t.scrollback.len ≤ maxScrollback := hkept.history.length.trans hkept.capacity.2
  have hsize : maxScrollback < usizeSize := by decide
  constructor
  · intro hview
    rcases Nat.eq_zero_or_pos t.scrollback.len with hnone | hsome
    · exact .inl hnone
    · -- the oldest line is in the window only if the window starts with it
      obtain ⟨n, hn, hstart, -⟩ := hview.reached 0 hsome
      rw [windowStart_scrollUp hmax hn, windowStart_viewedAt] at hstart
      omega
  · intro hfits
    constructor
    · intro row hrow
      refine ⟨t.scrollback.len + t.grid.rowCount - t.visibleRows - row, by omega, ?_⟩
      have hvisible : ∀ n, (t.returnToNewest.scrollUp n).visibleRows = t.visibleRows :=
        fun _ => rfl
      rw [InWindow, hvisible, windowStart_scrollUp hmax (by omega), windowStart_viewedAt]
      omega
    · intro k hk
      rw [windowStart_viewedAt]
      omega

/-- Two rows, and three lines in the history. -/
theorem twoRows_historyViewable_iff : ∃ t, Reachable asciiTables t ∧ t.scrollback.len = 3 ∧
    (t.HistoryViewable ↔ t.scrollback.len = 0 ∨ t.grid.rowCount ≤ t.visibleRows ∧
      t.scrollback.len + t.grid.rowCount ≤ 2 * t.visibleRows) := by
  have hrow : Reachable asciiTables _ := ⟨.default, fontCells, _,
    [.resize 64 64 (.ok ()), .feed [0x0A, 0x0A, 0x0A, 0x0A]], rfl, rfl⟩
  exact ⟨_, hrow, rfl, historyViewable_iff hrow (by decide)⟩

theorem twoRows_not_historyViewable : ∃ t, Reachable asciiTables t ∧ 0 < t.visibleRows ∧
    ¬ t.HistoryViewable := by
  refine ⟨_, ⟨.default, fontCells, _,
    [.resize 64 64 (.ok ()), .feed [0x0A, 0x0A, 0x0A, 0x0A]], rfl, rfl⟩, by decide, fun h => ?_⟩
  have hstart := h.start 3 (by decide)
  revert hstart
  decide

end Terminal

end Ferrokey.Terminal
