import Ferrokey.Terminal.Dispatch

/-! # The margins that a sequence sets

The margins are given as two rows, counted from one. Where the top one is omitted it is
the first row, and the bottom one is meant to be the last row then; but it takes the same
default as the top one, which is the first row.
-/

set_option linter.dupNamespace false

namespace Ferrokey.Terminal

open Grid (Sized)

namespace Grid

variable {g : Grid} {c r top bottom bottom' : ℕ}

/-- The screen with the cursor at home, which in origin mode is at the top of the region. -/
def homed (g : Grid) : Grid :=
  { g with cursor := ⟨if g.originMode then g.scrollTop else 0, 0⟩, wrapPending := false }

/-- The screen with margins at two rows, counted from one; margins that are out of order
are left as they were. -/
def withMargins (g : Grid) (top bottom : ℕ) : Grid :=
  if min top g.rowCount ≤ min bottom g.rowCount then
    homed { g with
      scrollTop := min top g.rowCount - 1
      scrollBottom := min bottom g.rowCount - 1 }
  else g.homed

theorem Sized.homed_eq (h : g.Sized c r) : g.setCursor 0 0 = some g.homed := by
  obtain ⟨htop, hbottom⟩ := h.region
  have hrow : g.absoluteRow 0 = some (if g.originMode then g.scrollTop else 0) := by
    obtain ⟨_, hmax, rfl⟩ := h.maxRow
    simp only [Grid.absoluteRow, hmax, Option.bind_eq_bind, Option.bind_some, Nat.add_zero,
      min_eq_left htop, Nat.zero_min]
    split <;> rfl
  have hclamp : g.clampCursor (if g.originMode then g.scrollTop else 0) 0 =
      some ⟨if g.originMode then g.scrollTop else 0, 0⟩ := by
    obtain ⟨_, hmaxRow, rfl⟩ := h.maxRow
    obtain ⟨_, hmaxCol, rfl⟩ := h.maxCol
    have hle : (if g.originMode then g.scrollTop else 0) ≤ r - 1 := by
      split <;> omega
    simp only [Grid.clampCursor, hmaxRow, hmaxCol, Option.bind_eq_bind, Option.bind_some,
      min_eq_left hle, Nat.zero_min]
  simp only [Grid.setCursor, hrow, hclamp, Option.bind_eq_bind, Option.bind_some, homed]

/-- The rows of the region are counted from zero. -/
theorem Sized.setScrollRegion_eq (h : g.Sized c r) (hbottom : 0 < bottom) :
    g.setScrollRegion (top - 1) (bottom - 1) = some (g.withMargins top bottom) := by
  have hr := h.rows_pos
  have hcount := h.rowCount_eq
  obtain ⟨_, hmax, rfl⟩ := h.maxRow
  have hmin (row : ℕ) : min (row - 1) (r - 1) = min row g.rowCount - 1 := by
    rw [Nat.sub_min_sub_right, hcount]
  simp only [Grid.setScrollRegion, hmax, Option.bind_eq_bind, Option.bind_some, hmin]
  unfold withMargins
  by_cases hle : min top g.rowCount ≤ min bottom g.rowCount
  · have hregion : Sized c r { g with
        scrollTop := min top g.rowCount - 1
        scrollBottom := min bottom g.rowCount - 1 } :=
      { h with region := ⟨by dsimp only; omega, by dsimp only; omega⟩ }
    rw [if_pos hle, if_pos (by omega), hregion.homed_eq]
  · rw [if_neg hle, if_neg (by omega), h.homed_eq]

/-- The first row and the last one come to the same bottom margin if there is one row only, or
if the first row is refused and the margins are those that the last one asks for. -/
theorem Sized.withMargins_one_iff (h : g.Sized c r) (htop : 0 < top) :
    g.withMargins top 1 = g.withMargins top g.rowCount ↔ g.rowCount = 1 ∨
      (1 < top ∧ g.scrollTop + 1 = min top g.rowCount ∧ g.scrollBottom + 1 = g.rowCount) := by
  have hr := h.rows_pos
  have hcount := h.rowCount_eq
  have hlast : g.withMargins top g.rowCount = homed { g with
      scrollTop := min top g.rowCount - 1
      scrollBottom := g.rowCount - 1 } := by
    rw [withMargins, min_self, if_pos (min_le_right _ _)]
  rw [hlast, withMargins]
  split
  next hle =>
    -- the region becomes the first row
    constructor
    · intro heq
      have hbottom : min 1 g.rowCount - 1 = g.rowCount - 1 := congrArg (·.scrollBottom) heq
      omega
    · intro hone
      have hbottom : min 1 g.rowCount = g.rowCount := by omega
      rw [hbottom]
  next hlt =>
    -- the region stays
    constructor
    · intro heq
      have htop' : g.scrollTop = min top g.rowCount - 1 := congrArg (·.scrollTop) heq
      have hbottom : g.scrollBottom = g.rowCount - 1 := congrArg (·.scrollBottom) heq
      omega
    · intro hsame
      have htop' : min top g.rowCount - 1 = g.scrollTop := by omega
      have hbottom : g.rowCount - 1 = g.scrollBottom := by omega
      rw [htop', hbottom]

end Grid

namespace Terminal

variable {t t' : Terminal} {tables : UnicodeTables} {params : List ℕ}

/-- `CSI t ; b r`. -/
def setMargins (params : List ℕ) : Csi := ⟨0, params, [], 0x72⟩

/-- What margins are meant to be: an omitted top is the first row, an omitted bottom the last. -/
def SetsMargins (params : List ℕ) (t t' : Terminal) : Prop :=
  t' = { t with
    grid := t.grid.withMargins ((setMargins params).param 0 1)
      ((setMargins params).param 1 t.grid.rowCount) }

/-- The bottom margin is given, or the first row as one is as good as the last. -/
def GivesBottom (t : Terminal) (params : List ℕ) : Prop :=
  (setMargins params).param 1 0 ≠ 0 ∨ t.grid.rowCount = 1 ∨
    (1 < (setMargins params).param 0 1 ∧
      t.grid.scrollTop + 1 = min ((setMargins params).param 0 1) t.grid.rowCount ∧
      t.grid.scrollBottom + 1 = t.grid.rowCount)

theorem csi_setMargins (t : Terminal) (params : List ℕ) : t.csi tables (setMargins params) =
    t.onGrid (·.setScrollRegion ((setMargins params).param 0 1 - 1)
      ((setMargins params).param 1 1 - 1)) := rfl

/-- A default is only taken for a parameter that is absent or zero. -/
theorem param_eq_ite (c : Csi) (i d : ℕ) :
    c.param i d = if c.param i 0 = 0 then d else c.param i 0 := by
  unfold Csi.param
  cases c.params[i]? with
  | none => rfl
  | some v =>
    by_cases hv : v = 0
    · simp [hv]
    · simp [hv]

/-- Margins are set as they are meant exactly if the bottom one is given, or the first row is as
good as the last. -/
theorem setMargins_iff (h : t.Valid) (params : List ℕ) :
    Returns (t.csi tables (setMargins params)) (SetsMargins params t) ↔
      t.GivesBottom params := by
  obtain ⟨c, r, c₀, r₀, hs⟩ := h.sizes
  have htop := param_pos (setMargins params) 0
  have hcsi : t.csi tables (setMargins params) = some { t with
      grid := t.grid.withMargins ((setMargins params).param 0 1)
        ((setMargins params).param 1 1) } := by
    rw [csi_setMargins, onGrid, hs.grid.setScrollRegion_eq (param_pos _ 1)]
    rfl
  have hsame : Returns (t.csi tables (setMargins params)) (SetsMargins params t) ↔
      t.grid.withMargins ((setMargins params).param 0 1) ((setMargins params).param 1 1) =
        t.grid.withMargins ((setMargins params).param 0 1)
          ((setMargins params).param 1 t.grid.rowCount) := by
    rw [hcsi]
    constructor
    · rintro ⟨t', heq, hset⟩
      cases heq
      exact congrArg grid hset
    · intro hgrid
      exact .pure (by rw [SetsMargins, hgrid])
  rw [hsame, GivesBottom, param_eq_ite _ 1 1, param_eq_ite _ 1 t.grid.rowCount]
  by_cases hbottom : (setMargins params).param 1 0 = 0
  · rw [if_pos hbottom, if_pos hbottom, hs.grid.withMargins_one_iff htop]
    simp [hbottom]
  · rw [if_neg hbottom, if_neg hbottom]
    exact iff_of_true rfl (.inl hbottom)

theorem new_setMargins_iff : ∃ t, Terminal.new .default fontCells = .ok t ∧
    (Returns (t.csi asciiTables (setMargins [])) (SetsMargins [] t) ↔ t.GivesBottom []) := by
  obtain ⟨t, ht⟩ : ∃ t, Terminal.new .default fontCells = .ok t := ⟨_, rfl⟩
  exact ⟨t, ht, setMargins_iff (new_valid ht) []⟩

/-- `CSI r` leaves the first row to scroll on the new screen. -/
theorem reset_not_setsMargins : ∃ t, Terminal.new .default fontCells = .ok t ∧
    ¬ Returns (t.csi asciiTables (setMargins [])) (SetsMargins [] t) := by
  obtain ⟨t, ht⟩ : ∃ t, Terminal.new .default fontCells = .ok t := ⟨_, rfl⟩
  have hregion : (Terminal.new .default fontCells).toOption.map (fun t =>
      ((t.csi asciiTables (setMargins [])).map (·.grid.scrollBottom),
        (t.grid.withMargins ((setMargins []).param 0 1)
          ((setMargins []).param 1 t.grid.rowCount)).scrollBottom)) = some (some 0, 23) := by decide
  refine ⟨t, ht, ?_⟩
  rintro ⟨t', hcsi, hset⟩
  rw [ht] at hregion
  obtain ⟨hbottom, hasked⟩ := Prod.mk.inj (Option.some_inj.mp hregion)
  rw [hcsi, hset, Option.map_some, hasked] at hbottom
  cases hbottom

end Terminal

end Ferrokey.Terminal
