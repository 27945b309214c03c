import Ferrokey.Terminal.Regions

/-! # The reverse index and the history

A reverse index moves the cursor up by a row, and at the top of the region scrolls it down.
The engine then pulls a line back from the history whatever the screen has done, and that
scrolls the region once more.
-/

set_option linter.dupNamespace false

namespace Ferrokey.Terminal

open Collections

open Grid (Sized)

namespace Grid

variable {g : Grid} {c r : ℕ}

theorem regionLines_one (g : Grid) : g.regionLines 1 = 1 := by
  unfold regionLines
  omega

/-- The region scrolled down by one line, which comes in at its top. -/
def scrolledDown (g : Grid) (line : Line) : Grid :=
  g.slid g.scrollTop (g.scrollBottom + 1) (slideDown 1 line)

/-- The cursor a row up, as far as there is one. -/
def up (g : Grid) : Grid :=
  { g with cursor := { g.cursor with row := g.cursor.row - 1 }, wrapPending := false }

theorem Sized.scrolledDown_eq (h : g.Sized c r) (line : Line) : g.scrolledDown line = { g with
    rows := (g.rows.insertIdx g.scrollTop line).eraseIdx (g.scrollBottom + 1)
    dirtyAll := true } := by
  have hlen := h.shape.1
  rw [scrolledDown, slid, eraseIdx_insertIdx_of_le h.region.1 (by have := h.region.2; omega)]

/-- The screen after a reverse index. -/
def indexedBack (g : Grid) : Grid :=
  if g.scrollTop < g.cursor.row then g.up
  else scrolledDown { g with wrapPending := false } (blankLine g.cols)

theorem Sized.reverseIndex_eq (h : g.Sized c r) : g.reverseIndex = some g.indexedBack := by
  have h' := h.noWrap
  unfold Grid.reverseIndex indexedBack
  dsimp only
  split
  · rfl
  · rw [h'.scrollDownRegion_eq, regionLines_one]
    rfl

theorem Sized.indexedBack (h : g.Sized c r) : g.indexedBack.Sized c r := by
  obtain ⟨g', hg', h'⟩ := h.reverseIndex
  rw [h.reverseIndex_eq] at hg'
  cases hg'
  exact h'

theorem Sized.pushLineFromScrollback_eq (h : g.Sized c r) (line : Line) :
    g.pushLineFromScrollback line = some (g.scrolledDown (normalise g.cols line)) := by
  obtain ⟨htop, hbottom⟩ := h.region
  have hlen := h.shape.1
  have hset : Checked.set (onSegment g.scrollTop (g.scrollBottom + 1)
      (slideDown 1 (blankLine g.cols)) g.rows) g.scrollTop (normalise g.cols line) =
        some (onSegment g.scrollTop (g.scrollBottom + 1)
          (slideDown 1 (normalise g.cols line)) g.rows) := by
    rw [Checked.set_eq, onSegment_slideDown_set (by omega) (by omega)]
    rw [length_onSegment (fun _ => length_slideDown) (by omega) (by omega)]
    omega
  simp [Grid.pushLineFromScrollback, h.scrollDownRegion_eq, regionLines_one, slid, hset,
    scrolledDown]

/-- Two lines that come in look like one exactly if the second one moves blank rows only. -/
theorem Sized.scrolledDown_twice_iff (h : g.Sized c r) {blank line line' : Line} :
    (g.scrolledDown blank).scrolledDown line = g.scrolledDown line' ↔
      line = line' ∧ ∀ row ∈ segment g.scrollTop g.scrollBottom g.rows, row = blank := by
  obtain ⟨htop, hbottom⟩ := h.region
  have hlen := h.shape.1
  have hne : segment g.scrollTop (g.scrollBottom + 1) g.rows ≠ [] := by
    apply List.ne_nil_of_length_pos
    rw [length_segment (by omega)]
    omega
  rw [← dropLast_segment htop (by omega), ← slideDown_twice_iff hne, ← onSegment_inj (f := fun s =>
    slideDown 1 line (slideDown 1 blank s)), ← onSegment_onSegment (fun _ => length_slideDown)
      (by omega) (by omega)]
  constructor
  · exact congrArg rows
  · intro hrows
    simp only [scrolledDown, slid, hrows]

/-- A blank line that comes in is the cursor moved up only where neither is to be seen. -/
theorem Sized.scrolledDown_eq_up_iff (h : g.Sized c r) :
    scrolledDown { g with wrapPending := false } (blankLine g.cols) = g.up ↔
      g.cursor.row = 0 ∧ g.dirtyAll = true ∧
        ∀ row ∈ segment g.scrollTop (g.scrollBottom + 1) g.rows, row = blankLine g.cols := by
  have hspan : g.scrollTop ≤ g.scrollBottom + 1 := h.region.1.trans (Nat.le_succ _)
  have hrows : onSegment g.scrollTop (g.scrollBottom + 1) (slideDown 1 (blankLine g.cols)) g.rows =
      g.rows ↔
        ∀ row ∈ segment g.scrollTop (g.scrollBottom + 1) g.rows, row = blankLine g.cols := by
    rw [onSegment_eq_self_iff hspan, slideDown_eq_self_iff, or_iff_right one_ne_zero]
  rw [← hrows]
  constructor
  · intro heq
    have hrow : g.cursor.row = g.cursor.row - 1 := congrArg (·.cursor.row) heq
    exact ⟨by omega, (congrArg dirtyAll heq).symm, congrArg rows heq⟩
  · rintro ⟨hrow, hdirty, hsame⟩
    have hup : g.up = { g with wrapPending := false } := by
      have hsub : g.cursor.row - 1 = g.cursor.row := by omega
      simp only [up, hsub]
    rw [hup]
    exact slid_eq_self_iff.mpr ⟨hdirty, hsame⟩

end Grid

namespace Terminal

variable {t t' : Terminal} {tables : UnicodeTables} {a : ParserAction}

theorem restoreFromScrollback_of_nil (hnil : t.scrollback.lines = []) :
    t.restoreFromScrollback = some t := by
  rw [restoreFromScrollback, Scrollback.popNewest_of_nil hnil]

theorem restoreFromScrollback_of_last {c r : ℕ} (h : t.grid.Sized c r) {line : Line}
    (hlast : t.scrollback.lines.getLast? = some line) : t.restoreFromScrollback = some { t with
      grid := t.grid.scrolledDown (normalise t.grid.cols line)
      scrollback := t.scrollback.popNewest.1 } := by
  rw [restoreFromScrollback, Scrollback.popNewest_of_last hlast]
  simp only [onGrid, h.pushLineFromScrollback_eq]
  rfl

/-- A history that gives up a line is not the same. -/
theorem popNewest_ne (h : t.scrollback.lines ≠ []) :
    t.scrollback.popNewest.1 ≠ t.scrollback := by
  intro heq
  have hlen : t.scrollback.lines.dropLast.length = t.scrollback.lines.length :=
    congrArg (·.lines.length) heq
  have hpos := List.length_pos_of_ne_nil h
  rw [List.length_dropLast] at hlen
  omega

/-- What a reverse index should do: below the top of the region it moves the cursor, and at the
top it scrolls by one line, for which it takes one from the history at most. -/
structure IndexesBack (t t' : Terminal) : Prop where
  moves : t.grid.cursor.row ≠ t.grid.scrollTop → t' = { t with grid := t.grid.up }
  scrolls : t.grid.cursor.row = t.grid.scrollTop → ∃ line scrollback,
    t' = { t with
      grid := { t.grid with
        rows := (t.grid.rows.insertIdx t.grid.scrollTop line).eraseIdx (t.grid.scrollBottom + 1)
        wrapPending := false
        dirtyAll := true }
      scrollback } ∧
    (scrollback = t.scrollback ∨ scrollback = t.scrollback.popNewest.1)

/-- Below the top of the region the history is empty. At its top that is so or all rows of the
region but the last are blank; above it, there is nothing to be seen of the scroll either. -/
def BacksUp (t : Terminal) : Prop :=
  if t.grid.scrollTop < t.grid.cursor.row then t.scrollback.lines = []
  else if t.grid.cursor.row = t.grid.scrollTop then
    t.scrollback.lines = [] ∨ ∀ line ∈ segment t.grid.scrollTop t.grid.scrollBottom t.grid.rows,
      line = blankLine t.grid.cols
  else
    t.scrollback.lines = [] ∧ t.grid.cursor.row = 0 ∧ t.grid.dirtyAll = true ∧
      ∀ line ∈ segment t.grid.scrollTop (t.grid.scrollBottom + 1) t.grid.rows,
        line = blankLine t.grid.cols

theorem reverseIndex_eq_restore {c r : ℕ} (h : t.grid.Sized c r) :
    t.reverseIndex = restoreFromScrollback { t with grid := t.grid.indexedBack } := by
  rw [reverseIndex, onGrid, h.reverseIndex_eq]
  rfl

/-- A reverse index with an empty history does what the screen does. -/
theorem indexesBack_iff_of_nil {c r : ℕ} (h : t.grid.Sized c r)
    (hnil : t.scrollback.lines = []) :
    IndexesBack t { t with grid := t.grid.indexedBack } ↔ t.BacksUp := by
  unfold BacksUp Grid.indexedBack
  simp only [hnil, true_or, true_and]
  split
  next hlt => exact iff_of_true ⟨fun _ => rfl, fun heq => absurd heq hlt.ne'⟩ trivial
  next hge =>
    split
    next heq =>
      have h' := h.noWrap
      refine iff_of_true ⟨fun hne => absurd heq hne, fun _ => ?_⟩ trivial
      exact ⟨_, t.scrollback, by rw [h'.scrolledDown_eq], .inl rfl⟩
    next hne =>
      rw [← h.scrolledDown_eq_up_iff]
      constructor
      · exact fun hb => congrArg grid (hb.moves hne)
      · exact fun heq => ⟨fun _ => by rw [heq], fun heq => absurd heq hne⟩

/-- A reverse index with a line in the history scrolls for it, too. -/
theorem indexesBack_iff_of_lines {c r : ℕ} (h : t.grid.Sized c r)
    (hne : t.scrollback.lines ≠ []) (line : Line) : IndexesBack t { t with
      grid := t.grid.indexedBack.scrolledDown line
      scrollback := t.scrollback.popNewest.1 } ↔ t.BacksUp := by
  unfold BacksUp
  simp only [hne, false_or, false_and]
  by_cases hrow : t.grid.cursor.row = t.grid.scrollTop
  · have h' := h.noWrap
    rw [if_neg (by omega), if_pos hrow, Grid.indexedBack, if_neg (by omega)]
    constructor
    · intro hb
      obtain ⟨line', scrollback, heq, -⟩ := hb.scrolls hrow
      have hgrid := (congrArg grid heq).trans (h'.scrolledDown_eq line').symm
      exact (h'.scrolledDown_twice_iff.mp hgrid).2
    · intro hblank
      refine ⟨fun hne => absurd hrow hne, fun _ => ⟨line, _, ?_, .inr rfl⟩⟩
      rw [h'.scrolledDown_twice_iff.mpr ⟨rfl, hblank⟩, h'.scrolledDown_eq]
  · rw [if_neg hrow, ite_self]
    exact iff_of_false (fun hb => popNewest_ne hne (congrArg scrollback (hb.moves hrow))) id

/-- A reverse index moves back by one row exactly if the history has no line that the screen
would scroll for. -/
theorem reverseIndex_iff (h : t.Valid)
    (ha : a = .control .reverseIndex ∨ a = .esc .reverseIndex) :
    Returns (t.apply tables a) fun t' => t.IndexesBack t' ↔ t.BacksUp := by
  obtain ⟨c, r, c₀, r₀, hs⟩ := h.sizes
  have happly : t.apply tables a = t.reverseIndex := by
    rcases ha with rfl | rfl <;> rfl
  rw [happly, reverseIndex_eq_restore hs.grid]
  cases hlast : t.scrollback.lines.getLast? with
  | none =>
    have hnil := List.getLast?_eq_none_iff.mp hlast
    exact .of_eq (restoreFromScrollback_of_nil hnil) (indexesBack_iff_of_nil hs.grid hnil)
  | some line =>
    have hne : t.scrollback.lines ≠ [] := by
      rintro hnil
      rw [hnil] at hlast
      cases hlast
    exact .of_eq (restoreFromScrollback_of_last hs.grid.indexedBack hlast)
      (indexesBack_iff_of_lines hs.grid hne _)

/-- The bytes of a reverse index, outside a sequence and a character. -/
theorem feed_reverseIndex {p : Parser} (hstate : p.state = .ground) (hutf8 : p.utf8 = [])
    (hesc : p.oscPendingEsc = false) : (p.feed [0x1B, 0x4D]).2 = [.esc .reverseIndex] ∧
      (p.feed [0x8D]).2 = [.control .reverseIndex] := by
  obtain ⟨state, utf8, _, _, _, _, _, _, _, _, pending⟩ := p
  cases hstate
  cases hutf8
  cases hesc
  exact ⟨rfl, rfl⟩

/-- A line has left a pane of three rows, and the cursor is in the last of them. -/
def scrolledByOne : List TerminalOp :=
  [.resize 64 96 (.ok ()), .feed [0x0A, 0x0A, 0x0A]]

theorem scrolledByOne_indexesBack_iff : ∃ t, Reachable asciiTables t ∧
    Returns (t.apply asciiTables (.esc .reverseIndex)) fun t' => t.IndexesBack t' ↔ t.BacksUp := by
  have hreach : Reachable asciiTables _ := ⟨.default, fontCells, _, scrolledByOne, rfl, rfl⟩
  exact ⟨_, hreach, reverseIndex_iff hreach.kept.toValid (.inr rfl)⟩

/-- The line comes back onto the screen although the cursor only moves up. -/
theorem scrolledByOne_not_indexesBack : ∃ t t', Reachable asciiTables t ∧
    t.apply asciiTables (.esc .reverseIndex) = some t' ∧ ¬ t.IndexesBack t' := by
  refine ⟨_, _, ⟨.default, fontCells, _, scrolledByOne, rfl, rfl⟩, rfl, fun h => ?_⟩
  have hlines := congrArg (·.scrollback.len) (h.moves (by decide))
  revert hlines
  decide

end Terminal

end Ferrokey.Terminal
