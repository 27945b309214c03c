import Ferrokey.Terminal.Cells
import Ferrokey.Terminal.Reached

/-! # Which lines reach the history

A scroll takes lines out at the top of the scroll region, one after the other. Here each
of them is recorded with the screen right before it leaves, and whether it is stored. A
scroll by a count stores lines only if the region is the whole screen; the others store
theirs wherever the region begins.
-/

set_option linter.dupNamespace false

namespace Ferrokey.Terminal

/-- A line that leaves the screen. -/
structure Scroll where
  /-- The screen right before. -/
  before : Grid
  /-- Whether that is the main screen. -/
  main : Bool
  stored : Bool

namespace Grid

variable (g : Grid)

/-- The line at the top of the region, which is the next to leave. -/
def topLine : Line := (g.rows[g.scrollTop]?).getD []

/-- The region is the whole screen. -/
def IsFull : Prop := g.scrollTop = 0 ∧ g.scrollBottom + 1 = g.rowCount

/-- The screens right before each of several lines leaves. -/
def scrollGrids (g : Grid) : ℕ → List Grid
  | 0 => []
  | n + 1 => g :: match g.scrollUpRegion 1 with
    | some (g', _) => g'.scrollGrids n
    | none => []

/-- A line feed scrolls at the bottom of the region and below it. -/
def atBottom : Bool := decide (g.scrollBottom ≤ g.cursor.row)

/-- A glyph goes to the next row first if that is pending or it needs more room. -/
def wraps (width : ℕ) : Bool :=
  width != 0 && (g.wrapPending || (decide (1 < width) && decide (g.cols < g.cursor.col + width)))

end Grid

namespace Terminal

variable (t : Terminal)

/-- The scroll of a line feed, if it scrolls. -/
def feedScrolls (moves : Bool) : List Scroll :=
  if moves && t.grid.atBottom then [⟨t.grid, !t.altGrid, !t.altGrid⟩] else []

/-- The lines that leave the screen in an operation. -/
def scrolls (tables : UnicodeTables) : Operation → List Scroll
  | .lineFeed | .index | .nextLine => t.feedScrolls true
  | .print ch => t.feedScrolls (t.grid.wraps ((tables.width ch).getD 0))
  | .printLast =>
    t.feedScrolls (t.lastChar.any fun ch => t.grid.wraps ((tables.width ch).getD 0))
  | .scrollUp n =>
    (t.grid.scrollGrids (min n (t.grid.scrollBottom - t.grid.scrollTop + 1))).map fun g =>
      ⟨g, !t.altGrid, !t.altGrid && decide (t.grid.scrollTop = 0) &&
        decide (t.grid.scrollBottom + 1 = t.grid.rowCount)⟩
  | _ => []

/-- The lines that leave the screen in several operations. -/
def scrollsAll (tables : UnicodeTables) (t : Terminal) : List Operation → List Scroll
  | [] => []
  | op :: ops => t.scrolls tables op ++ match t.operate tables op with
    | some t' => t'.scrollsAll tables ops
    | none => []

/-- The lines that leave the screen in an action. -/
def scrollsOf (tables : UnicodeTables) (a : ParserAction) : List Scroll :=
  t.scrollsAll tables (operations a)

/-- The lines that are stored, the oldest first. -/
def storedLines (scrolls : List Scroll) : List Line :=
  (scrolls.filter Scroll.stored).map (·.before.topLine)

end Terminal

/-! ### The lines that scrolls return -/

namespace Grid

variable {g : Grid} {c r : ℕ}

/-- A scroll by one line. -/
theorem Sized.scrollUpRegion_one (h : g.Sized c r) :
    Checked.remove g.rows g.scrollTop = some (g.topLine, g.rows.eraseIdx g.scrollTop) ∧
      Checked.insert (g.rows.eraseIdx g.scrollTop) g.scrollBottom (blankLine g.cols) =
        some (movedUp g.scrollTop g.scrollBottom g.cols g.rows) ∧
      g.scrollUpRegion 1 = some ({ g with
        rows := movedUp g.scrollTop g.scrollBottom g.cols g.rows
        dirtyAll := true }, [g.topLine]) := by
  have htop : g.scrollTop < g.rows.length := by
    rw [h.shape.1]
    exact h.region.1.trans_lt h.region.2
  have hremove : Checked.remove g.rows g.scrollTop =
      some (g.topLine, g.rows.eraseIdx g.scrollTop) := by
    rw [Checked.remove_eq htop, topLine, List.getElem?_eq_getElem htop, Option.getD_some]
  have hbottom : g.scrollBottom ≤ (g.rows.eraseIdx g.scrollTop).length := by
    have hlt := h.region.2
    rw [List.length_eraseIdx_of_lt htop, h.shape.1]
    omega
  have hinsert : Checked.insert (g.rows.eraseIdx g.scrollTop) g.scrollBottom (blankLine g.cols) =
      some (movedUp g.scrollTop g.scrollBottom g.cols g.rows) := Checked.insert_eq hbottom
  have hcount : g.regionCount 1 = some 1 := by
    simp [Grid.regionCount, Checked.sub_eq h.region.1]
  refine ⟨hremove, hinsert, ?_⟩
  simp [Grid.scrollUpRegion, hcount, Ferrokey.Terminal.rotateUp, hremove, hinsert]

theorem Sized.movedUp (h : g.Sized c r) : Sized c r { g with
    rows := Ferrokey.Terminal.movedUp g.scrollTop g.scrollBottom g.cols g.rows, dirtyAll := true } := by
  obtain ⟨out, hout, hsized, -⟩ := h.scrollUpRegion 1
  rw [h.scrollUpRegion_one.2.2] at hout
  cases hout
  exact hsized

theorem rotateUp_lines (h : g.Sized c r) (n : ℕ) {out : List Line × List Line}
    (hout : rotateUp g.scrollTop g.scrollBottom (blankLine g.cols) n g.rows = some out) :
    out.2 = (g.scrollGrids n).map topLine := by
  induction n generalizing g out with
  | zero =>
    cases hout
    rfl
  | succ n ih =>
    obtain ⟨hremove, hinsert, hone⟩ := h.scrollUpRegion_one
    simp only [Ferrokey.Terminal.rotateUp, hremove, hinsert, Option.bind_eq_bind,
      Option.bind_some, Option.bind_eq_some_iff, Option.some.injEq] at hout
    obtain ⟨⟨rows₃, lines⟩, hrest, rfl⟩ := hout
    simp only [scrollGrids, hone, List.map_cons]
    exact congrArg (g.topLine :: ·) (ih h.movedUp hrest)

/-- A scroll returns the lines that leave. -/
theorem Sized.scrollUpRegion_lines (h : g.Sized c r) {n : ℕ} {out : Grid × List Line}
    (hout : g.scrollUpRegion n = some out) : out.2 =
      (g.scrollGrids (min n (g.scrollBottom - g.scrollTop + 1))).map topLine := by
  simp only [Grid.scrollUpRegion, Grid.regionCount, Checked.sub_eq h.region.1,
    Option.bind_eq_bind, Option.bind_some, Option.bind_eq_some_iff, Option.some.injEq] at hout
  obtain ⟨⟨rows, lines⟩, hrotate, rfl⟩ := hout
  exact rotateUp_lines h _ hrotate

/-- The line that a line feed takes out. -/
def fedLine (g : Grid) : Option Line := if g.atBottom then some g.topLine else none

theorem Sized.index_line (h : g.Sized c r) {out : Grid × Option Line}
    (hout : g.index = some out) : out.2 = g.fedLine := by
  have h' := h.noWrap
  unfold Grid.index at hout
  dsimp only at hout
  split at hout
  next hlt =>
    cases hout
    simp [fedLine, atBottom, hlt]
  next hge =>
    simp only [h'.scrollUpRegion_one.2.2, Option.bind_eq_bind, Option.bind_some,
      Option.some.injEq] at hout
    cases hout
    simp [fedLine, atBottom, not_lt.mp hge, topLine]

/-- A line feed and an index do the same: they scroll by one line, the first and the last that
leaves. -/
theorem Sized.lineFeed_eq_index (h : g.Sized c r) : g.lineFeed = g.index := by
  have h' := h.noWrap
  unfold Grid.lineFeed Grid.index
  dsimp only
  split
  · rfl
  · rw [h'.scrollUpRegion_one.2.2]
    rfl

theorem Sized.lineFeed_line (h : g.Sized c r) {out : Grid × Option Line}
    (hout : g.lineFeed = some out) : out.2 = g.fedLine :=
  h.index_line (h.lineFeed_eq_index ▸ hout)

theorem Sized.print_line (h : g.Sized c r) {tables : UnicodeTables} {ch : Char}
    {attrs : CellAttrs} {out : Grid × Option Line} (hout : g.print tables ch attrs = some out) :
    out.2 = if g.wraps ((tables.width ch).getD 0) then g.fedLine else none := by
  unfold Grid.print at hout
  dsimp only at hout
  split at hout
  next hzero =>
    obtain ⟨g', -, hg'⟩ := Option.bind_eq_some_iff.mp hout
    cases hg'
    simp [wraps, hzero]
  next hwidth =>
    simp only [Option.bind_eq_bind, Option.bind_eq_some_iff, Option.some.injEq] at hout
    obtain ⟨⟨g', scrolled⟩, hwrap, g'', -, rfl⟩ := hout
    dsimp only
    unfold Grid.wrap at hwrap
    split at hwrap
    next hw =>
      obtain ⟨⟨g₁, scrolled'⟩, hindex, hout'⟩ := Option.bind_eq_some_iff.mp hwrap
      cases hout'
      have hwraps : g.wraps ((tables.width ch).getD 0) = true := by
        simpa [wraps, hwidth] using hw
      rw [if_pos hwraps]
      exact h.index_line hindex
    next hw =>
      cases hwrap
      have hwraps : g.wraps ((tables.width ch).getD 0) = false := by
        simpa [wraps, hwidth] using hw
      simp [hwraps]

end Grid

/-! ### What is appended -/

namespace Terminal

variable {t t' : Terminal} {tables : UnicodeTables}

theorem scrolling_scrollback {f : Grid → Option (Grid × Option Line)} {moves : Bool}
    (hf : ∀ out, f t.grid = some out → out.2 = if moves then t.grid.fedLine else none)
    (h : t.scrolling f = some t') :
    t'.scrollback = t.scrollback.pushAll (storedLines (t.feedScrolls moves)) := by
  obtain ⟨⟨grid, scrolled⟩, hout, ht'⟩ := Option.bind_eq_some_iff.mp h
  obtain rfl : scrolled = _ := hf _ hout
  cases ht'
  rw [pushAll_scrollback]
  dsimp only
  cases halt : t.altGrid <;> cases moves <;> cases hbottom : t.grid.atBottom <;>
    simp [feedScrolls, storedLines, Grid.fedLine, halt, hbottom, Scrollback.pushAll]

theorem scrollsFullScreen_eq {c r : ℕ} (h : t.grid.Sized c r) {full : Bool}
    (hfull : t.scrollsFullScreen = some full) : full = (decide (t.grid.scrollTop = 0) &&
      decide (t.grid.scrollBottom + 1 = t.grid.rowCount)) := by
  have hpos : 1 ≤ t.grid.rowCount := h.rows_pos.trans_eq h.rowCount_eq.symm
  unfold scrollsFullScreen at hfull
  split at hfull
  next htop =>
    simp only [Checked.sub_eq hpos, Option.bind_eq_bind, Option.bind_some] at hfull
    cases hfull
    rw [Bool.eq_iff_iff]
    simp [htop]
    omega
  next htop =>
    cases hfull
    simp [htop]

/-- Of several lines that leave, all or none are stored. -/
theorem storedLines_map (grids : List Grid) (main stored : Bool) :
    storedLines (grids.map fun g => ⟨g, main, stored⟩) =
      if stored then grids.map Grid.topLine else [] := by
  cases stored <;> simp [storedLines, List.filter_map, Function.comp_def]

theorem operate_scrollback (h : t.Valid) {op : Operation} (hkeeps : takesLines op = false)
    (hop : t.operate tables op = some t') :
    t'.scrollback = t.scrollback.pushAll (storedLines (t.scrolls tables op)) := by
  obtain ⟨c, r, c₀, r₀, hs⟩ := h.sizes
  have hg := hs.grid
  cases op with
  | lineFeed =>
    exact scrolling_scrollback (f := (·.lineFeed)) (fun _ hout => hg.lineFeed_line hout) hop
  | index => exact scrolling_scrollback (f := (·.index)) (fun _ hout => hg.index_line hout) hop
  | nextLine =>
    exact scrolling_scrollback (f := (·.nextLine))
      (fun _ hout => hg.carriageReturn.lineFeed_line hout) hop
  | print ch =>
    exact scrolling_scrollback (f := (·.print tables ch t.attrs))
      (fun _ hout => hg.print_line hout) hop
  | printLast =>
    simp only [operate] at hop
    simp only [scrolls]
    split at hop
    next ch hlast =>
      rw [hlast]
      exact scrolling_scrollback (f := (·.print tables ch t.attrs))
        (fun _ hout => hg.print_line hout) hop
    next hlast =>
      cases hop
      rw [hlast]
      rfl
  | scrollUp n =>
    simp only [operate, scrollUpLines, Option.bind_eq_bind, Option.bind_eq_some_iff,
      Option.some.injEq] at hop
    obtain ⟨full, hfull, ⟨grid, scrolled⟩, hscroll, rfl⟩ := hop
    have hlines : scrolled = _ := hg.scrollUpRegion_lines hscroll
    have hfull' : full = (decide (t.grid.scrollTop = 0) &&
        decide (t.grid.scrollBottom + 1 = t.grid.rowCount)) := scrollsFullScreen_eq hg hfull
    rw [pushAll_scrollback, scrolls, Bool.and_assoc, ← hfull', storedLines_map, ← hlines]
    dsimp only
    cases t.altGrid <;> cases full <;> simp [Scrollback.pushAll]
  | pullBack | clearHistory => cases hkeeps
  | enterAlt save =>
    cases operate_historyStep hop with
    | same _ hsame => exact hsame.scrollback
    | store hscrolls => cases hscrolls
    | enterAlt history view => exact history
  | _ =>
    cases operate_historyStep hop with
    | same _ hsame => exact hsame.scrollback
    | store hscrolls => cases hscrolls

/-- What several operations append to the history are the lines that leave and are stored. -/
theorem operateAll_scrollback (h : t.Valid) {ops : List Operation}
    (hkeeps : ∀ op ∈ ops, takesLines op = false) (hops : t.operateAll tables ops = some t') :
    t'.scrollback = t.scrollback.pushAll (storedLines (t.scrollsAll tables ops)) := by
  induction ops generalizing t with
  | nil =>
    cases hops
    rfl
  | cons op ops ih =>
    rw [operateAll_cons] at hops
    obtain ⟨t₁, hop, hrest⟩ := Option.bind_eq_some_iff.mp hops
    obtain ⟨_, ht₁, -, hv⟩ := operate_valid h tables op
    obtain rfl := Option.some_inj.mp (ht₁.symm.trans hop)
    rw [ih hv (fun op' hmem => hkeeps op' (List.mem_cons_of_mem op hmem)) hrest,
      operate_scrollback h (hkeeps op List.mem_cons_self) hop]
    simp [scrollsAll, hop, storedLines, Scrollback.pushAll]

/-- Operations that do not scroll up append nothing. -/
theorem operateAll_takesOnly {ops : List Operation} (hstill : ∀ op ∈ ops, scrollsUp op = false)
    (hops : t.operateAll tables ops = some t') :
    t'.scrollback.lines <+: t.scrollback.lines ∧ t.scrollsAll tables ops = [] := by
  induction ops generalizing t with
  | nil =>
    cases hops
    exact ⟨List.prefix_rfl, rfl⟩
  | cons op ops ih =>
    rw [operateAll_cons] at hops
    obtain ⟨t₁, hop, hrest⟩ := Option.bind_eq_some_iff.mp hops
    obtain ⟨hlines, hnone⟩ := ih (fun op' hmem => hstill op' (List.mem_cons_of_mem op hmem)) hrest
    have hop' := hstill op List.mem_cons_self
    have hfirst : t₁.scrollback.lines <+: t.scrollback.lines := by
      cases operate_historyStep hop with
      | same _ hsame => rw [hsame.scrollback]
      | store hscrolls =>
        rw [hscrolls] at hop'
        cases hop'
      | pullBack history view =>
        rw [history]
        exact List.dropLast_prefix _
      | clearHistory history view =>
        rw [history]
        exact List.nil_prefix
      | enterAlt history view => rw [history]
    refine ⟨hlines.trans hfirst, ?_⟩
    have hscrolls : t.scrolls tables op = [] := by
      cases op with
      | print | printLast | lineFeed | index | nextLine | scrollUp => cases hop'
      | _ => rfl
    simp [scrollsAll, hop, hscrolls, hnone]

end Terminal

/-! ### Where the lines come from -/

namespace Grid

/-- The scroll region stays, and the number of rows. -/
structure SameRegion (g g' : Grid) : Prop where
  top : g'.scrollTop = g.scrollTop
  bottom : g'.scrollBottom = g.scrollBottom
  rowCount : g'.rowCount = g.rowCount

variable {g g' : Grid}

theorem SameRegion.refl (g : Grid) : SameRegion g g := ⟨rfl, rfl, rfl⟩

theorem SameRegion.trans {g'' : Grid} (h : SameRegion g g') (h' : SameRegion g' g'') :
    SameRegion g g'' :=
  ⟨h'.top.trans h.top, h'.bottom.trans h.bottom, h'.rowCount.trans h.rowCount⟩

theorem scrollUpRegion_region {n : ℕ} {out : Grid × List Line}
    (h : g.scrollUpRegion n = some out) : SameRegion g out.1 := by
  simp only [scrollUpRegion, Option.bind_eq_bind, Option.bind_eq_some_iff, Option.some.injEq] at h
  obtain ⟨_, -, _, -, rfl⟩ := h
  exact ⟨rfl, rfl, rfl⟩

theorem scrollGrids_region (n : ℕ) : ∀ g' ∈ g.scrollGrids n, SameRegion g g' := by
  induction n generalizing g with
  | zero => simp [scrollGrids]
  | succ n ih =>
    intro g' hmem
    rcases List.mem_cons.mp hmem with rfl | hmem
    · exact .refl g'
    · split at hmem
      next g₁ _ hscroll => exact (scrollUpRegion_region hscroll).trans (ih g' hmem)
      next => cases hmem

theorem markDirtyRow_region {row : ℕ} (h : g.markDirtyRow row = some g') : SameRegion g g' := by
  unfold markDirtyRow at h
  split at h
  · obtain ⟨_, -, hg⟩ := Option.bind_eq_some_iff.mp h
    cases hg
    exact ⟨rfl, rfl, rfl⟩
  · cases h
    exact ⟨rfl, rfl, rfl⟩

theorem index_region {out : Grid × Option Line} (h : g.index = some out) :
    SameRegion g out.1 := by
  unfold index at h
  dsimp only at h
  split at h
  · cases h
    exact ⟨rfl, rfl, rfl⟩
  · obtain ⟨⟨g₁, _⟩, hscroll, hout⟩ := Option.bind_eq_some_iff.mp h
    cases hout
    exact ⟨(scrollUpRegion_region hscroll).top, (scrollUpRegion_region hscroll).bottom,
      (scrollUpRegion_region hscroll).rowCount⟩

theorem lineFeed_region {out : Grid × Option Line} (h : g.lineFeed = some out) :
    SameRegion g out.1 := by
  unfold lineFeed at h
  dsimp only at h
  split at h
  · cases h
    exact ⟨rfl, rfl, rfl⟩
  · obtain ⟨⟨g₁, _⟩, hscroll, hout⟩ := Option.bind_eq_some_iff.mp h
    cases hout
    exact ⟨(scrollUpRegion_region hscroll).top, (scrollUpRegion_region hscroll).bottom,
      (scrollUpRegion_region hscroll).rowCount⟩

theorem attach_region {ch : Char} (h : g.attach ch = some g') : SameRegion g g' := by
  unfold attach at h
  split at h
  · simp only [Option.bind_eq_bind, Option.bind_eq_some_iff] at h
    obtain ⟨_, -, _, -, _, -, h⟩ := h
    split at h
    · obtain ⟨_, -, hmark⟩ := Option.bind_eq_some_iff.mp h
      have hsame := markDirtyRow_region hmark
      exact ⟨hsame.top, hsame.bottom, hsame.rowCount⟩
    · cases h
      exact .refl g
  · cases h
    exact .refl g

theorem putGlyph_region {cell : Cell} {width : ℕ} (h : g.putGlyph cell width = some g') :
    SameRegion g g' := by
  simp only [putGlyph, Option.bind_eq_bind, Option.bind_eq_some_iff] at h
  obtain ⟨rows, -, g₁, hmark, hadvance⟩ := h
  have hsame := markDirtyRow_region hmark
  have hrow : SameRegion g g₁ := ⟨hsame.top, hsame.bottom, hsame.rowCount⟩
  unfold advanceCursor at hadvance
  split at hadvance
  · obtain ⟨_, -, hg⟩ := Option.bind_eq_some_iff.mp hadvance
    cases hg
    exact ⟨hrow.top, hrow.bottom, hrow.rowCount⟩
  · cases hadvance
    exact ⟨hrow.top, hrow.bottom, hrow.rowCount⟩

theorem print_region {tables : UnicodeTables} {ch : Char} {attrs : CellAttrs}
    {out : Grid × Option Line} (h : g.print tables ch attrs = some out) : SameRegion g out.1 := by
  unfold print at h
  dsimp only at h
  split at h
  · obtain ⟨g₁, hattach, hout⟩ := Option.bind_eq_some_iff.mp h
    cases hout
    exact attach_region hattach
  · simp only [Option.bind_eq_bind, Option.bind_eq_some_iff, Option.some.injEq] at h
    obtain ⟨⟨g₁, _⟩, hwrap, g₂, hglyph, rfl⟩ := h
    unfold wrap at hwrap
    split at hwrap
    · obtain ⟨⟨g₃, _⟩, hindex, hout⟩ := Option.bind_eq_some_iff.mp hwrap
      cases hout
      have hsame := index_region hindex
      have hcol : SameRegion g { g₃ with cursor := { g₃.cursor with col := 0 } } :=
        ⟨hsame.top, hsame.bottom, hsame.rowCount⟩
      exact hcol.trans (putGlyph_region hglyph)
    · cases hwrap
      exact putGlyph_region hglyph

end Grid

namespace Terminal

variable {t t' : Terminal} {tables : UnicodeTables}

/-- Every line that is stored was the first row of the main screen right before it left, and
every line that leaves the first row of the main screen is stored if the region is the whole
screen. -/
structure FaithfulHistory (tables : UnicodeTables) (t t' : Terminal) (a : ParserAction) :
    Prop where
  appended : (∀ op ∈ operations a, takesLines op = false) →
    t'.scrollback = t.scrollback.pushAll (storedLines (t.scrollsOf tables a))
  taken : (∃ op ∈ operations a, takesLines op = true) →
    t'.scrollback.lines <+: t.scrollback.lines
  stored : ∀ s ∈ t.scrollsOf tables a, s.stored = true →
    s.main = true ∧ s.before.scrollTop = 0
  kept : ∀ s ∈ t.scrollsOf tables a, s.main = true → s.before.IsFull → s.stored = true

/-- `CSI S`. -/
def isScrollUp : ParserAction → Bool
  | .csi c => finalChar c == 'S'
  | _ => false

/-- The operations of a function that scrolls by single lines. -/
def feedsLine : Operation → Bool
  | .set _ | .print _ | .printLast | .lineFeed | .index | .nextLine => true
  | _ => false

theorem operate_feeds {op : Operation} (hfeeds : feedsLine op = true)
    (hop : t.operate tables op = some t') :
    t'.altGrid = t.altGrid ∧ t.grid.SameRegion t'.grid := by
  have hscrolling {f : Grid → Option (Grid × Option Line)} (h : t.scrolling f = some t')
      (hf : ∀ out, f t.grid = some out → t.grid.SameRegion out.1) :
      t'.altGrid = t.altGrid ∧ t.grid.SameRegion t'.grid := by
    obtain ⟨grid, scrolled, _, _, hout, rfl⟩ := scrolling_eq h
    exact ⟨rfl, hf _ hout⟩
  cases op with
  | set s =>
    cases hop
    have hsame := set_same (t := t) s
    exact ⟨hsame.altGrid, hsame.grid ▸ .refl t.grid⟩
  | print ch =>
    exact hscrolling (f := (·.print tables ch t.attrs)) hop fun _ => Grid.print_region
  | printLast =>
    simp only [operate] at hop
    split at hop
    next ch _ =>
      exact hscrolling (f := (·.print tables ch t.attrs)) hop fun _ => Grid.print_region
    next =>
      cases hop
      exact ⟨rfl, .refl t.grid⟩
  | lineFeed => exact hscrolling (f := (·.lineFeed)) hop fun _ => Grid.lineFeed_region
  | index => exact hscrolling (f := (·.index)) hop fun _ => Grid.index_region
  | nextLine =>
    refine hscrolling (f := (·.nextLine)) hop fun out hout => ?_
    have hsame := Grid.lineFeed_region hout
    exact ⟨hsame.top, hsame.bottom, hsame.rowCount⟩
  | _ => cases hfeeds

theorem mem_feedScrolls {moves : Bool} {s : Scroll} (h : s ∈ t.feedScrolls moves) :
    s = ⟨t.grid, !t.altGrid, !t.altGrid⟩ := by
  unfold feedScrolls at h
  split at h
  · exact List.mem_singleton.mp h
  · cases h

/-- A function that scrolls by single lines stores all of them on the main screen. -/
theorem scrollsAll_feeds {ops : List Operation} (hfeeds : ∀ op ∈ ops, feedsLine op = true)
    (s : Scroll) (hs : s ∈ t.scrollsAll tables ops) :
    s.main = (!t.altGrid) ∧ s.stored = (!t.altGrid) ∧ t.grid.SameRegion s.before := by
  induction ops generalizing t with
  | nil => cases hs
  | cons op ops ih =>
    have hop := hfeeds op List.mem_cons_self
    rcases List.mem_append.mp hs with hs | hs
    · have heq : s = ⟨t.grid, !t.altGrid, !t.altGrid⟩ := by
        cases op with
        | print | printLast | lineFeed | index | nextLine => exact mem_feedScrolls hs
        | set => cases hs
        | _ => cases hop
      rw [heq]
      exact ⟨rfl, rfl, .refl t.grid⟩
    · split at hs
      next t₁ hop₁ =>
        obtain ⟨halt, hregion⟩ := operate_feeds hop hop₁
        obtain ⟨hmain, hstored, hbefore⟩ :=
          ih (fun op' hmem => hfeeds op' (List.mem_cons_of_mem op hmem)) hs
        exact ⟨halt ▸ hmain, halt ▸ hstored, hregion.trans hbefore⟩
      next => cases hs

theorem privateCodeOps_still (code : ℕ) (set : Bool) :
    ∀ op ∈ privateCodeOps code set, scrollsUp op = false := by
  unfold privateCodeOps
  split
  next mode _ => cases mode <;> cases set <;> simp [privateModeOps, scrollsUp]
  next => simp

theorem ansiCodeOps_still (code : ℕ) (set : Bool) :
    ∀ op ∈ ansiCodeOps code set, scrollsUp op = false := by
  unfold ansiCodeOps
  split <;> simp [scrollsUp]

theorem softResetOps_still : ∀ op ∈ softResetOps, scrollsUp op = false := by
  simp [softResetOps, scrollsUp]

theorem flatMap_still {f : ℕ → List Operation} (h : ∀ code, ∀ op ∈ f code, scrollsUp op = false)
    (codes : List ℕ) : ∀ op ∈ codes.flatMap f, scrollsUp op = false := by
  intro op hmem
  obtain ⟨code, -, hop⟩ := List.mem_flatMap.mp hmem
  exact h code op hop

/-- A final byte scrolls by a count, by single lines, or not at all. -/
theorem csiFinalOps_cases (c : Csi) :
    (∀ op ∈ csiFinalOps c, scrollsUp op = false) ∨
      (finalChar c = 'S' ∧ ∃ n, csiFinalOps c = [.scrollUp n]) ∨
      (finalChar c ≠ 'S' ∧ ∀ op ∈ csiFinalOps c, feedsLine op = true) := by
  unfold csiFinalOps
  dsimp only
  split
  case h_19 hf => exact .inr (.inl ⟨hf, _, rfl⟩)
  case h_23 hf =>
    refine .inr (.inr ⟨by rw [hf]; decide, fun op hmem => ?_⟩)
    rw [List.eq_of_mem_replicate hmem]
    rfl
  case h_13 | h_22 =>
    refine .inl fun op hmem => ?_
    rw [List.eq_of_mem_replicate hmem]
    rfl
  case h_14 =>
    left
    unfold eraseDisplayOps
    split <;> simp [scrollsUp]
  case h_26 =>
    left
    unfold clearTabOps
    split <;> simp [scrollsUp]
  case h_27 | h_28 => exact .inl (flatMap_still (fun code => ansiCodeOps_still code _) _)
  case h_34 =>
    left
    split
    · exact softResetOps_still
    · simp
  case h_24 | h_30 | h_31 | h_32 | h_33 =>
    left
    split_ifs <;> simp [attributesOp, scrollsUp]
  all_goals exact .inl (by simp [scrollsUp])

/-- An action scrolls by a count, by single lines, or not at all. -/
theorem operations_cases (a : ParserAction) :
    (∀ op ∈ operations a, scrollsUp op = false) ∨
      (isScrollUp a = true ∧ ∃ n, operations a = [.scrollUp n]) ∨
      (isScrollUp a = false ∧ ∀ op ∈ operations a, feedsLine op = true) := by
  cases a with
  | print ch => exact .inr (.inr ⟨rfl, by simp [operations, feedsLine]⟩)
  | control code =>
    cases code with
    | lineFeed | verticalTab | formFeed | index | nextLine =>
      exact .inr (.inr ⟨rfl, by simp [operations, controlOps, feedsLine]⟩)
    | _ => exact .inl (by simp [operations, controlOps, reverseIndexOps, scrollsUp])
  | csi c =>
    simp only [operations, csiOps, isScrollUp, beq_iff_eq, beq_eq_false_iff_ne]
    split
    · exact .inl (flatMap_still (fun code => privateCodeOps_still code _) _)
    · split
      · exact .inl (by simp [scrollsUp])
      · split
        · exact .inl (by simp [scrollsUp])
        · exact csiFinalOps_cases c
  | osc payload => exact .inl (by simp [operations, scrollsUp])
  | esc seq =>
    cases seq with
    | index | nextLine => exact .inr (.inr ⟨rfl, by simp [operations, escOps, feedsLine]⟩)
    | lineAttributes byte =>
      left
      simp only [operations, escOps]
      split <;> simp [scrollsUp]
    | fullReset =>
      left
      simp [operations, escOps, fullResetOps, softResetOps, scrollsUp]
    | _ => exact .inl (by simp [operations, escOps, reverseIndexOps, attributesOp, scrollsUp])
  | charsetSelect _ => exact .inl (by simp [operations])

/-- The history is faithful to the top of the screen, unless an action other than a scroll by a
count scrolls a region of the main screen that begins below its first row. -/
theorem faithfulHistory_iff (h : Reachable tables t) {a : ParserAction}
    (ha : t.apply tables a = some t') : FaithfulHistory tables t t' a ↔
      ¬ (t.altGrid = false ∧ 0 < t.grid.scrollTop ∧ isScrollUp a = false ∧
        t.scrollsOf tables a ≠ []) := by
  have hv := h.kept.toValid
  rw [apply_eq] at ha
  have happended : (∀ op ∈ operations a, takesLines op = false) →
      t'.scrollback = t.scrollback.pushAll (storedLines (t.scrollsOf tables a)) :=
    fun hkeeps => operateAll_scrollback hv hkeeps ha
  have htaken : (∃ op ∈ operations a, takesLines op = true) →
      t'.scrollback.lines <+: t.scrollback.lines := by
    rintro ⟨op, hmem, htakes⟩
    rcases operations_cases a with hstill | ⟨-, n, hcount⟩ | ⟨-, hfeeds⟩
    · exact (operateAll_takesOnly hstill ha).1
    · rw [hcount] at hmem
      rw [List.mem_singleton.mp hmem] at htakes
      cases htakes
    · have hfeed := hfeeds op hmem
      cases op with
      | pullBack | clearHistory => cases hfeed
      | _ => cases htakes
  rcases operations_cases a with hstill | ⟨hup, n, hcount⟩ | ⟨hup, hfeeds⟩
  · have hnone : t.scrollsOf tables a = [] := (operateAll_takesOnly hstill ha).2
    apply iff_of_true ⟨happended, htaken, by simp [hnone], by simp [hnone]⟩
    simp [hnone]
  · have hscrolls : t.scrollsOf tables a = t.scrolls tables (.scrollUp n) := by
      simp only [scrollsOf, hcount, scrollsAll]
      split <;> exact List.append_nil _
    have hregion : ∀ s ∈ t.scrollsOf tables a, s.main = (!t.altGrid) ∧
        s.stored = (!t.altGrid && decide (t.grid.scrollTop = 0) &&
          decide (t.grid.scrollBottom + 1 = t.grid.rowCount)) ∧ t.grid.SameRegion s.before := by
      rw [hscrolls]
      intro s hs
      obtain ⟨g, hg, rfl⟩ := List.mem_map.mp hs
      exact ⟨rfl, rfl, Grid.scrollGrids_region _ g hg⟩
    refine iff_of_true ⟨happended, htaken, ?_, ?_⟩ (by simp [hup])
    · intro s hs hstored
      obtain ⟨hmain, hflag, hsame⟩ := hregion s hs
      simp only [hflag, Bool.and_eq_true, decide_eq_true_eq] at hstored
      exact ⟨hmain.trans hstored.1.1, hsame.top.trans hstored.1.2⟩
    · rintro s hs hmain ⟨htop, hbottom⟩
      obtain ⟨hmain', hflag, hsame⟩ := hregion s hs
      rw [hsame.top] at htop
      rw [hsame.bottom, hsame.rowCount] at hbottom
      simp [hflag, ← hmain', hmain, htop, hbottom]
  · have hregion : ∀ s ∈ t.scrollsOf tables a,
        s.main = (!t.altGrid) ∧ s.stored = (!t.altGrid) ∧ t.grid.SameRegion s.before :=
      fun s hs => scrollsAll_feeds hfeeds s hs
    constructor
    · rintro hf ⟨hmain, htop, -, hne⟩
      obtain ⟨s, hs⟩ := List.exists_mem_of_ne_nil _ hne
      obtain ⟨-, hstored, hsame⟩ := hregion s hs
      have hzero := (hf.stored s hs (by rw [hstored, hmain]; rfl)).2
      rw [hsame.top] at hzero
      omega
    · intro hnot
      refine ⟨happended, htaken, fun s hs hstored => ?_, fun s hs hmain _ => ?_⟩
      · obtain ⟨hmain, hflag, hsame⟩ := hregion s hs
        refine ⟨by rw [hmain, ← hflag, hstored], ?_⟩
        by_contra htop
        rw [hsame.top] at htop
        have halt : t.altGrid = false := by simpa [hflag] using hstored
        exact hnot ⟨halt, Nat.pos_of_ne_zero htop, hup, List.ne_nil_of_mem hs⟩
      · obtain ⟨hmain', hflag, -⟩ := hregion s hs
        rw [hflag, ← hmain', hmain]

/-- Three rows, of which the last two are the region, and the cursor in the last one. -/
def lowerRegion : List TerminalOp :=
  [.resize 64 96 (.ok ()), .feed [0x1B, 0x5B, 0x32, 0x3B, 0x33, 0x72, 0x1B, 0x5B, 0x33, 0x48]]

theorem lowerRegion_faithfulHistory_iff : ∃ t t', Reachable asciiTables t ∧
    t.apply asciiTables (.control .lineFeed) = some t' ∧
    (FaithfulHistory asciiTables t t' (.control .lineFeed) ↔
      ¬ (t.altGrid = false ∧ 0 < t.grid.scrollTop ∧ isScrollUp (.control .lineFeed) = false ∧
        t.scrollsOf asciiTables (.control .lineFeed) ≠ [])) := by
  have hreach : Reachable asciiTables _ :=
    ⟨.default, fontCells, _, lowerRegion, rfl, rfl⟩
  exact ⟨_, _, hreach, rfl, faithfulHistory_iff hreach rfl⟩

theorem lowerRegion_not_faithfulHistory : ∃ t t', Reachable asciiTables t ∧
    t.apply asciiTables (.control .lineFeed) = some t' ∧
    ¬ FaithfulHistory asciiTables t t' (.control .lineFeed) := by
  refine ⟨_, _, ⟨.default, fontCells, _, lowerRegion, rfl, rfl⟩, rfl, fun h => ?_⟩
  obtain ⟨-, htop⟩ := h.stored _ List.mem_cons_self rfl
  cases htop

end Terminal

end Ferrokey.Terminal
