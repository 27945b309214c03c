import Ferrokey.Terminal.Cells
import Ferrokey.Terminal.Reached
import Ferrokey.Terminal.Registers

/-! # A full reset

A full reset blanks the screen, returns the cursor, the margins, the rendition and most
modes, and empties the history. It also clears every tab stop, while a new terminal has
one in every eighth column.
-/

set_option linter.dupNamespace false

namespace Ferrokey.Terminal

/-- Bytes keep the parser in order. -/
theorem Parser.Settled.feed {p : Parser} (h : p.Settled) (bytes : List UInt8) :
    (p.feed bytes).1.Settled :=
  Machine.run_invariant Settled h (fun _ byte h => (h.advance byte).2) bytes

/-- In the ground state `ESC c` resets the terminal; a character that it cuts off is replaced. -/
theorem Parser.Settled.feed_fullReset {p : Parser} (h : p.Settled) (hground : p.state = .ground) :
    (p.feed [0x1B, 0x63]).2 = (if p.utf8 = [] then [] else [.print replacement]) ++
      [.esc .fullReset] := by
  have hpending : p.oscPendingEsc = false := by
    rcases h.cases with ⟨⟨-, -, hp⟩, -⟩ | ⟨-, -, hp⟩ | ⟨-, ⟨hs, -⟩ | ⟨hs, -⟩⟩
    · exact hp
    · exact hp
    · cases hground.symm.trans hs
    · cases hground.symm.trans hs
  have hescape : p.advance 0x1B = ({ p with utf8 := [], state := .escape },
      if p.utf8 = [] then [] else [.print replacement]) := by
    unfold Parser.advance
    rw [hground]
    cases hu : p.utf8 with
    | nil =>
      simp [Parser.ground, hu, Parser.groundByte, Parser.goto]
    | cons byte bytes =>
      simp [Parser.ground, hu, Parser.utf8Continue, Parser.groundByte, Parser.goto]
  have hreset : Parser.advance { p with utf8 := [], state := .escape } 0x63 =
      ({ p with utf8 := [], state := .ground }, [.esc .fullReset]) := by
    have hchar : Char.ofNat (0x63 : UInt8).toNat = 'c' := rfl
    unfold Parser.advance
    simp only [Parser.escape, hpending, hchar]
    rfl
  simp only [Parser.feed, Machine.outputs, hescape, hreset, List.flatten_cons, List.flatten_nil]
  rfl

namespace Terminal

variable {t t' t₀ : Terminal} {tables : UnicodeTables}

theorem Reachable.settled (h : Reachable tables t) : t.parser.Settled := by
  obtain ⟨config, metrics, t₀, ops, hnew, hrun⟩ := h
  have hstart : t₀.Valid ∧ t₀.parser.Settled := by
    refine ⟨new_valid hnew, ?_⟩
    rw [(new_fresh hnew).parser]
    exact Parser.settled_new
  have hall : Returns (t₀.performAll tables ops) fun t => t.Valid ∧ t.parser.Settled := by
    apply Returns.foldlM fun t : Terminal => t.Valid ∧ t.parser.Settled
    · rintro t' ⟨hv, hp⟩ op -
      obtain ⟨out, hout, hv'⟩ := perform_valid hv tables op
      obtain ⟨bytes, hbytes⟩ := parser_perform hv hout
      exact ⟨out.1, by rw [hout]; rfl, hv', hbytes ▸ hp.feed bytes⟩
    · exact hstart
  obtain ⟨t', ht', -, hp⟩ := hall
  exact Option.some_inj.mp (ht'.symm.trans hrun) ▸ hp

/-! ### What a reset comes to -/

/-- A terminal of a size after a full reset. -/
structure WasReset (c r : ℕ) (t t' : Terminal) : Prop where
  rows : t'.grid.rows = List.replicate r (blankLine c)
  cursor : t'.grid.cursor = ⟨0, 0⟩
  margins : t'.grid.scrollTop = 0 ∧ t'.grid.scrollBottom = r - 1
  tabStops : t'.grid.tabStops = List.replicate c false
  originMode : t'.grid.originMode = false
  modes : t'.modes = softModes t.modes
  attrs : t'.attrs = .default
  history : t'.scrollback.lines = []

/-- The screen of a terminal that was reset softly. -/
def resetGrid (g : Grid) : Grid :=
  { g with
    originMode := false
    scrollTop := 0
    scrollBottom := g.rowCount - 1
    cursor := ⟨0, 0⟩
    wrapPending := false
    tabStops := g.tabStops.map fun _ => false }

theorem selectionClear_screen (t : Terminal) : t.selectionClear.grid = t.grid ∧
    t.selectionClear.modes = t.modes ∧ t.selectionClear.attrs = t.attrs := by
  unfold selectionClear
  split <;> exact ⟨rfl, rfl, rfl⟩

theorem softReset_grid {c r : ℕ} (h : t.grid.Sized c r) : Returns t.softReset fun t' =>
    t'.grid = resetGrid t.grid ∧ t'.modes = softModes t.modes ∧ t'.attrs = .default := by
  have hr : 1 ≤ t.grid.rowCount := h.rows_pos.trans_eq h.rowCount_eq.symm
  have hc : 1 ≤ t.grid.cols := h.cols_pos.trans_eq h.cols_eq.symm
  have hregion : Grid.setScrollRegion (t.grid.setOriginMode false) 0 (t.grid.rowCount - 1) =
      some { t.grid with
        originMode := false, scrollTop := 0, scrollBottom := t.grid.rowCount - 1,
        cursor := ⟨0, 0⟩, wrapPending := false } := by
    simp [Grid.setOriginMode, Grid.setScrollRegion, Grid.setCursor, Grid.absoluteRow,
      Grid.clampCursor, Checked.sub_eq hr, Checked.sub_eq hc]
  have hcursor : Grid.setCursor (Grid.clearAllTabStops { t.grid with
      originMode := false, scrollTop := 0, scrollBottom := t.grid.rowCount - 1,
      cursor := ⟨0, 0⟩, wrapPending := false }) 0 0 = some (resetGrid t.grid) := by
    simp [Grid.clearAllTabStops, Grid.setCursor, Grid.absoluteRow, Grid.clampCursor,
      Checked.sub_eq hr, Checked.sub_eq hc, resetGrid]
  have hsub : Checked.sub (t.grid.setOriginMode false).rowCount 1 = some (t.grid.rowCount - 1) :=
    Checked.sub_eq hr
  simp only [softReset, setModes, hsub, hregion, hcursor, Option.bind_eq_bind, Option.bind_some]
  exact .pure (selectionClear_screen _)

theorem fullReset_wasReset {c r : ℕ} (h : t.grid.Sized c r) :
    Returns t.fullReset (WasReset c r t) := by
  apply (softReset_grid h).bind
  rintro t' ⟨hgrid, hmodes, hattrs⟩
  have hrows : t'.grid.erasedRows 2 = some (List.replicate r (blankLine c)) := by
    have hshape : Shape t'.grid.rows r t'.grid.cols := by
      rw [hgrid]
      exact h.cols_eq.symm ▸ h.shape
    have hcount : t'.grid.rowCount = r := by
      rw [hgrid]
      exact h.rowCount_eq
    have hcols : t'.grid.cols = c := by
      rw [hgrid]
      exact h.cols_eq
    simp only [Grid.erasedRows, hcount, Grid.blankRows_eq hshape (Nat.zero_le r) le_rfl, hcols]
    simp [← hshape.1]
  simp only [onGrid, Grid.eraseInDisplay, hrows, Option.bind_eq_bind, Option.bind_some]
  refine .pure ⟨rfl, ?_, ?_, ?_, ?_, hmodes, hattrs, rfl⟩
  · exact congrArg Grid.cursor hgrid
  · refine ⟨congrArg Grid.scrollTop hgrid, (congrArg Grid.scrollBottom hgrid).trans ?_⟩
    exact congrArg (· - 1) h.rowCount_eq
  · refine (congrArg Grid.tabStops hgrid).trans ?_
    simp [resetGrid, List.map_const', h.tabStops]
  · exact congrArg Grid.originMode hgrid

/-- A full reset is asked for from the ground state. -/
def fullResetBytes : List UInt8 := [0x1B, 0x63]

theorem WasReset.settle {c r : ℕ} (h : WasReset c r t t') (synced : Bool) :
    WasReset c r t (t'.settle synced) := by
  obtain ⟨hrows, hcursor, hmargins, htabs, horigin, hmodes, hattrs, hhistory⟩ := h
  unfold Terminal.settle
  split
  · exact ⟨hrows, hcursor, hmargins, htabs, horigin, hmodes, hattrs, hhistory⟩
  · unfold markDirtyFromGrid
    dsimp only
    split <;> exact ⟨hrows, hcursor, hmargins, htabs, horigin, hmodes, hattrs, hhistory⟩

/-- What `ESC c` comes to in the ground state. -/
theorem feed_fullReset (h : t.Valid) (hp : t.parser.Settled) (hground : t.parser.state = .ground)
    (tables : UnicodeTables) : Returns (t.feed tables fullResetBytes)
      fun t' => WasReset t.grid.cols t.grid.rowCount t t' := by
  obtain ⟨c, r, c₀, r₀, hs⟩ := h.sizes
  have hg := hs.grid
  have hprint : Returns ((t.receive fullResetBytes).applyAll tables
      (if t.parser.utf8 = [] then [] else [.print replacement]))
      fun t' => t'.grid.Sized c r ∧ t'.modes = t.modes := by
    split
    · exact .pure ⟨hg, rfl⟩
    · obtain ⟨t', ht', hq⟩ := apply_quiet (t := t.receive fullResetBytes) hg tables
        (a := .print replacement) rfl rfl
      refine ⟨t', ?_, hq.sized, ?_⟩
      · rw [applyAll, List.foldlM_cons, ht']
        rfl
      · obtain ⟨grid, scrolled, scrollback, viewport, -, rfl⟩ :=
          scrolling_eq (f := (·.print tables replacement t.attrs)) ht'
        rfl
  have hreset : Returns ((t.receive fullResetBytes).applyAll tables
      (t.parser.feed fullResetBytes).2) fun t' => WasReset c r t t' := by
    rw [fullResetBytes, hp.feed_fullReset hground, applyAll, List.foldlM_append]
    apply Returns.bind hprint
    rintro t' ⟨hsized, hmodes⟩
    obtain ⟨t'', ht'', hw⟩ := fullReset_wasReset hsized
    have happly : t'.apply tables (.esc .fullReset) = some t'' := ht''
    refine ⟨t'', by simp [happly], { hw with modes := ?_ }⟩
    rw [hw.modes, hmodes]
  rw [hg.cols_eq, hg.rowCount_eq]
  apply Returns.bind hreset
  exact fun t' hw => .pure (hw.settle _)

/-! ### New terminals of any size -/

def isResize : TerminalOp → Bool
  | .resize .. => true
  | _ => false

/-- A new terminal that was given a size. -/
def Created (tables : UnicodeTables) (t : Terminal) : Prop :=
  ∃ config metrics s ops, Terminal.new config metrics = .ok s ∧
    (∀ op ∈ ops, isResize op = true) ∧ performAll tables s ops = some t

theorem resize_tabStops {g g' : Grid} {cols rows : ℕ}
    (h : g.resize cols rows = some (.ok g')) : g'.tabStops = Grid.defaultTabStops g'.cols := by
  unfold Grid.resize at h
  split at h
  · simp only [Option.bind_eq_bind, Option.bind_eq_some_iff] at h
    obtain ⟨_, -, _, -, _, -, _, -, hg⟩ := h
    cases hg
    rfl
  · cases h

theorem performAll_tabStops {ops : List TerminalOp} (hops : ∀ op ∈ ops, isResize op = true)
    (h : t.grid.tabStops = Grid.defaultTabStops t.grid.cols)
    (hrun : performAll tables t ops = some t') :
    t'.grid.tabStops = Grid.defaultTabStops t'.grid.cols := by
  induction ops generalizing t with
  | nil =>
    cases hrun
    exact h
  | cons op ops ih =>
    rw [performAll, List.foldlM_cons] at hrun
    obtain ⟨t₁, hop, hrest⟩ := Option.bind_eq_some_iff.mp hrun
    refine ih (fun op' hmem => hops op' (List.mem_cons_of_mem op hmem)) ?_ hrest
    obtain ⟨out, hout, rfl⟩ := Option.map_eq_some_iff.mp hop
    have hresize := hops op List.mem_cons_self
    cases op with
    | resize width height answer =>
      obtain ⟨out', hout', rfl⟩ := Option.map_eq_some_iff.mp hout
      rcases (resize_resizesGrid hout').grid with hsame | ⟨cols, rows, hsized⟩
      · exact hsame ▸ h
      · exact resize_tabStops hsized
    | _ => cases hresize

/-- A new terminal has a tab stop in every eighth column. -/
theorem Created.tabStops (h : Created tables t) :
    t.grid.tabStops = Grid.defaultTabStops t.grid.cols := by
  obtain ⟨config, metrics, s, ops, hnew, hops, hrun⟩ := h
  apply performAll_tabStops hops _ hrun
  have hgrid := (new_fresh hnew).grid
  unfold Grid.new at hgrid
  split at hgrid
  · rw [← Except.ok.inj hgrid]
  · cases hgrid

/-- What a full reset is to restore. -/
structure Agrees (t t' : Terminal) : Prop where
  rows : t'.grid.rows = t.grid.rows
  cursor : t'.grid.cursor = t.grid.cursor
  margins : t'.grid.scrollTop = t.grid.scrollTop ∧ t'.grid.scrollBottom = t.grid.scrollBottom
  tabStops : t'.grid.tabStops = t.grid.tabStops
  modes : t'.modes = t.modes ∧ t'.grid.originMode = t.grid.originMode
  attrs : t'.attrs = t.attrs
  history : t'.scrollback.lines = t.scrollback.lines

/-- Whatever is fed after a full reset, the terminal comes to what the new one comes to. -/
def ResetsTo (tables : UnicodeTables) (t t₀ : Terminal) : Prop :=
  ∀ bytes, Returns (t.feed tables fullResetBytes) fun t' =>
    Returns (t'.feed tables bytes) fun t'' => Returns (t₀.feed tables bytes) (Agrees t'')

theorem feed_nil (t : Terminal) (tables : UnicodeTables) :
    t.feed tables [] = some ((t.receive []).settle t.modes.synchronizedOutput) := rfl

theorem settle_tabStops (synced : Bool) : (t.settle synced).grid.tabStops = t.grid.tabStops := by
  unfold settle
  split
  · rfl
  · unfold markDirtyFromGrid
    dsimp only
    split <;> rfl

/-- A full reset never makes a terminal a new one of its size: the first column has no tab stop. -/
theorem not_resetsTo (h : Reachable tables t) (hground : t.parser.state = .ground)
    (hnew : Created tables t₀) (hsize : t₀.sizeInCells = t.sizeInCells) :
    ¬ t.ResetsTo tables t₀ := by
  intro hresets
  obtain ⟨t₁, hfirst, t₂, hsecond, t₃, hthird, hagrees⟩ := hresets []
  obtain ⟨t', hfeed, hreset⟩ := feed_fullReset h.kept.toValid h.settled hground tables
  obtain rfl := Option.some_inj.mp (hfirst.symm.trans hfeed)
  rw [feed_nil] at hsecond hthird
  cases hsecond
  cases hthird
  have htabs := hagrees.tabStops
  rw [settle_tabStops, settle_tabStops] at htabs
  have hsame : t₀.grid.tabStops = t₁.grid.tabStops := htabs
  have hcols : t₀.grid.cols = t.grid.cols := congrArg Winsize.cols hsize
  rw [hnew.tabStops, hreset.tabStops, hcols] at hsame
  obtain ⟨c, r, c₀, r₀, hs⟩ := h.kept.sizes
  have hpos : 0 < t.grid.cols := hs.grid.cols_pos.trans_eq hs.grid.cols_eq.symm
  have hstop := congrArg (·[0]?) hsame
  simp [Grid.defaultTabStops, hpos] at hstop

/-- Ten columns and two rows. -/
def tenColumns : List TerminalOp := [.resize 160 64 (.ok ())]

theorem tenColumns_created : ∃ t, Created asciiTables t ∧ Reachable asciiTables t ∧
    t.parser.state = .ground :=
  ⟨_, ⟨.default, fontCells, _, tenColumns, rfl, by simp [tenColumns, isResize], rfl⟩,
    ⟨.default, fontCells, _, tenColumns, rfl, rfl⟩, rfl⟩

theorem tenColumns_not_resetsTo : ∃ t, Created asciiTables t ∧ ¬ t.ResetsTo asciiTables t := by
  obtain ⟨t, hnew, hreach, hground⟩ := tenColumns_created
  exact ⟨t, hnew, not_resetsTo hreach hground hnew rfl⟩

/-- A tab stops in the ninth column of a new terminal, and in the last one after a reset. -/
theorem tabAfterReset_not_agrees : ∃ t t₁ t₂, Reachable asciiTables t ∧
    t.parser.state = .ground ∧ Created asciiTables t ∧
    (t.feed asciiTables fullResetBytes).bind (·.feed asciiTables [0x09]) = some t₁ ∧
    t.feed asciiTables [0x09] = some t₂ ∧
    t₁.grid.cursor = ⟨0, 9⟩ ∧ t₂.grid.cursor = ⟨0, 8⟩ := by
  refine ⟨_, _, _, ⟨.default, fontCells, _, tenColumns, rfl, rfl⟩, rfl,
    ⟨.default, fontCells, _, tenColumns, rfl, by simp [tenColumns, isResize], rfl⟩,
    rfl, rfl, by decide, by decide⟩

end Terminal

end Ferrokey.Terminal
