import Ferrokey.Terminal.AltScreen
import Ferrokey.Terminal.Regions
import Ferrokey.Terminal.Resizing
import Ferrokey.Terminal.Unbroken

/-! # The cursor in origin mode

In origin mode the cursor is to stay in the scroll region. Setting the position, the
margins or the mode puts it there, and feeding lines keeps it there. A relative move, an
absolute row and a saved cursor are held at the edges of the screen instead, so they leave
the region where they aim past a margin.
-/

set_option linter.dupNamespace false

namespace Ferrokey.Terminal

namespace Grid

/-- In origin mode the cursor is in the scroll region. -/
def OriginKept (g : Grid) : Prop := g.originMode = true → g.InRegion g.cursor.row

/-- A row is past no margin, but for one at the edge of the screen. -/
def WithinMargins (g : Grid) (row : ℤ) : Prop :=
  (g.scrollTop = 0 ∨ g.scrollTop ≤ row) ∧ (g.scrollBottom + 1 = g.rowCount ∨ row ≤ g.scrollBottom)

/-- A motion aims past no margin in origin mode. -/
def RespectsOrigin (g : Grid) : Motion → Prop
  | .moveCursor drow _ => g.originMode = true → g.WithinMargins (g.cursor.row + drow)
  | .setRow row => g.originMode = true → g.WithinMargins row
  | _ => True

variable {g g' : Grid} {c r : ℕ}

/-- A row that is held at the edges of the screen is in the region exactly if it was past no
margin. -/
theorem Sized.inRegion_clamp_iff (h : g.Sized c r) (row : ℤ) :
    g.InRegion (min (max row 0) (r - 1 : ℕ)).toNat ↔ g.WithinMargins row := by
  have hregion := h.region
  have hcount := h.rowCount_eq
  unfold InRegion WithinMargins
  omega

theorem Sized.inRegion_min_iff (h : g.Sized c r) (row : ℕ) :
    g.InRegion (min row (r - 1)) ↔ g.WithinMargins row := by
  have hclamp : min row (r - 1) = (min (max (row : ℤ) 0) (r - 1 : ℕ)).toNat := by omega
  rw [hclamp]
  exact h.inRegion_clamp_iff row

theorem OriginKept.of_eq (h : g.OriginKept) (hrow : g'.cursor.row = g.cursor.row)
    (htop : g'.scrollTop = g.scrollTop) (hbottom : g'.scrollBottom = g.scrollBottom)
    (hmode : g'.originMode = g.originMode) : g'.OriginKept := by
  unfold OriginKept InRegion at h ⊢
  rwa [hrow, htop, hbottom, hmode]

/-- A position that is set is in the region. -/
theorem setCursor_originKept (hmargins : g.scrollTop ≤ g.scrollBottom)
    (hbottom : g.scrollBottom < g.rowCount) {row col : ℕ} (hg : g.setCursor row col = some g') :
    g'.OriginKept := by
  have hpos : 1 ≤ g.rowCount := by omega
  simp only [setCursor, absoluteRow, clampCursor, Checked.sub_eq hpos, Option.bind_eq_bind,
    Option.bind_some, Option.bind_eq_some_iff, Option.some.injEq] at hg
  obtain ⟨row', hrow', _, ⟨_, -, rfl⟩, rfl⟩ := hg
  intro hmode
  rw [if_pos hmode] at hrow'
  cases hrow'
  unfold InRegion
  dsimp only
  omega

theorem Sized.setCursor_originKept (h : g.Sized c r) {row col : ℕ}
    (hg : g.setCursor row col = some g') : g'.OriginKept :=
  Grid.setCursor_originKept h.region.1 (h.region.2.trans_eq h.rowCount_eq.symm) hg

theorem Sized.setScrollRegion_originKept (h : g.Sized c r) {top bottom : ℕ}
    (hg : g.setScrollRegion top bottom = some g') : g'.OriginKept := by
  have hpos := h.rows_pos
  obtain ⟨_, hmaxRow, rfl⟩ := h.maxRow
  simp only [Grid.setScrollRegion, hmaxRow, Option.bind_eq_bind, Option.bind_some] at hg
  split at hg
  next hle =>
    have hlt : min bottom (r - 1) < g.rowCount := by
      rw [h.rowCount_eq]
      omega
    exact Grid.setCursor_originKept hle hlt hg
  next => exact h.setCursor_originKept hg

/-- A motion keeps the cursor in the region exactly if it aims past no margin. -/
theorem Sized.move_originKept_iff (h : g.Sized c r) (hk : g.OriginKept) {m : Motion}
    (hm : g.move m = some g') : g'.OriginKept ↔ g.RespectsOrigin m := by
  obtain ⟨_, hmaxRow, rfl⟩ := h.maxRow
  obtain ⟨_, hmaxCol, rfl⟩ := h.maxCol
  cases m with
  | moveCursor drow dcol =>
    simp only [Grid.move, Grid.moveCursor, hmaxRow, hmaxCol, Option.bind_eq_bind,
      Option.bind_some, Option.some.injEq] at hm
    subst hm
    exact imp_congr_right fun _ => h.inRegion_clamp_iff (g.cursor.row + drow)
  | setRow row =>
    simp only [Grid.move, Grid.setRow, hmaxRow, Option.bind_eq_bind, Option.bind_some,
      Option.some.injEq] at hm
    subst hm
    exact imp_congr_right fun _ => h.inRegion_min_iff row
  | setCursor row col => exact iff_of_true (h.setCursor_originKept hm) trivial
  | setScrollRegion top bottom => exact iff_of_true (h.setScrollRegion_originKept hm) trivial
  | resetScrollRegion =>
    obtain ⟨last, -, hm⟩ := Option.bind_eq_some_iff.mp hm
    exact iff_of_true (h.setScrollRegion_originKept hm) trivial
  | setOriginMode on =>
    cases hm
    refine iff_of_true ?_ trivial
    rintro rfl
    exact ⟨le_rfl, h.region.1⟩
  | tab =>
    simp only [Grid.move, Grid.tab, Option.bind_eq_bind, Option.bind_eq_some_iff,
      Option.some.injEq] at hm
    obtain ⟨_, -, _, -, rfl⟩ := hm
    exact iff_of_true (hk.of_eq rfl rfl rfl rfl) trivial
  | backspaceToTab =>
    simp only [Grid.move, Grid.backspaceToTab] at hm
    split at hm
    · obtain ⟨_, -, hg⟩ := Option.bind_eq_some_iff.mp hm
      cases hg
      exact iff_of_true (hk.of_eq rfl rfl rfl rfl) trivial
    · cases hm
      exact iff_of_true (hk.of_eq rfl rfl rfl rfl) trivial
  | setCol col =>
    simp only [Grid.move, Grid.setCol, Option.bind_eq_bind, Option.bind_eq_some_iff,
      Option.some.injEq] at hm
    obtain ⟨_, -, rfl⟩ := hm
    exact iff_of_true (hk.of_eq rfl rfl rfl rfl) trivial
  | backspace | carriageReturn | putTabStop | clearAllTabStops =>
    cases hm
    exact iff_of_true (hk.of_eq rfl rfl rfl rfl) trivial

theorem OriginKept.scrollDownRegion (hk : g.OriginKept) {n : ℕ}
    (hout : g.scrollDownRegion n = some g') : g'.OriginKept := by
  simp only [Grid.scrollDownRegion, Option.bind_eq_bind, Option.bind_eq_some_iff,
    Option.some.injEq] at hout
  obtain ⟨_, -, rows, -, rfl⟩ := hout
  exact hk.of_eq rfl rfl rfl rfl

theorem OriginKept.scrollUpRegion (hk : g.OriginKept) {n : ℕ} {out : Grid × List Line}
    (hout : g.scrollUpRegion n = some out) : out.1.OriginKept := by
  simp only [Grid.scrollUpRegion, Option.bind_eq_bind, Option.bind_eq_some_iff,
    Option.some.injEq] at hout
  obtain ⟨_, -, _, -, rfl⟩ := hout
  exact hk.of_eq rfl rfl rfl rfl

theorem OriginKept.reverseIndex (hk : g.OriginKept) (hout : g.reverseIndex = some g') :
    g'.OriginKept := by
  unfold Grid.reverseIndex at hout
  dsimp only at hout
  split at hout
  next hbelow =>
    cases hout
    intro hmode
    obtain ⟨-, hbottom⟩ := hk hmode
    unfold InRegion
    dsimp only
    omega
  next =>
    have hk' : OriginKept { g with wrapPending := false } := hk.of_eq rfl rfl rfl rfl
    exact hk'.scrollDownRegion hout

/-- No edit of the screen moves the cursor out of the region. -/
theorem Sized.edit_originKept (h : g.Sized c r) (hk : g.OriginKept) {e : Edit}
    (he : g.edit e = some g') : g'.OriginKept := by
  have hput (row : ℕ) (l : Line) : (g.putRow row l).OriginKept := hk.of_eq rfl rfl rfl rfl
  have hslid (lo hi : ℕ) (f : List Line → List Line) : (g.slid lo hi f).OriginKept :=
    hk.of_eq rfl rfl rfl rfl
  cases e with
  | insertChars n =>
    cases (h.insertChars_eq n).symm.trans he
    exact hput _ _
  | deleteChars n =>
    cases (h.deleteChars_eq n).symm.trans he
    exact hput _ _
  | eraseChars n =>
    cases (h.eraseChars_eq n).symm.trans he
    exact hput _ _
  | eraseInLine mode =>
    cases (h.eraseInLine_eq mode).symm.trans he
    exact hput _ _
  | eraseInDisplay mode =>
    obtain ⟨rows, -, hg⟩ := Option.bind_eq_some_iff.mp he
    cases hg
    exact hk.of_eq rfl rfl rfl rfl
  | insertLines n =>
    obtain ⟨f, -, hinsert⟩ := h.insertLines_eq n
    cases hinsert.symm.trans he
    exact hslid _ _ f
  | deleteLines n =>
    obtain ⟨f, out, -, hdelete⟩ := h.deleteLines_eq n
    simp only [Grid.edit, hdelete, Option.map_some, Option.some.injEq] at he
    subst he
    exact hslid _ _ f
  | scrollDown n => exact hk.scrollDownRegion he
  | reverseIndex => exact hk.reverseIndex he
  | fillScreen ch =>
    obtain ⟨g₁, hset, hg⟩ := Option.bind_eq_some_iff.mp he
    cases hg
    have hhome : g₁.OriginKept := by
      refine Grid.setCursor_originKept ?_ ?_ hset
      · exact h.region.1
      · exact h.region.2.trans_eq h.rowCount_eq.symm
    exact hhome.of_eq rfl rfl rfl rfl

theorem OriginKept.fed (hk : g.OriginKept) : g.fed.OriginKept := by
  unfold Grid.fed
  split
  next => exact hk.of_eq rfl rfl rfl rfl
  next habove =>
    intro hmode
    obtain ⟨htop, -⟩ := hk hmode
    have hlt : g.cursor.row < g.scrollBottom := by simpa [atBottom] using habove
    exact ⟨htop.trans (Nat.le_succ _), hlt⟩

theorem OriginKept.wrapped (hk : g.OriginKept) (width : ℕ) : (g.wrapped width).OriginKept := by
  unfold Grid.wrapped
  split
  · exact hk.fed.of_eq rfl rfl rfl rfl
  · exact hk

/-- A glyph that does not fit goes on in the next row as a line feed does. -/
theorem Sized.print_originKept (h : g.Sized c r) (hk : g.OriginKept) {tables : UnicodeTables}
    {ch : Char} {attrs : CellAttrs} {scrolled : Option Line}
    (hout : g.print tables ch attrs = some (g', scrolled)) : g'.OriginKept := by
  by_cases hzero : (tables.width ch).getD 0 = 0
  · rw [h.print_attach hzero] at hout
    cases hout
    unfold attached
    split
    · exact hk.of_eq rfl rfl rfl rfl
    · exact hk
  · obtain ⟨col, wrapPending, hprint⟩ := h.print_eq rfl hzero attrs
    cases hprint.symm.trans hout
    exact (hk.wrapped _).of_eq rfl rfl rfl rfl

theorem OriginKept.pushLineFromScrollback (hk : g.OriginKept) {l : Line}
    (hout : g.pushLineFromScrollback l = some g') : g'.OriginKept := by
  simp only [Grid.pushLineFromScrollback, Option.bind_eq_bind, Option.bind_eq_some_iff,
    Option.some.injEq] at hout
  obtain ⟨g₁, hscroll, rows, -, rfl⟩ := hout
  exact (hk.scrollDownRegion hscroll).of_eq rfl rfl rfl rfl

/-- The margins follow the edges of the screen as the cursor does. -/
theorem OriginKept.resize (hk : g.OriginKept) {cols rows : ℕ}
    (hout : g.resize cols rows = some (.ok g')) : g'.OriginKept := by
  by_cases hb : sizeInBounds cols rows = true
  · rw [g.resize_eq hb] at hout
    cases hout
    intro hmode
    obtain ⟨htop, hbottom⟩ := hk hmode
    simp only [InRegion, resized]
    split <;> omega
  · rw [Grid.resize, if_neg hb] at hout
    cases hout

theorem new_originKept {cols rows : ℕ} (h : Grid.new cols rows = .ok g) : g.OriginKept := by
  unfold Grid.new at h
  split at h
  · cases h
    intro hmode
    cases hmode
  · cases h

/-- The saved position is restored in the region exactly if it is past no margin. -/
theorem Sized.restoreCursor_originKept_iff (h : g.Sized c r)
    (hout : g.restoreCursor = some g') : g'.OriginKept ↔
      (g.originMode = true → g.WithinMargins g.savedCursor.row) := by
  obtain ⟨_, hmaxRow, rfl⟩ := h.maxRow
  obtain ⟨_, hmaxCol, rfl⟩ := h.maxCol
  simp only [Grid.restoreCursor, Grid.clampCursor, hmaxRow, hmaxCol, Option.bind_eq_bind,
    Option.bind_some, Option.some.injEq] at hout
  subst hout
  exact imp_congr_right fun _ => h.inRegion_min_iff g.savedCursor.row

end Grid

namespace Terminal

/-- In origin mode the cursor is in the scroll region, on both screens. -/
structure OriginKept (t : Terminal) : Prop where
  grid : t.grid.OriginKept
  saved : ∀ g ∈ t.saved, g.OriginKept

/-- An operation aims past no margin in origin mode. -/
def RespectsOrigin (t : Terminal) : Operation → Prop
  | .motion m => t.grid.RespectsOrigin m
  | .restoreCursor => t.grid.originMode = true → t.grid.WithinMargins t.grid.savedCursor.row
  | .exitAlt true => ∀ g ∈ t.saved, g.originMode = true → g.WithinMargins g.savedCursor.row
  | _ => True

variable {t t' : Terminal} {tables : UnicodeTables} {c r : ℕ}

theorem OriginKept.grid_iff (h : t.OriginKept) (hsaved : t'.saved = t.saved) :
    t'.OriginKept ↔ t'.grid.OriginKept :=
  ⟨OriginKept.grid, fun hgrid => ⟨hgrid, hsaved ▸ h.saved⟩⟩

theorem OriginKept.onGrid_iff (h : t.OriginKept) {f : Grid → Option Grid} {P : Prop}
    (hf : ∀ g, f t.grid = some g → (g.OriginKept ↔ P)) (hout : t.onGrid f = some t') :
    t'.OriginKept ↔ P := by
  obtain ⟨g, hg, ht'⟩ := Option.bind_eq_some_iff.mp hout
  cases ht'
  have hgrid : OriginKept { t with grid := g } ↔ g.OriginKept := h.grid_iff rfl
  exact hgrid.trans (hf g hg)

/-- A screen after which lines are stored. -/
theorem OriginKept.stored (h : t.OriginKept) {g : Grid} (hg : g.OriginKept) (lines : List Line) :
    (pushAll { t with grid := g } lines).OriginKept := by
  obtain ⟨s, v, hpush⟩ := pushAll_eq { t with grid := g } lines
  rw [hpush]
  exact ⟨hg, h.saved⟩

theorem OriginKept.scrolling (h : t.OriginKept) {f : Grid → Option (Grid × Option Line)}
    (hf : ∀ g scrolled, f t.grid = some (g, scrolled) → g.OriginKept)
    (hout : t.scrolling f = some t') : t'.OriginKept := by
  obtain ⟨⟨g, scrolled⟩, hg, ht'⟩ := Option.bind_eq_some_iff.mp hout
  cases ht'
  exact h.stored (hf g scrolled hg) _

theorem OriginKept.saveCursor (h : t.OriginKept) : t.saveCursor.OriginKept :=
  ⟨h.grid.of_eq rfl rfl rfl rfl, h.saved⟩

theorem restoreCursor_originKept_iff (hs : t.grid.Sized c r) (hsaved : ∀ g ∈ t.saved, g.OriginKept)
    (hout : t.restoreCursor = some t') : t'.OriginKept ↔
      (t.grid.originMode = true → t.grid.WithinMargins t.grid.savedCursor.row) := by
  simp only [Terminal.restoreCursor, onGrid, Option.bind_eq_bind, Option.bind_eq_some_iff,
    Option.some.injEq] at hout
  obtain ⟨_, ⟨g, hg, rfl⟩, rfl⟩ := hout
  refine Iff.trans ?_ (hs.restoreCursor_originKept_iff hg)
  exact ⟨OriginKept.grid, fun hgrid => ⟨hgrid, hsaved⟩⟩

theorem OriginKept.enterAltScreen (h : t.OriginKept) {save : Bool}
    (hout : t.enterAltScreen save = some t') : t'.OriginKept := by
  have hnext : (if save then t.saveCursor else t).OriginKept := by
    split
    · exact h.saveCursor
    · exact h
  unfold Terminal.enterAltScreen at hout
  split at hout
  · cases hout
    exact h
  · dsimp only at hout
    split at hout
    next g hnew =>
      cases hout
      refine ⟨Grid.new_originKept hnew, ?_⟩
      rintro _ ⟨⟩
      exact hnext.grid
    next => cases hout

/-- Leaving the other screen puts its cursor where it was, or where it was saved. -/
theorem OriginKept.exitAltScreen_iff (h : t.OriginKept) (hv : t.Valid) {restore : Bool}
    (hout : t.exitAltScreen restore = some t') :
    t'.OriginKept ↔ t.RespectsOrigin (.exitAlt restore) := by
  obtain ⟨c, r, c₀, r₀, hs⟩ := hv.sizes
  cases hsaved : t.saved with
  | none =>
    have halt : t.altGrid = false := by simp [hs.altGrid, hsaved]
    simp only [Terminal.exitAltScreen, halt, Bool.false_eq_true, if_false,
      Option.some.injEq] at hout
    subst hout
    refine iff_of_true h ?_
    cases restore with
    | true => simp [RespectsOrigin, hsaved]
    | false => trivial
  | some g =>
    have halt : t.altGrid = true := by simp [hs.altGrid, hsaved]
    have hgrid : t.leaveAltScreen.grid = g := by simp [leaveAltScreen, hsaved]
    have hnone : ∀ g' ∈ t.leaveAltScreen.saved, g'.OriginKept := by simp [leaveAltScreen]
    simp only [Terminal.exitAltScreen, halt, if_true] at hout
    cases restore with
    | true =>
      have hsized : t.leaveAltScreen.grid.Sized c₀ r₀ := hgrid ▸ hs.saved g hsaved
      rw [if_pos rfl] at hout
      rw [restoreCursor_originKept_iff hsized hnone hout, hgrid]
      simp [RespectsOrigin, hsaved]
    | false =>
      cases hout
      exact iff_of_true ⟨hgrid ▸ h.saved g hsaved, hnone⟩ trivial

theorem OriginKept.restoreFromScrollback (h : t.OriginKept)
    (hout : t.restoreFromScrollback = some t') : t'.OriginKept := by
  unfold Terminal.restoreFromScrollback at hout
  split at hout
  next s l hpop =>
    have hkept : OriginKept { t with scrollback := s } := ⟨h.grid, h.saved⟩
    have hpush := hkept.onGrid_iff (P := True)
      (fun g hg => iff_of_true (h.grid.pushLineFromScrollback hg) trivial) hout
    exact hpush.mpr trivial
  next =>
    cases hout
    exact h

/-- An operation keeps the cursor in the region exactly if it aims past no margin. -/
theorem operate_originKept_iff (h : t.OriginKept) (hv : t.Valid) {op : Operation}
    (hop : t.operate tables op = some t') : t'.OriginKept ↔ t.RespectsOrigin op := by
  obtain ⟨c, r, c₀, r₀, hs⟩ := hv.sizes
  cases op with
  | motion m =>
    exact h.onGrid_iff (f := (·.move m)) (fun g hg => hs.grid.move_originKept_iff h.grid hg) hop
  | edit e =>
    have hedit := h.onGrid_iff (f := (·.edit e)) (P := True)
      (fun g hg => iff_of_true (hs.grid.edit_originKept h.grid hg) trivial) hop
    exact hedit
  | set s =>
    cases hop
    have hscreens := set_same (t := t) s
    exact iff_of_true ⟨hscreens.grid ▸ h.grid, hscreens.saved ▸ h.saved⟩ trivial
  | print ch =>
    exact iff_of_true (h.scrolling (f := (·.print tables ch t.attrs))
      (fun g scrolled hg => hs.grid.print_originKept h.grid hg) hop) trivial
  | printLast =>
    refine iff_of_true ?_ trivial
    simp only [operate] at hop
    cases hlast : t.lastChar with
    | none =>
      rw [hlast] at hop
      cases hop
      exact h
    | some ch =>
      rw [hlast] at hop
      exact h.scrolling (f := (·.print tables ch t.attrs))
        (fun g scrolled hg => hs.grid.print_originKept h.grid hg) hop
  | lineFeed =>
    refine iff_of_true (h.scrolling (f := (·.lineFeed)) (fun g scrolled hg => ?_) hop) trivial
    rw [hs.grid.lineFeed_eq] at hg
    cases hg
    exact h.grid.fed
  | index =>
    refine iff_of_true (h.scrolling (f := (·.index)) (fun g scrolled hg => ?_) hop) trivial
    rw [hs.grid.index_eq] at hg
    cases hg
    exact h.grid.fed
  | nextLine =>
    refine iff_of_true (h.scrolling (f := (·.nextLine)) (fun g scrolled hg => ?_) hop) trivial
    have hstart : t.grid.carriageReturn.OriginKept := h.grid.of_eq rfl rfl rfl rfl
    rw [Grid.nextLine, hs.grid.carriageReturn.lineFeed_eq] at hg
    cases hg
    exact hstart.fed
  | scrollUp n =>
    simp only [operate, scrollUpLines, Option.bind_eq_bind, Option.bind_eq_some_iff,
      Option.some.injEq] at hop
    obtain ⟨full, -, ⟨g, lines⟩, hscroll, rfl⟩ := hop
    exact iff_of_true (h.stored (h.grid.scrollUpRegion hscroll) _) trivial
  | pullBack => exact iff_of_true (h.restoreFromScrollback hop) trivial
  | clearHistory =>
    cases hop
    exact iff_of_true ⟨h.grid, h.saved⟩ trivial
  | enterAlt save => exact iff_of_true (h.enterAltScreen hop) trivial
  | exitAlt restore => exact h.exitAltScreen_iff hv hop
  | saveCursor =>
    cases hop
    exact iff_of_true h.saveCursor trivial
  | restoreCursor => exact restoreCursor_originKept_iff hs.grid h.saved hop

/-! ### Runs -/

/-- Nothing that is fed aims past a margin in origin mode. -/
def CallRespectsOrigin (tables : UnicodeTables) (t : Terminal) : TerminalOp → Prop
  | .feed bytes => Along (fun t op => t.operate tables op) RespectsOrigin (t.receive bytes)
      (t.feedOps bytes)
  | _ => True

theorem OriginKept.settle (h : t.OriginKept) (synced : Bool) : (t.settle synced).OriginKept := by
  unfold Terminal.settle
  split
  · exact ⟨h.grid, h.saved⟩
  · have hgrid : t.grid.consumeDirty.1.OriginKept := h.grid.of_eq rfl rfl rfl rfl
    unfold markDirtyFromGrid
    dsimp only
    split <;> exact ⟨hgrid, h.saved⟩

theorem OriginKept.resize (h : t.OriginKept) {width height : ℕ} {answer : Except String Unit}
    {out : Terminal × Except TerminalError Unit} (hout : t.resize width height answer = some out) :
    out.1.OriginKept := by
  have hgrid := resize_resizesGrid hout
  constructor
  · rcases hgrid.grid with hsame | ⟨cols, rows, hsized⟩
    · exact hsame ▸ h.grid
    · exact h.grid.resize hsized
  · exact hgrid.saved ▸ h.saved

theorem perform_originKept (h : t.OriginKept) (hk : t.Kept) {op : TerminalOp}
    (hop : feedsOrResizes op = true) (hrespects : t.CallRespectsOrigin tables op) :
    Returns (t.perform tables op) fun out => out.1.OriginKept := by
  cases op with
  | feed bytes =>
    have hfeed := feed_along OriginKept hk ⟨h.grid, h.saved⟩
      (fun t t' op hk h hs hop => (operate_originKept_iff h hk.toValid hop).mpr hs) hrespects
    apply hfeed.map
    rintro _ ⟨t'', -, hkept, rfl⟩
    exact hkept.settle _
  | resize width height answer =>
    obtain ⟨out, hout, -⟩ := perform_kept hk tables (.resize width height answer)
    obtain ⟨out', hout', rfl⟩ := Option.map_eq_some_iff.mp hout
    exact ⟨_, hout, h.resize hout'⟩
  | _ => cases hop

theorem new_originKept {config : TerminalConfig} {metrics : CellMetrics}
    (h : Terminal.new config metrics = .ok t) : t.OriginKept := by
  have hfresh := new_fresh h
  exact ⟨Grid.new_originKept hfresh.grid, by simp [hfresh.saved]⟩

/-- In every run of bytes and resizes that aims past no margin in origin mode, the cursor stays in
the scroll region then. -/
theorem performAll_originKept {config : TerminalConfig} {metrics : CellMetrics} {t₀ : Terminal}
    (h : Terminal.new config metrics = .ok t₀) {ops : List TerminalOp}
    (hops : ∀ op ∈ ops, feedsOrResizes op = true)
    (hrespects : Along (fun t op => (t.perform tables op).map Prod.fst) (CallRespectsOrigin tables)
      t₀ ops) : Returns (t₀.performAll tables ops) OriginKept :=
  performAll_along OriginKept (new_kept h) (new_originKept h)
    (fun _ _ hk h hop hrespects => perform_originKept h hk hop hrespects) hops hrespects

/-- `CSI 2 ; 3 r` and `CSI ? 6 h`: margins below the first row, and origin mode. -/
def marginsAndOrigin : List UInt8 :=
  [0x1B, 0x5B, 0x32, 0x3B, 0x33, 0x72, 0x1B, 0x5B, 0x3F, 0x36, 0x68]

/-- A pane of three rows, where the cursor goes down by one row in origin mode and a line is fed. -/
def downInRegion : List TerminalOp :=
  [.resize 64 96 (.ok ()), .feed (marginsAndOrigin ++ [0x1B, 0x5B, 0x42, 0x0A])]

theorem downInRegion_originKept : ∃ t₀, Terminal.new .default fontCells = .ok t₀ ∧
    Returns (t₀.performAll asciiTables downInRegion) OriginKept := by
  have hnew : ∃ t₀, Terminal.new .default fontCells = .ok t₀ := ⟨_, rfl⟩
  obtain ⟨t₀, ht₀⟩ := hnew
  refine ⟨t₀, ht₀, performAll_originKept ht₀ (by decide) ?_⟩
  cases ht₀
  refine ⟨trivial, ?_⟩
  rintro _ ⟨⟩
  refine ⟨?_, ?_⟩
  · -- the margins, the mode and its flag, the move and the line
    refine ⟨trivial, ?_⟩
    rintro _ ⟨⟩
    refine ⟨trivial, ?_⟩
    rintro _ ⟨⟩
    refine ⟨trivial, ?_⟩
    rintro _ ⟨⟩
    refine ⟨fun _ => ⟨.inr (by decide), .inl rfl⟩, ?_⟩
    rintro _ ⟨⟩
    exact ⟨trivial, fun _ _ => trivial⟩
  · rintro _ ⟨⟩
    trivial

/-- The cursor is saved in the first row, and restored in origin mode. -/
def savedAboveRegion : List TerminalOp :=
  [.feed ([0x1B, 0x37] ++ marginsAndOrigin ++ [0x1B, 0x38])]

theorem savedAboveRegion_not_originKept : ∃ t₀, Terminal.new .default fontCells = .ok t₀ ∧
    ¬ Returns (t₀.performAll asciiTables savedAboveRegion) fun t => t.grid.OriginKept := by
  refine ⟨_, rfl, ?_⟩
  rintro ⟨_, ⟨⟩, hkept⟩
  exact absurd (hkept rfl).1 (by decide)

end Terminal

end Ferrokey.Terminal
