import Ferrokey.Terminal.Pen

/-! # What is marked as dirty

An operation marks the whole screen, the row of the cursor or nothing, and a change of
what is shown may mark the whole pane. Apart from lines that are taken from the history,
everything that is not marked stays as it was. An action that empties the history also
erases the screen, so after bytes whatever changed is marked.
-/

set_option linter.dupNamespace false

namespace Ferrokey.Terminal

/-- What an operation marks, or changes without a mark. -/
inductive Mark where
  | all
  | row (row : ℕ)
  /-- Lines are taken from the history, and nothing is marked. -/
  | history
  deriving DecidableEq

namespace Grid

variable {g g' g'' : Grid} {marks marks' : List Mark} {c r : ℕ}

/-! ### What the screen marks -/

/-- The marks of a line feed. -/
def scrollMarks (g : Grid) : List Mark := if g.atBottom then [.all] else []

def editMarks (g : Grid) : Edit → List Mark
  | .insertChars _ | .deleteChars _ | .eraseChars _ | .eraseInLine _ => [.row g.cursor.row]
  | .eraseInDisplay _ | .insertLines _ | .deleteLines _ | .scrollDown _ | .fillScreen _ => [.all]
  | .reverseIndex => if g.scrollTop < g.cursor.row then [] else [.all]

/-- The marks of a wrap. -/
def wrapMarks (g : Grid) (width : ℕ) : List Mark := if g.wraps width then g.scrollMarks else []

def glyphMarks (g : Grid) (width : ℕ) : List Mark :=
  if width = 0 then if g.attachee.isSome then [.row g.cursor.row] else []
  else g.wrapMarks width ++ [.row (g.wrapped width).cursor.row]

/-- What is marked is dirty in addition, and unless everything is, the other rows stay. -/
structure Tracks (marks : List Mark) (g g' : Grid) : Prop where
  all : g'.dirtyAll = true ↔ g.dirtyAll = true ∨ .all ∈ marks
  rowCount : g'.rowCount = g.rowCount
  rows : .all ∉ marks → ∀ row, .row row ∉ marks → g'.rows[row]? = g.rows[row]?
  dirty : .all ∉ marks → ∀ row, g'.dirty[row]? = some true ↔
    g.dirty[row]? = some true ∨ .row row ∈ marks

namespace Tracks

theorem unmarked (hall : g'.dirtyAll = g.dirtyAll) (hcount : g'.rowCount = g.rowCount)
    (hrows : g'.rows = g.rows) (hdirty : g'.dirty = g.dirty) : Tracks [] g g' where
  all := by simp [hall]
  rowCount := hcount
  rows _ row _ := by rw [hrows]
  dirty _ row := by simp [hdirty]

theorem whole (hall : g'.dirtyAll = true) (hcount : g'.rowCount = g.rowCount) :
    Tracks [.all] g g' where
  all := by simp [hall]
  rowCount := hcount
  rows h := absurd List.mem_cons_self h
  dirty h := absurd List.mem_cons_self h

theorem trans (h : Tracks marks g g') (h' : Tracks marks' g' g'') :
    Tracks (marks ++ marks') g g'' where
  all := by rw [h'.all, h.all, List.mem_append, or_assoc]
  rowCount := h'.rowCount.trans h.rowCount
  rows hall row hrow := by
    rw [List.mem_append, not_or] at hall hrow
    exact (h'.rows hall.2 row hrow.2).trans (h.rows hall.1 row hrow.1)
  dirty hall row := by
    rw [List.mem_append, not_or] at hall
    rw [h'.dirty hall.2, h.dirty hall.1, List.mem_append, or_assoc]

end Tracks

/-- A row that is put is the one that is marked. -/
theorem Sized.putRow_tracks (h : g.Sized c r) {row : ℕ} (hrow : row < r) (l : Line) :
    Tracks [.row row] g (g.putRow row l) where
  all := by simp [putRow]
  rowCount := rfl
  rows _ row' hne := by
    have hne' : row ≠ row' := fun heq => hne (by simp [heq])
    exact List.getElem?_set_ne hne'
  dirty _ row' := by
    have hlen : row < g.dirty.length := hrow.trans_eq h.dirty.symm
    by_cases heq : row' = row
    · subst heq
      simp [putRow, hlen]
    · simp [putRow, List.getElem?_set_ne (Ne.symm heq), heq]

theorem fed_tracks (g : Grid) : Tracks g.scrollMarks g g.fed := by
  unfold scrollMarks fed
  split
  · exact .whole rfl rfl
  · exact .unmarked rfl rfl rfl rfl

theorem wrapped_tracks (g : Grid) (width : ℕ) :
    Tracks (g.wrapMarks width) g (g.wrapped width) := by
  unfold wrapMarks Grid.wrapped
  split
  · have hfed := g.fed_tracks
    exact ⟨hfed.all, hfed.rowCount, hfed.rows, hfed.dirty⟩
  · exact .unmarked rfl rfl rfl rfl

theorem Sized.print_tracks (h : g.Sized c r) {tables : UnicodeTables} {ch : Char}
    {attrs : CellAttrs} {out : Grid × Option Line} (hout : g.print tables ch attrs = some out) :
    Tracks (g.glyphMarks ((tables.width ch).getD 0)) g out.1 ∧
      (.all ∉ g.glyphMarks ((tables.width ch).getD 0) → out.2 = none) := by
  obtain ⟨width, hwidth⟩ : ∃ width, (tables.width ch).getD 0 = width := ⟨_, rfl⟩
  rw [hwidth, glyphMarks]
  split
  next hzero =>
    rw [h.print_attach (hwidth.trans hzero)] at hout
    cases hout
    refine ⟨?_, fun _ => rfl⟩
    unfold attached
    cases g.attachee with
    | none => exact .unmarked rfl rfl rfl rfl
    | some cell => exact h.putRow_tracks h.cursor.1 _
  next hne =>
    obtain ⟨col, wrapPending, hprint⟩ := h.print_eq hwidth hne attrs
    rw [hprint] at hout
    cases hout
    constructor
    · have hw := h.wrapped hne
      have hput := hw.putRow_tracks hw.cursor.1
        ((g.wrapped width).glyphLine (makeCell ch attrs) width)
      exact (g.wrapped_tracks width).trans
        ⟨hput.all, hput.rowCount, hput.rows, hput.dirty⟩
    · -- a line scrolls out only at the bottom, where all is marked
      intro hall
      simp only [List.mem_append, not_or, wrapMarks, scrollMarks] at hall
      cases hwraps : g.wraps width with
      | false => rfl
      | true =>
        cases hbottom : g.atBottom with
        | false => simp [fedLine, hbottom]
        | true => simp [hwraps, hbottom] at hall

theorem Sized.edit_tracks (h : g.Sized c r) {e : Edit} (hout : g.edit e = some g') :
    Tracks (g.editMarks e) g g' := by
  have hscroll {g₀ g' : Grid} {n : ℕ} (hout : g₀.scrollDownRegion n = some g') :
      g'.dirtyAll = true ∧ g'.rowCount = g₀.rowCount := by
    simp only [Grid.scrollDownRegion, Option.bind_eq_bind, Option.bind_eq_some_iff,
      Option.some.injEq] at hout
    obtain ⟨_, -, _, -, rfl⟩ := hout
    exact ⟨rfl, rfl⟩
  cases e with
  | insertChars n =>
    simp only [Grid.edit, h.insertChars_eq, Option.some.injEq] at hout
    exact hout ▸ h.putRow_tracks h.cursor.1 _
  | deleteChars n =>
    simp only [Grid.edit, h.deleteChars_eq, Option.some.injEq] at hout
    exact hout ▸ h.putRow_tracks h.cursor.1 _
  | eraseChars n =>
    simp only [Grid.edit, h.eraseChars_eq, Option.some.injEq] at hout
    exact hout ▸ h.putRow_tracks h.cursor.1 _
  | eraseInLine mode =>
    simp only [Grid.edit, h.eraseInLine_eq, Option.some.injEq] at hout
    exact hout ▸ h.putRow_tracks h.cursor.1 _
  | eraseInDisplay mode =>
    obtain ⟨rows, -, hg'⟩ := Option.bind_eq_some_iff.mp hout
    cases hg'
    exact .whole rfl rfl
  | insertLines n =>
    simp only [Grid.edit, Grid.insertLines, Option.bind_eq_bind, Option.bind_eq_some_iff,
      Option.some.injEq] at hout
    obtain ⟨_, -, _, -, rfl⟩ := hout
    exact .whole rfl rfl
  | deleteLines n =>
    simp only [Grid.edit, Grid.deleteLines, Option.map_eq_some_iff, Option.bind_eq_bind,
      Option.bind_eq_some_iff, Option.some.injEq] at hout
    obtain ⟨_, ⟨_, -, _, -, rfl⟩, rfl⟩ := hout
    exact .whole rfl rfl
  | scrollDown n =>
    obtain ⟨hall, hcount⟩ := hscroll hout
    exact .whole hall hcount
  | reverseIndex =>
    simp only [Grid.edit, Grid.reverseIndex] at hout
    simp only [editMarks]
    split at hout
    next habove =>
      cases hout
      rw [if_pos habove]
      exact .unmarked rfl rfl rfl rfl
    next htop =>
      obtain ⟨hall, hcount⟩ := hscroll hout
      rw [if_neg htop]
      exact .whole hall hcount
  | fillScreen ch =>
    simp only [Grid.edit, Grid.fillScreen, Grid.setCursor, Option.bind_eq_bind,
      Option.bind_eq_some_iff, Option.some.injEq] at hout
    obtain ⟨_, ⟨_, -, _, -, rfl⟩, rfl⟩ := hout
    exact .whole rfl rfl

end Grid

namespace Terminal

/-! ### What operations mark -/

def settingMarks : Setting → List Mark
  | .privateMode .. | .softReset => [.all]
  | _ => []

def marks (t : Terminal) (tables : UnicodeTables) : Operation → List Mark
  | .edit e => t.grid.editMarks e
  | .set s => settingMarks s
  | .print ch => t.grid.glyphMarks ((tables.width ch).getD 0)
  | .printLast =>
    match t.lastChar with
    | some ch => t.grid.glyphMarks ((tables.width ch).getD 0)
    | none => []
  | .lineFeed | .index | .nextLine => t.grid.scrollMarks
  | .scrollUp _ => [.all]
  | .pullBack => if t.scrollback.lines = [] then [] else [.all]
  | .clearHistory => [.history]
  | .enterAlt _ => if t.altGrid then [] else [.all]
  | .exitAlt _ => if t.altGrid then [.all] else []
  | .motion _ | .saveCursor | .restoreCursor => []

/-- What operations mark, one after the other. -/
def marksAll (tables : UnicodeTables) : Terminal → List Operation → List Mark
  | _, [] => []
  | t, op :: ops => t.marks tables op ++
    match t.operate tables op with
    | some t' => marksAll tables t' ops
    | none => []

/-- What bytes mark. -/
def feedMarks (t : Terminal) (tables : UnicodeTables) (bytes : List UInt8) : List Mark :=
  marksAll tables (t.receive bytes) (t.feedOps bytes)

/-- The whole pane or the whole screen is dirty. -/
def AllDirty (t : Terminal) : Prop := t.paneDirtyAll = true ∨ t.grid.dirtyAll = true

/-- What is not marked stays, and the rows that are marked are dirty in addition. -/
structure Unmoved (marks : List Mark) (t t' : Terminal) : Prop where
  rowCount : t'.grid.rowCount = t.grid.rowCount
  rows : ∀ row, .row row ∉ marks → t'.grid.rows[row]? = t.grid.rows[row]?
  dirty : ∀ row, t'.grid.dirty[row]? = some true ↔
    t.grid.dirty[row]? = some true ∨ .row row ∈ marks
  altGrid : t'.altGrid = t.altGrid
  viewport : t'.viewport = t.viewport
  paneDirty : t'.paneDirty = t.paneDirty
  scrollback : .history ∉ marks → t'.scrollback = t.scrollback

/-- Everything is dirty that was or is marked as a whole; unless that is so, what is not marked
stays. -/
structure Tracks (marks : List Mark) (t t' : Terminal) : Prop where
  all : t'.AllDirty ↔ t.AllDirty ∨ .all ∈ marks
  unmoved : .all ∉ marks → Unmoved marks t t'

variable {t t' t'' : Terminal} {tables : UnicodeTables} {marks marks' : List Mark}

namespace Tracks

theorem whole (h : t'.AllDirty) : Tracks [.all] t t' where
  all := by simp [h]
  unmoved h := absurd List.mem_cons_self h

theorem trans (h : Tracks marks t t') (h' : Tracks marks' t' t'') :
    Tracks (marks ++ marks') t t'' where
  all := by rw [h'.all, h.all, List.mem_append, or_assoc]
  unmoved hall := by
    rw [List.mem_append, not_or] at hall
    have hu := h.unmoved hall.1
    have hu' := h'.unmoved hall.2
    constructor
    · exact hu'.rowCount.trans hu.rowCount
    · intro row hrow
      rw [List.mem_append, not_or] at hrow
      exact (hu'.rows row hrow.2).trans (hu.rows row hrow.1)
    · intro row
      rw [hu'.dirty, hu.dirty, List.mem_append, or_assoc]
    · exact hu'.altGrid.trans hu.altGrid
    · exact hu'.viewport.trans hu.viewport
    · exact hu'.paneDirty.trans hu.paneDirty
    · intro hhistory
      rw [List.mem_append, not_or] at hhistory
      exact (hu'.scrollback hhistory.2).trans (hu.scrollback hhistory.1)

/-- A change of the screen and of nothing that matters here, unless it marks everything. -/
theorem of_grid (h : Grid.Tracks marks t.grid t'.grid) (hall : t'.paneDirtyAll = t.paneDirtyAll)
    (hkeeps : .all ∉ marks → t'.altGrid = t.altGrid ∧ t'.viewport = t.viewport ∧
      t'.paneDirty = t.paneDirty ∧ t'.scrollback = t.scrollback) : Tracks marks t t' where
  all := by rw [AllDirty, AllDirty, h.all, hall, or_assoc]
  unmoved hmarks := by
    obtain ⟨halt, hview, hdirty, hscroll⟩ := hkeeps hmarks
    exact ⟨h.rowCount, h.rows hmarks, h.dirty hmarks, halt, hview, hdirty, fun _ => hscroll⟩

theorem refl (t : Terminal) : Tracks [] t t :=
  of_grid (.unmarked rfl rfl rfl rfl) rfl fun _ => ⟨rfl, rfl, rfl, rfl⟩

end Tracks

theorem onGrid_tracks {f : Grid → Option Grid} (h : t.onGrid f = some t')
    (hf : ∀ g, f t.grid = some g → Grid.Tracks marks t.grid g) : Tracks marks t t' := by
  obtain ⟨g, hg, ht'⟩ := Option.bind_eq_some_iff.mp h
  cases ht'
  exact .of_grid (hf g hg) rfl fun _ => ⟨rfl, rfl, rfl, rfl⟩

/-- A line that scrolls out moves the history, so everything has to be marked then. -/
theorem scrolling_tracks {f : Grid → Option (Grid × Option Line)} (h : t.scrolling f = some t')
    (hf : ∀ out, f t.grid = some out →
      Grid.Tracks marks t.grid out.1 ∧ (.all ∉ marks → out.2 = none)) : Tracks marks t t' := by
  obtain ⟨⟨g, scrolled⟩, hg, ht'⟩ := Option.bind_eq_some_iff.mp h
  obtain ⟨hgrid, hnone⟩ := hf _ hg
  obtain ⟨s, v, hpush⟩ := pushAll_eq { t with grid := g } scrolled.toList
  dsimp only at ht' hgrid hnone
  by_cases hall : .all ∈ marks
  · rw [hpush] at ht'
    cases ht'
    exact .of_grid hgrid rfl fun hmarks => absurd hall hmarks
  · obtain rfl := hnone hall
    cases ht'
    exact .of_grid hgrid rfl fun _ => ⟨rfl, rfl, rfl, rfl⟩

theorem set_tracks (s : Setting) : Tracks (settingMarks s) t (t.set s) := by
  have hscreen := set_same (t := t) s
  have hhistory := set_sameHistory (t := t) s
  have hgrid : Grid.Tracks [] t.grid (t.set s).grid := by
    rw [hscreen.grid]
    exact .unmarked rfl rfl rfl rfl
  have hquiet (hall : (t.set s).paneDirtyAll = t.paneDirtyAll)
      (hdirty : (t.set s).paneDirty = t.paneDirty) : Tracks [] t (t.set s) :=
    .of_grid hgrid hall fun _ => ⟨hscreen.altGrid, hhistory.viewport, hdirty, hhistory.scrollback⟩
  cases s with
  | privateMode mode on => exact .whole (.inl rfl)
  | softReset => exact .whole (.inl rfl)
  | respond bytes =>
    apply hquiet
    all_goals
      simp only [Terminal.set, queueResponse]
      split <;> rfl
  | reportCursor =>
    apply hquiet
    all_goals
      simp only [Terminal.set, queueResponse]
      split <;> rfl
  | osc payload =>
    apply hquiet
    all_goals
      simp only [Terminal.set, Terminal.osc]
      split
      case h_11 => split <;> rfl
      all_goals rfl
  | _ => exact hquiet rfl rfl

theorem operate_tracks (h : t.Valid) {op : Operation} (hop : t.operate tables op = some t') :
    Tracks (t.marks tables op) t t' := by
  obtain ⟨⟨c, r, c₀, r₀, hs⟩, -⟩ := h
  have hg := hs.grid
  have hfed {g g₀ : Grid} (hcursor : g₀.atBottom = g.atBottom)
      (hkeeps : Grid.Tracks [] g g₀) : Grid.Tracks g.scrollMarks g g₀.fed ∧
        (.all ∉ g.scrollMarks → g₀.fedLine = none) := by
    have hmarks : g₀.scrollMarks = g.scrollMarks := by rw [Grid.scrollMarks, hcursor]; rfl
    refine ⟨hmarks ▸ hkeeps.trans g₀.fed_tracks, fun hall => ?_⟩
    rw [Grid.scrollMarks, ← hcursor] at hall
    cases hbottom : g₀.atBottom with
    | true => simp [hbottom] at hall
    | false => simp [Grid.fedLine, hbottom]
  have hsame : Grid.Tracks [] t.grid t.grid := .unmarked rfl rfl rfl rfl
  cases op with
  | motion m =>
    apply onGrid_tracks (f := (·.move m)) hop
    intro g hmove
    obtain ⟨_, _, _, _, _, _, rfl⟩ := Grid.move_eq hmove
    exact .unmarked rfl rfl rfl rfl
  | edit e => exact onGrid_tracks (f := (·.edit e)) hop fun g hedit => hg.edit_tracks hedit
  | set s =>
    cases hop
    exact set_tracks s
  | print ch =>
    exact scrolling_tracks (f := (·.print tables ch t.attrs)) hop fun out hout =>
      hg.print_tracks hout
  | printLast =>
    simp only [operate] at hop
    simp only [Terminal.marks]
    cases hlast : t.lastChar with
    | none =>
      rw [hlast] at hop
      cases hop
      exact .refl t
    | some ch =>
      rw [hlast] at hop
      exact scrolling_tracks (f := (·.print tables ch t.attrs)) hop fun out hout =>
        hg.print_tracks hout
  | lineFeed =>
    apply scrolling_tracks hop
    intro out hout
    rw [hg.lineFeed_eq] at hout
    cases hout
    exact hfed rfl hsame
  | index =>
    apply scrolling_tracks hop
    intro out hout
    rw [hg.index_eq] at hout
    cases hout
    exact hfed rfl hsame
  | nextLine =>
    apply scrolling_tracks hop
    intro out hout
    rw [Grid.nextLine, hg.carriageReturn.lineFeed_eq] at hout
    cases hout
    exact hfed rfl (.unmarked rfl rfl rfl rfl)
  | scrollUp n =>
    simp only [operate, scrollUpLines, Grid.scrollUp, Grid.scrollUpRegion, Option.bind_eq_bind,
      Option.bind_eq_some_iff, Option.some.injEq] at hop
    obtain ⟨_, -, ⟨g, scrolled⟩, ⟨_, -, _, -, heq⟩, rfl⟩ := hop
    cases heq
    rw [pushAll_onScreen]
    exact .whole (.inr rfl)
  | pullBack =>
    simp only [operate, restoreFromScrollback] at hop
    simp only [Terminal.marks]
    split at hop
    next scrollback line hpop =>
      have hsome : t.scrollback.lines ≠ [] := fun hnil => by
        rw [Scrollback.popNewest_of_nil hnil] at hpop
        cases hpop
      obtain ⟨g, hpush, ht'⟩ := Option.bind_eq_some_iff.mp hop
      simp only [Grid.pushLineFromScrollback, Option.bind_eq_bind, Option.bind_eq_some_iff,
        Option.some.injEq] at hpush
      obtain ⟨_, -, _, -, rfl⟩ := hpush
      cases ht'
      rw [if_neg hsome]
      exact .whole (.inr rfl)
    next scrollback hpop =>
      have hnil : t.scrollback.lines = [] :=
        List.getLast?_eq_none_iff.mp (congrArg Prod.snd hpop)
      cases hop
      rw [if_pos hnil]
      exact .refl t
  | clearHistory =>
    cases hop
    refine ⟨by simp [AllDirty, Terminal.marks], fun _ => ?_⟩
    exact ⟨rfl, fun _ _ => rfl, by simp [Terminal.marks], rfl, rfl, rfl,
      fun hhistory => absurd List.mem_cons_self hhistory⟩
  | enterAlt save =>
    simp only [operate, enterAltScreen] at hop
    simp only [Terminal.marks]
    split at hop
    next halt =>
      cases hop
      rw [if_pos halt]
      exact .refl t
    next hmain =>
      rw [if_neg hmain]
      split at hop
      · cases hop
        exact .whole (.inl rfl)
      · cases hop
  | exitAlt restore =>
    simp only [operate, exitAltScreen] at hop
    simp only [Terminal.marks]
    split at hop
    next halt =>
      rw [if_pos halt]
      split at hop
      · simp only [Terminal.restoreCursor, onGrid, Option.bind_eq_bind, Option.bind_eq_some_iff,
          Option.some.injEq] at hop
        obtain ⟨_, ⟨_, -, rfl⟩, rfl⟩ := hop
        exact .whole (.inl rfl)
      · cases hop
        exact .whole (.inl rfl)
    next hmain =>
      cases hop
      rw [if_neg hmain]
      exact .refl t
  | saveCursor =>
    cases hop
    exact .of_grid (.unmarked rfl rfl rfl rfl) rfl fun _ => ⟨rfl, rfl, rfl, rfl⟩
  | restoreCursor =>
    simp only [operate, Terminal.restoreCursor, Grid.restoreCursor, onGrid, Option.bind_eq_bind,
      Option.bind_eq_some_iff, Option.some.injEq] at hop
    obtain ⟨_, ⟨_, ⟨_, -, rfl⟩, rfl⟩, rfl⟩ := hop
    exact .of_grid (.unmarked rfl rfl rfl rfl) rfl fun _ => ⟨rfl, rfl, rfl, rfl⟩

/-- What operations mark is what is dirty after them. -/
theorem operateAll_tracks (h : t.Valid) {ops : List Operation}
    (hops : t.operateAll tables ops = some t') :
    Tracks (marksAll tables t ops) t t' ∧ t'.Valid ∧ t'.host = t.host := by
  induction ops generalizing t with
  | nil =>
    cases hops
    exact ⟨.refl _, h, rfl⟩
  | cons op ops ih =>
    rw [operateAll_cons] at hops
    obtain ⟨t₁, hop, hrest⟩ := Option.bind_eq_some_iff.mp hops
    obtain ⟨_, hop', hadv, hv⟩ := operate_valid h tables op
    obtain rfl := Option.some_inj.mp (hop.symm.trans hop')
    obtain ⟨htracks, hv', hhost⟩ := ih hv hrest
    rw [marksAll, hop]
    exact ⟨(operate_tracks h hop).trans htracks, hv', hhost.trans hadv.host⟩

/-! ### The history and the marks -/

theorem history_notMem_glyphMarks (g : Grid) (width : ℕ) : .history ∉ g.glyphMarks width := by
  unfold Grid.glyphMarks Grid.wrapMarks Grid.scrollMarks
  split_ifs <;> simp

theorem mem_marksAll_history {ops : List Operation} (h : .history ∈ marksAll tables t ops) :
    .clearHistory ∈ ops := by
  induction ops generalizing t with
  | nil => cases h
  | cons op ops ih =>
    rcases List.mem_append.mp h with hmark | hrest
    · have hop : op = .clearHistory := by
        cases op with
        | clearHistory => rfl
        | edit e => cases e <;> simp [Terminal.marks, Grid.editMarks] at hmark
        | set s => cases s <;> simp [Terminal.marks, settingMarks] at hmark
        | print ch => exact absurd hmark (history_notMem_glyphMarks _ _)
        | printLast =>
          simp only [Terminal.marks] at hmark
          split at hmark
          · exact absurd hmark (history_notMem_glyphMarks _ _)
          · cases hmark
        | _ => simp [Terminal.marks, Grid.scrollMarks] at hmark
      exact hop ▸ List.mem_cons_self
    · split at hrest
      · exact List.mem_cons_of_mem op (ih hrest)
      · cases hrest

/-- An erasure of the screen marks everything. -/
theorem all_mem_marksAll {ops : List Operation} (h : .edit (.eraseInDisplay 2) ∈ ops)
    (hops : t.operateAll tables ops = some t') : .all ∈ marksAll tables t ops := by
  induction ops generalizing t with
  | nil => cases h
  | cons op ops ih =>
    rw [operateAll_cons] at hops
    obtain ⟨t₁, hop, hrest⟩ := Option.bind_eq_some_iff.mp hops
    rw [marksAll, hop, List.mem_append]
    rcases List.mem_cons.mp h with rfl | hmem
    · exact .inl List.mem_cons_self
    · exact .inr (ih hmem hrest)

/-! An action that empties the history erases the screen. -/

theorem clearHistory_notMem_privateCodeOps (code : ℕ) (set : Bool) :
    .clearHistory ∉ privateCodeOps code set := by
  unfold privateCodeOps
  split
  next mode _ => cases mode <;> cases set <;> simp [privateModeOps]
  next => simp

theorem clearHistory_notMem_ansiCodeOps (code : ℕ) (set : Bool) :
    .clearHistory ∉ ansiCodeOps code set := by
  unfold ansiCodeOps
  split <;> simp

theorem csiFinalOps_erase {c : Csi} (h : .clearHistory ∈ csiFinalOps c) :
    .edit (.eraseInDisplay 2) ∈ csiFinalOps c := by
  unfold csiFinalOps at h ⊢
  dsimp only at h ⊢
  generalize Terminal.finalChar c = final at h ⊢
  split at h
  case h_14 =>
    unfold eraseDisplayOps at h ⊢
    split at h
    next hmode => simp [hmode]
    next => simp at h
  case h_13 | h_22 | h_23 => exact absurd (List.eq_of_mem_replicate h) (by simp)
  case h_26 =>
    unfold clearTabOps at h
    split at h <;> simp at h
  case h_27 | h_28 =>
    obtain ⟨code, -, hcode⟩ := List.mem_flatMap.mp h
    exact absurd hcode (clearHistory_notMem_ansiCodeOps code _)
  case h_24 | h_30 | h_31 | h_32 | h_33 | h_34 =>
    split_ifs at h <;> simp [attributesOp, softResetOps] at h
  all_goals simp at h

theorem operations_erase {a : ParserAction} (h : .clearHistory ∈ operations a) :
    .edit (.eraseInDisplay 2) ∈ operations a := by
  cases a with
  | control code => cases code <;> simp [operations, controlOps, reverseIndexOps] at h
  | esc seq =>
    cases seq with
    | fullReset => simp [operations, escOps, fullResetOps]
    | lineAttributes byte =>
      simp only [operations, escOps] at h
      split at h <;> simp at h
    | _ => simp [operations, escOps, reverseIndexOps, attributesOp] at h
  | csi c =>
    simp only [operations, csiOps] at h ⊢
    by_cases hmode : isPrivateMode c = true
    · rw [if_pos hmode] at h
      obtain ⟨code, -, hcode⟩ := List.mem_flatMap.mp h
      exact absurd hcode (clearHistory_notMem_privateCodeOps code _)
    · rw [if_neg hmode] at h ⊢
      by_cases hkeys : isModifyOtherKeys c = true
      · simp [hkeys] at h
      · rw [if_neg hkeys] at h ⊢
        by_cases hshape : isCursorShape c = true
        · simp [hshape] at h
        · rw [if_neg hshape] at h ⊢
          exact csiFinalOps_erase h
  | _ => simp [operations] at h

/-- Bytes that empty the history mark everything. -/
theorem all_mem_feedMarks {bytes : List UInt8}
    (hops : (t.receive bytes).operateAll tables (t.feedOps bytes) = some t')
    (hhistory : .history ∈ t.feedMarks tables bytes) : .all ∈ t.feedMarks tables bytes := by
  obtain ⟨a, ha, hclear⟩ := List.mem_flatMap.mp (mem_marksAll_history hhistory)
  exact all_mem_marksAll (List.mem_flatMap.mpr ⟨a, ha, operations_erase hclear⟩) hops

end Terminal

end Ferrokey.Terminal
