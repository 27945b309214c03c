import Ferrokey.Terminal.Glyphs

/-! # Wide glyphs in a terminal in use

What is fed and how the pane is resized leaves half of a wide glyph only where an
operation cuts one: printing over a half of it, and inserting, deleting or erasing cells
from its middle. Lines that move, are cut to a width or come from the history stay whole.
-/

set_option linter.dupNamespace false

namespace Ferrokey.Terminal

/-- Each half of a wide glyph is next to the other one. -/
def Unbroken (l : Line) : Prop := ∀ i c, l[i]? = some c →
  (c.isWide = true → ∃ c', l[i + 1]? = some c' ∧ c'.isWideCont = true) ∧
    (c.isWideCont = true → ∃ j c', i = j + 1 ∧ l[j]? = some c' ∧ c'.isWide = true)

theorem Whole.unbroken {l : Line} (h : Whole l) : Unbroken l := fun _ _ hi => Paired.next h hi

theorem Scrollback.push_whole {s : Scrollback} (h : WholeRows s.lines) {l : Line} (hl : Whole l) :
    WholeRows (s.push l).1.lines := by
  refine wholeRows_append.mpr ⟨?_, List.forall_mem_singleton.mpr (hl.normalise s.cols)⟩
  split
  · exact fun l' hmem => h l' (List.mem_of_mem_tail hmem)
  · exact h

theorem Scrollback.pushAll_whole {s : Scrollback} {lines : List Line} (h : WholeRows s.lines)
    (hlines : WholeRows lines) : WholeRows (s.pushAll lines).lines := by
  induction lines generalizing s with
  | nil => exact h
  | cons l lines ih =>
    obtain ⟨hl, hrest⟩ := List.forall_mem_cons.mp hlines
    exact ih (push_whole h hl) hrest

namespace Terminal

/-- No screen and no line of the history has half a glyph, and no rendition makes one. -/
structure Neat (t : Terminal) : Prop where
  grid : t.grid.Neat
  saved : ∀ g ∈ t.saved, g.Neat
  history : WholeRows t.scrollback.lines
  attrs : t.attrs.Narrow

/-- An operation cuts no glyph. -/
def SparesGlyphs (tables : UnicodeTables) (t : Terminal) : Operation → Prop
  | .edit e => t.grid.SparesEdit e
  | .print ch => t.grid.SparesGlyph ((tables.width ch).getD 0)
  | .printLast => ∀ ch ∈ t.lastChar, t.grid.SparesGlyph ((tables.width ch).getD 0)
  | _ => True

variable {t t' : Terminal} {tables : UnicodeTables}

/-- Where nothing else changes, the active screen decides. -/
theorem Neat.grid_iff (h : t.Neat) (hsaved : t'.saved = t.saved) (hattrs : t'.attrs = t.attrs)
    (hhistory : WholeRows t'.scrollback.lines) : t'.Neat ↔ t'.grid.Neat :=
  ⟨Neat.grid, fun hgrid => ⟨hgrid, hsaved ▸ h.saved, hhistory, hattrs ▸ h.attrs⟩⟩

theorem Neat.onGrid_iff (h : t.Neat) {f : Grid → Option Grid} {P : Prop}
    (hf : ∀ g, f t.grid = some g → (g.Neat ↔ P)) (hout : t.onGrid f = some t') : t'.Neat ↔ P := by
  obtain ⟨g, hg, ht'⟩ := Option.bind_eq_some_iff.mp hout
  cases ht'
  have hgrid : Neat { t with grid := g } ↔ g.Neat := h.grid_iff rfl rfl h.history
  exact hgrid.trans (hf g hg)

theorem pushAll_whole (h : WholeRows t.scrollback.lines) {lines : List Line}
    (hlines : WholeRows lines) : WholeRows (t.pushAll lines).scrollback.lines := by
  rw [pushAll_scrollback]
  split
  · exact h
  · exact Scrollback.pushAll_whole h hlines

/-- A screen after which lines are stored. -/
theorem Neat.stored_iff (h : t.Neat) {g : Grid} {lines : List Line} (hlines : WholeRows lines) :
    (pushAll { t with grid := g } lines).Neat ↔ g.Neat := by
  have hwhole := pushAll_whole (t := { t with grid := g }) h.history hlines
  obtain ⟨s, v, hpush⟩ := pushAll_eq { t with grid := g } lines
  rw [hpush] at hwhole ⊢
  exact h.grid_iff rfl rfl hwhole

theorem Neat.scrolling_iff (h : t.Neat) {f : Grid → Option (Grid × Option Line)} {P : Prop}
    (hf : ∀ g scrolled, f t.grid = some (g, scrolled) →
      (g.Neat ↔ P) ∧ WholeRows scrolled.toList)
    (hout : t.scrolling f = some t') : t'.Neat ↔ P := by
  obtain ⟨⟨g, scrolled⟩, hg, ht'⟩ := Option.bind_eq_some_iff.mp hout
  cases ht'
  obtain ⟨hiff, hwhole⟩ := hf g scrolled hg
  exact (h.stored_iff hwhole).trans hiff

theorem Neat.set (h : t.Neat) (s : Setting) : (t.set s).Neat := by
  have hscreens := set_same (t := t) s
  have hhistory := set_sameHistory (t := t) s
  have hattrs : (t.set s).attrs.Narrow := by
    cases s with
    | softReset =>
      simp only [Terminal.set, selectionClear]
      split <;> exact CellAttrs.narrow_default
    | rendition params => exact h.attrs.sgr params
    | respond bytes =>
      simp only [Terminal.set, queueResponse]
      split <;> exact h.attrs
    | reportCursor =>
      simp only [Terminal.set, queueResponse]
      split <;> exact h.attrs
    | osc payload =>
      simp only [Terminal.set, Terminal.osc]
      split
      case h_11 => split <;> exact h.attrs
      all_goals exact h.attrs
    | _ => exact h.attrs
  constructor
  · exact hscreens.grid ▸ h.grid
  · exact hscreens.saved ▸ h.saved
  · exact hhistory.scrollback ▸ h.history
  · exact hattrs

theorem Neat.saveCursor (h : t.Neat) : t.saveCursor.Neat where
  grid := ⟨h.grid.whole, by rintro _ ⟨⟩; exact h.attrs⟩
  saved := h.saved
  history := h.history
  attrs := h.attrs

theorem Neat.restoreCursor (h : t.Neat) (hout : t.restoreCursor = some t') : t'.Neat := by
  simp only [Terminal.restoreCursor, onGrid, Grid.restoreCursor, Option.bind_eq_bind,
    Option.bind_eq_some_iff, Option.some.injEq] at hout
  obtain ⟨_, ⟨g, ⟨cursor, -, rfl⟩, rfl⟩, rfl⟩ := hout
  refine ⟨⟨h.grid.whole, h.grid.narrow⟩, h.saved, h.history, ?_⟩
  dsimp only
  cases hsaved : t.grid.savedAttrs with
  | none => exact h.attrs
  | some a => exact h.grid.narrow a hsaved

theorem Neat.enterAltScreen (h : t.Neat) {save : Bool} (hout : t.enterAltScreen save = some t') :
    t'.Neat := by
  have hnext : (if save then t.saveCursor else t).Neat := by
    split
    · exact h.saveCursor
    · exact h
  unfold Terminal.enterAltScreen at hout
  split at hout
  · cases hout
    exact h
  · dsimp only at hout
    split at hout
    next g hnew =>
      cases hout
      refine ⟨Grid.new_neat hnew, ?_, hnext.history, hnext.attrs⟩
      rintro _ ⟨⟩
      exact hnext.grid
    next => cases hout

theorem Neat.exitAltScreen (h : t.Neat) {restore : Bool}
    (hout : t.exitAltScreen restore = some t') : t'.Neat := by
  have hleave : t.leaveAltScreen.Neat := by
    refine ⟨?_, by simp [leaveAltScreen], h.history, h.attrs⟩
    unfold leaveAltScreen
    dsimp only
    cases hsaved : t.saved with
    | none => exact h.grid
    | some g => exact h.saved g hsaved
  unfold Terminal.exitAltScreen at hout
  split at hout
  · split at hout
    · exact hleave.restoreCursor hout
    · cases hout
      exact hleave
  · cases hout
    exact h

theorem Neat.restoreFromScrollback (h : t.Neat) (hout : t.restoreFromScrollback = some t') :
    t'.Neat := by
  unfold Terminal.restoreFromScrollback at hout
  split at hout
  next s l hpop =>
    have hdrop : s = { t.scrollback with lines := t.scrollback.lines.dropLast } :=
      (congrArg Prod.fst hpop).symm
    have hl : Whole l := h.history l (List.mem_of_getLast? (congrArg Prod.snd hpop))
    have hneat : Neat { t with scrollback := s } := by
      refine ⟨h.grid, h.saved, ?_, h.attrs⟩
      rw [hdrop]
      exact fun l' hmem => h.history l' (List.mem_of_mem_dropLast hmem)
    have hpush := hneat.onGrid_iff (P := True)
      (fun g hg => iff_of_true (h.grid.pushLineFromScrollback hl hg) trivial) hout
    exact hpush.mpr trivial
  next =>
    cases hout
    exact h

/-- An operation leaves half a glyph exactly if it cuts one. -/
theorem operate_neat_iff (h : t.Neat) (hv : t.Valid) {op : Operation}
    (hop : t.operate tables op = some t') : t'.Neat ↔ t.SparesGlyphs tables op := by
  obtain ⟨c, r, c₀, r₀, hs⟩ := hv.sizes
  have hfed {g : Grid} {scrolled : Option Line} {g₀ : Grid} (hg₀ : g₀.Neat)
      (hs₀ : g₀.Sized c r) (hout : some (g₀.fed, g₀.fedLine) = some (g, scrolled)) :
      (g.Neat ↔ True) ∧ WholeRows scrolled.toList := by
    obtain ⟨hneat, hlines⟩ := hg₀.fed hs₀
    cases hout
    exact ⟨iff_of_true hneat trivial, hlines⟩
  cases op with
  | motion m =>
    apply h.onGrid_iff (f := (·.move m)) _ hop
    intro g hg
    obtain ⟨_, _, _, _, _, _, rfl⟩ := Grid.move_eq hg
    exact iff_of_true ⟨h.grid.whole, h.grid.narrow⟩ trivial
  | edit e => exact h.onGrid_iff (f := (·.edit e)) (fun g hg => h.grid.edit_iff hs.grid hg) hop
  | set s =>
    cases hop
    exact iff_of_true (h.set s) trivial
  | print ch =>
    exact h.scrolling_iff (f := (·.print tables ch t.attrs))
      (fun g scrolled hg => h.grid.print_iff hs.grid rfl h.attrs hg) hop
  | printLast =>
    simp only [operate] at hop
    simp only [SparesGlyphs]
    cases hlast : t.lastChar with
    | none =>
      rw [hlast] at hop
      cases hop
      exact iff_of_true h (by simp)
    | some ch =>
      rw [hlast] at hop
      have hprint := h.scrolling_iff (f := (·.print tables ch t.attrs))
        (fun g scrolled hg => h.grid.print_iff hs.grid rfl h.attrs hg) hop
      exact hprint.trans ⟨fun hspares _ hch => Option.some_inj.mp hch ▸ hspares,
        fun hspares => hspares ch rfl⟩
  | lineFeed =>
    apply h.scrolling_iff (f := (·.lineFeed)) _ hop
    intro g scrolled hg
    rw [hs.grid.lineFeed_eq] at hg
    exact hfed h.grid hs.grid hg
  | index =>
    apply h.scrolling_iff (f := (·.index)) _ hop
    intro g scrolled hg
    rw [hs.grid.index_eq] at hg
    exact hfed h.grid hs.grid hg
  | nextLine =>
    apply h.scrolling_iff (f := (·.nextLine)) _ hop
    intro g scrolled hg
    have hstart : t.grid.carriageReturn.Neat := ⟨h.grid.whole, h.grid.narrow⟩
    rw [Grid.nextLine, hs.grid.carriageReturn.lineFeed_eq] at hg
    exact hfed hstart hs.grid.carriageReturn hg
  | scrollUp n =>
    simp only [operate, scrollUpLines, Option.bind_eq_bind, Option.bind_eq_some_iff,
      Option.some.injEq] at hop
    obtain ⟨full, -, ⟨g, lines⟩, hscroll, rfl⟩ := hop
    obtain ⟨hneat, hlines⟩ := h.grid.scrollUpRegion hscroll
    have hstored : WholeRows (if full = true then lines else []) := by
      split
      · exact hlines
      · simp [WholeRows]
    exact iff_of_true ((h.stored_iff hstored).mpr hneat) trivial
  | pullBack => exact iff_of_true (h.restoreFromScrollback hop) trivial
  | clearHistory =>
    cases hop
    exact iff_of_true ⟨h.grid, h.saved, by simp [WholeRows, Scrollback.clear], h.attrs⟩ trivial
  | enterAlt save => exact iff_of_true (h.enterAltScreen hop) trivial
  | exitAlt restore => exact iff_of_true (h.exitAltScreen hop) trivial
  | saveCursor =>
    cases hop
    exact iff_of_true h.saveCursor trivial
  | restoreCursor => exact iff_of_true (h.restoreCursor hop) trivial

/-! ### Runs -/

/-- The calls that write on the screen or cut it. -/
def feedsOrResizes : TerminalOp → Bool
  | .feed _ | .resize .. => true
  | _ => false

/-- Nothing that is fed cuts a glyph. -/
def CallSparesGlyphs (tables : UnicodeTables) (t : Terminal) : TerminalOp → Prop
  | .feed bytes => Along (fun t op => t.operate tables op) (SparesGlyphs tables) (t.receive bytes)
      (t.feedOps bytes)
  | _ => True

theorem Neat.settle (h : t.Neat) (synced : Bool) : (t.settle synced).Neat := by
  unfold Terminal.settle
  split
  · exact ⟨h.grid, h.saved, h.history, h.attrs⟩
  · have hgrid : t.grid.consumeDirty.1.Neat := ⟨h.grid.whole, h.grid.narrow⟩
    unfold markDirtyFromGrid
    dsimp only
    split <;> exact ⟨hgrid, h.saved, h.history, h.attrs⟩

theorem Neat.resize (h : t.Neat) {width height : ℕ} {answer : Except String Unit}
    {out : Terminal × Except TerminalError Unit} (hout : t.resize width height answer = some out) :
    out.1.Neat := by
  have hgrid := resize_resizesGrid hout
  have hhistory := (resize_restores hout).scrollback
  constructor
  · rcases hgrid.grid with hsame | ⟨cols, rows, hsized⟩
    · exact hsame ▸ h.grid
    · exact h.grid.resize hsized
  · exact hgrid.saved ▸ h.saved
  · rcases hhistory with hsame | ⟨cols, -, hstored⟩
    · exact hsame ▸ h.history
    · rw [hstored]
      exact Scrollback.pushAll_whole (by simp [WholeRows]) h.history
  · exact hgrid.attrs ▸ h.attrs

theorem perform_neat (h : t.Neat) (hk : t.Kept) {op : TerminalOp} (hop : feedsOrResizes op = true)
    (hspares : t.CallSparesGlyphs tables op) :
    Returns (t.perform tables op) fun out => out.1.Neat := by
  cases op with
  | feed bytes =>
    have hfeed := feed_along Neat hk ⟨h.grid, h.saved, h.history, h.attrs⟩
      (fun t t' op hk h hs hop => (operate_neat_iff h hk.toValid hop).mpr hs) hspares
    apply hfeed.map
    rintro _ ⟨t'', -, hneat, rfl⟩
    exact hneat.settle _
  | resize width height answer =>
    obtain ⟨out, hout, -⟩ := perform_kept hk tables (.resize width height answer)
    obtain ⟨out', hout', rfl⟩ := Option.map_eq_some_iff.mp hout
    exact ⟨_, hout, h.resize hout'⟩
  | _ => cases hop

theorem performAll_neat (h : t.Neat) (hk : t.Kept) {ops : List TerminalOp}
    (hops : ∀ op ∈ ops, feedsOrResizes op = true)
    (hspares : Along (fun t op => (t.perform tables op).map Prod.fst) (CallSparesGlyphs tables)
      t ops) : Returns (t.performAll tables ops) Neat :=
  performAll_along Neat hk h (fun _ _ hk h hop hspares => perform_neat h hk hop hspares) hops
    hspares

theorem new_neat {config : TerminalConfig} {metrics : CellMetrics}
    (h : Terminal.new config metrics = .ok t) : t.Neat := by
  obtain ⟨hgrid, hsaved, hscroll, -, -, hattrs, -⟩ := new_fresh h
  refine ⟨Grid.new_neat hgrid, by simp [hsaved], by simp [hscroll, WholeRows], ?_⟩
  rw [hattrs]
  exact CellAttrs.narrow_default

/-- The lines of both screens and of the history have no half of a wide glyph. -/
def UnbrokenGlyphs (t : Terminal) : Prop :=
  ∀ l, (l ∈ t.grid.rows ∨ (∃ g ∈ t.saved, l ∈ g.rows) ∨ l ∈ t.scrollback.lines) → Unbroken l

theorem Neat.unbrokenGlyphs (h : t.Neat) : t.UnbrokenGlyphs := by
  rintro l (hmem | ⟨g, hg, hmem⟩ | hmem)
  · exact (h.grid.whole l hmem).unbroken
  · exact ((h.saved g hg).whole l hmem).unbroken
  · exact (h.history l hmem).unbroken

/-- In every run of bytes and resizes that cut no glyph, no line has half of one. -/
theorem performAll_unbrokenGlyphs {config : TerminalConfig} {metrics : CellMetrics} {t₀ : Terminal}
    (h : Terminal.new config metrics = .ok t₀) {ops : List TerminalOp}
    (hops : ∀ op ∈ ops, feedsOrResizes op = true)
    (hspares : Along (fun t op => (t.perform tables op).map Prod.fst) (CallSparesGlyphs tables)
      t₀ ops) : Returns (t₀.performAll tables ops) UnbrokenGlyphs :=
  (performAll_neat (new_neat h) (new_kept h) hops hspares).mono fun _ => Neat.unbrokenGlyphs

/-- The Unicode tables on ASCII characters and one that is wide. -/
def wideTables : UnicodeTables where
  width c := if c.toNat = 0x4E00 then some 2 else asciiTables.width c
  isAlphanumeric := asciiTables.isAlphanumeric

/-- Letters and a wide glyph fill a row, which then is made too short for the glyph. -/
def besideWide : List TerminalOp :=
  [.resize 80 64 (.ok ()), .feed [0x61, 0x61, 0x61, 0xE4, 0xB8, 0x80], .resize 64 64 (.ok ())]

theorem besideWide_unbrokenGlyphs : ∃ t₀, Terminal.new .default fontCells = .ok t₀ ∧
    Returns (t₀.performAll wideTables besideWide) UnbrokenGlyphs := by
  have hnew : ∃ t₀, Terminal.new .default fontCells = .ok t₀ := ⟨_, rfl⟩
  obtain ⟨t₀, ht₀⟩ := hnew
  refine ⟨t₀, ht₀, performAll_unbrokenGlyphs ht₀ (by decide) ?_⟩
  cases ht₀
  refine ⟨trivial, ?_⟩
  rintro _ ⟨⟩
  refine ⟨⟨trivial, ?_⟩, ?_⟩
  · -- each character is remembered and then printed
    rintro _ ⟨⟩
    refine ⟨.inr ⟨rfl, rfl⟩, ?_⟩
    rintro _ ⟨⟩
    refine ⟨trivial, ?_⟩
    rintro _ ⟨⟩
    refine ⟨.inr ⟨rfl, rfl⟩, ?_⟩
    rintro _ ⟨⟩
    refine ⟨trivial, ?_⟩
    rintro _ ⟨⟩
    refine ⟨.inr ⟨rfl, rfl⟩, ?_⟩
    rintro _ ⟨⟩
    refine ⟨trivial, ?_⟩
    rintro _ ⟨⟩
    refine ⟨.inr ⟨rfl, rfl⟩, ?_⟩
    rintro _ ⟨⟩
    trivial
  · rintro _ ⟨⟩
    refine ⟨trivial, ?_⟩
    rintro _ ⟨⟩
    trivial

/-- A wide glyph, and a letter that goes to its first half. -/
def overWide : List TerminalOp :=
  [.resize 64 64 (.ok ()), .feed [0xE4, 0xB8, 0x80, 0x0D, 0x61]]

theorem overWide_not_unbrokenGlyphs : ∃ t₀, Terminal.new .default fontCells = .ok t₀ ∧
    ¬ Returns (t₀.performAll wideTables overWide) UnbrokenGlyphs := by
  refine ⟨_, rfl, ?_⟩
  rintro ⟨_, ⟨⟩, hunbroken⟩
  obtain ⟨_, _, ⟨⟩, ⟨⟩, hwide⟩ := (hunbroken _ (.inl List.mem_cons_self) 1 _ rfl).2 rfl
  cases hwide

end Terminal

end Ferrokey.Terminal
