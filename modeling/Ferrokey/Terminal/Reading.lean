import Ferrokey.Terminal.Anchors
import Ferrokey.Terminal.Pen

/-! # The line at the top of the view

The view is kept as a distance from the newest output. Text that scrolls lines out moves
what is at this distance, so the line at the top of the view only stays there if nothing
is stored, or if the whole document is in view.
-/

set_option linter.dupNamespace false

namespace Ferrokey.Terminal

/-- Where a line of the document is. -/
inductive Place where
  /-- On the screen. -/
  | row (i : ℕ)
  /-- In the history, whose lines are counted from its first, those evicted included. -/
  | line (d : ℕ)
  /-- Written over, or scrolled out and not stored. -/
  | gone

/-- Where a stroke takes a line, if a line that is scrolled out of the screen is stored as the
given one. -/
def Place.after (region : Region) (stored : Option ℕ) : Place → Stroke → Place
  | .row i, .scroll =>
    if i = region.top then (stored.map Place.line).getD .gone
    else if region.top ≤ i ∧ i ≤ region.bottom then .row (i - 1)
    else .row i
  | .row i, .write r => if i = r then .gone else .row i
  | place, _ => place

/-- Where strokes take a line. -/
def Place.follow (region : Region) : Option ℕ → Place → List Stroke → Place
  | _, place, [] => place
  | stored, place, .scroll :: strokes =>
    follow region (stored.map (· + 1)) (place.after region stored .scroll) strokes
  | stored, place, .write r :: strokes =>
    follow region stored (place.after region stored (.write r)) strokes

namespace Place

variable {region : Region} {stored : Option ℕ} {place : Place} {strokes : List Stroke}

theorem follow_line (d : ℕ) : follow region stored (.line d) strokes = .line d := by
  induction strokes generalizing stored with
  | nil => rfl
  | cons s strokes ih => cases s <;> exact ih

theorem follow_gone : follow region stored .gone strokes = .gone := by
  induction strokes generalizing stored with
  | nil => rfl
  | cons s strokes ih => cases s <;> exact ih

/-- A line of the screen is stored behind those that are there, if it is stored at all. -/
theorem le_of_follow_row {i d : ℕ} (h : follow region stored (.row i) strokes = .line d) :
    ∃ n, stored = some n ∧ n ≤ d := by
  induction strokes generalizing stored i with
  | nil => cases h
  | cons s strokes ih =>
    cases s with
    | scroll =>
      simp only [follow, after] at h
      split at h
      next =>
        cases stored with
        | none => cases follow_gone.symm.trans h
        | some n =>
          cases (follow_line n).symm.trans h
          exact ⟨d, rfl, le_rfl⟩
      next =>
        have hnext : ∃ n, stored.map (· + 1) = some n ∧ n ≤ d := by split at h <;> exact ih h
        obtain ⟨_, hsome, hle⟩ := hnext
        obtain ⟨n, hn, rfl⟩ := Option.map_eq_some_iff.mp hsome
        exact ⟨n, hn, (Nat.le_succ n).trans hle⟩
    | write row =>
      simp only [follow, after] at h
      split at h
      next => cases follow_gone.symm.trans h
      next => exact ih h

end Place

/-! ### Lines under strokes -/

/-- The cells of a line that no text writes: each is the first half of a glyph, in a colour of its
own, with no character attached. -/
def Marked (fg : UInt32) (l : Line) : Prop :=
  ∀ c ∈ l, c.fg = fg ∧ c.combining = [] ∧ c.isWide = true

theorem Inked.not_marked {attrs : CellAttrs} {fg : UInt32} {l : Line} (h : Inked attrs l)
    (hfg : fg ≠ attrs.fg) : ¬ Marked fg l := by
  obtain ⟨c, hmem, hc⟩ := h
  intro hmarked
  obtain ⟨hfg', hnil, -⟩ := hmarked c hmem
  rcases hc with hc | hc
  · exact hfg (hfg'.symm.trans hc)
  · exact hc hnil

theorem blankLine_not_marked {fg : UInt32} {cols : ℕ} (hcols : 0 < cols) :
    ¬ Marked fg (blankLine cols) := by
  intro hmarked
  have hwide := (hmarked Cell.default (by simp [blankLine, hcols.ne'])).2.2
  exact absurd hwide (by decide)

/-- No half of a glyph is left at the end of a line of the history. -/
theorem normalise_not_marked {fg : UInt32} {cols : ℕ} (hcols : 0 < cols) (l : Line) :
    ¬ Marked fg (normalise cols l) := by
  intro hmarked
  have hlen := length_fitWidth cols l
  cases hlast : (fitWidth cols l).getLast? with
  | none =>
    rw [List.getLast?_eq_none_iff] at hlast
    rw [hlast] at hlen
    exact hcols.ne hlen
  | some last =>
    simp only [normalise, hlast] at hmarked
    split at hmarked
    next =>
      have hwide := (hmarked Cell.default (by simp)).2.2
      exact absurd hwide (by decide)
    next hnarrow => exact hnarrow (hmarked last (List.mem_of_getLast? hlast)).2.2

section Strokes

variable {attrs : CellAttrs} {region : Region} {strokes : List Stroke}
  {rows rows' out : List Line} {stored : Option ℕ}

/-- A line that stays on the screen keeps its cells. -/
theorem Drawn.getElem?_row (h : Drawn attrs region strokes rows rows' out)
    (hregion : region.top ≤ region.bottom) (hbottom : region.bottom < rows.length) {i i' : ℕ}
    (hplace : Place.follow region stored (.row i) strokes = .row i') : rows'[i']? = rows[i]? := by
  induction h generalizing stored i with
  | nil =>
    cases hplace
    rfl
  | @scroll rows rows' out l strokes htop _ ih =>
    have hlen : (region.movedUp rows).length = rows.length := length_movedUp hregion hbottom
    have hmoved (j : ℕ) := getElem?_movedUp region.cols j hregion hbottom
    simp only [Place.follow, Place.after] at hplace
    split at hplace
    next =>
      cases stored with
      | none => cases Place.follow_gone.symm.trans hplace
      | some n => cases (Place.follow_line n).symm.trans hplace
    next hne =>
      split at hplace
      next hin =>
        rw [ih (hlen ▸ hbottom) hplace]
        refine (hmoved (i - 1)).trans ?_
        rw [if_neg (by omega), if_pos (by omega)]
        congr 1
        omega
      next hin =>
        rw [ih (hlen ▸ hbottom) hplace]
        refine (hmoved i).trans ?_
        rw [if_neg (by omega), if_neg (by omega)]
  | @write rows rows' out l l' row strokes hrow hl' _ _ ih =>
    simp only [Place.follow, Place.after] at hplace
    split at hplace
    next => cases Place.follow_gone.symm.trans hplace
    next hne => rw [ih (by rwa [List.length_set]) hplace, List.getElem?_set_ne (Ne.symm hne)]

/-- If at most one row is marked, this stays so, and the marked row is where the line is. -/
theorem Drawn.place_of_marked (h : Drawn attrs region strokes rows rows' out)
    (stored : Option ℕ) (place : Place) (hregion : region.top ≤ region.bottom)
    (hbottom : region.bottom < rows.length) (hcols : 0 < region.cols) {fg : UInt32}
    (hfg : fg ≠ attrs.fg)
    (hmarked : ∀ j l, rows[j]? = some l → Marked fg l → place = .row j) {j : ℕ} {l : Line}
    (hl : rows'[j]? = some l) (hl' : Marked fg l) :
    Place.follow region stored place strokes = .row j := by
  induction h generalizing stored place with
  | nil => exact hmarked j l hl hl'
  | @scroll rows rows' out l₁ strokes htop _ ih =>
    have hlen : (region.movedUp rows).length = rows.length := length_movedUp hregion hbottom
    refine ih _ _ (hlen ▸ hbottom) (fun j l hl hl' => ?_) hl
    have hmoved := (getElem?_movedUp region.cols j hregion hbottom).symm.trans hl
    split at hmoved
    next =>
      cases hmoved
      exact absurd hl' (blankLine_not_marked hcols)
    next hne =>
      split at hmoved
      next hin =>
        rw [hmarked _ l hmoved hl', Place.after, if_neg (by omega), if_pos (by omega),
          Nat.add_sub_cancel]
      next hin => rw [hmarked j l hmoved hl', Place.after, if_neg (by omega), if_neg (by omega)]
  | @write rows rows' out l₁ l₂ row strokes hrow hlen hinked _ ih =>
    refine ih _ _ (by rwa [List.length_set]) (fun j l hl hl' => ?_) hl
    rw [List.getElem?_set] at hl
    split at hl
    next =>
      split at hl
      · cases hl
        exact absurd hl' (hinked.not_marked hfg)
      · cases hl
    next hne => rw [hmarked j l hl hl', Place.after, if_neg (Ne.symm hne)]

end Strokes

namespace Terminal

variable {t t' : Terminal} {tables : UnicodeTables} {bytes : List UInt8}

/-! ### The view after text -/

/-- How far the view is from the newest output after text. -/
def offsetAfter (tables : UnicodeTables) (t : Terminal) (bytes : List UInt8) : ℕ :=
  if t.storedBy tables bytes = 0 then t.viewport.scrollOffset
  else min t.viewport.scrollOffset (min (t.scrollback.len + 1) t.scrollback.maxLines)

/-- Where the view starts after text. -/
def startAfter (tables : UnicodeTables) (t : Terminal) (bytes : List UInt8) : ℕ :=
  t.scrollback.len + t.storedBy tables bytes - t.evictedBy tables bytes + t.grid.rowCount -
    (t.visibleRows + min (t.offsetAfter tables bytes) t.visibleRows)

/-- Lines that are stored are not held back from a view that does not follow the output; only
the first may bring it nearer, if it is further than the history goes. -/
theorem pushAll_offset (hlen : t.scrollback.len ≤ t.scrollback.maxLines)
    (hpos : 0 < t.scrollback.maxLines) (hmax : t.scrollback.maxLines ≤ maxScrollback)
    (hmain : t.altGrid = false)
    (hread : t.viewport.followOutput = false) (lines : List Line) :
    (t.pushAll lines).viewport.scrollOffset = if lines.length = 0 then t.viewport.scrollOffset
      else min t.viewport.scrollOffset (min (t.scrollback.len + 1) t.scrollback.maxLines) := by
  induction lines generalizing t with
  | nil => rfl
  | cons l lines ih =>
    have hpush : (t.scrollback.push l).1.len =
        min (t.scrollback.len + 1) t.scrollback.maxLines := by
      simp only [Scrollback.len, Scrollback.push, List.length_append,
        List.length_singleton] at hlen ⊢
      split
      next hfull =>
        rw [beq_iff_eq] at hfull
        rw [List.length_tail]
        omega
      next hroom =>
        rw [beq_iff_eq] at hroom
        omega
    have hstored : t.pushScrollback l = { t with
        scrollback := (t.scrollback.push l).1
        viewport := t.viewport.updateBounds (t.scrollback.push l).1.len } := by
      rw [pushScrollback, hmain]
      rfl
    have hoffset : (t.pushScrollback l).viewport.scrollOffset =
        min t.viewport.scrollOffset (min (t.scrollback.len + 1) t.scrollback.maxLines) := by
      rw [hstored]
      simp only [Viewport.updateBounds, hread, hpush, Bool.false_eq_true, if_false]
      omega
    rw [pushAll, List.foldl_cons]
    refine (ih (t := t.pushScrollback l) ?_ ?_ ?_ ?_ ?_).trans ?_
    · rw [hstored]
      exact hpush.trans_le (min_le_right _ _)
    · rw [hstored]
      exact hpos
    · rw [hstored]
      exact hmax
    · rw [hstored]
      exact hmain
    · rw [hstored]
      exact hread
    · rw [hoffset, hstored]
      simp only [hpush, Scrollback.push_maxLines, List.length_cons,
        if_neg (Nat.succ_ne_zero lines.length)]
      split <;> omega

/-- The alternate screen stores nothing. -/
theorem pushAll_away (halt : t.altGrid = true) (lines : List Line) : t.pushAll lines = t := by
  induction lines with
  | nil => rfl
  | cons l lines ih =>
    have hpush : t.pushScrollback l = t := by rw [pushScrollback, if_pos halt]
    rw [pushAll, List.foldl_cons, hpush]
    exact ih

/-- The lines that text adds to the history. -/
def keptLines (t : Terminal) (lines : List Line) : List Line :=
  if t.altGrid then [] else lines.map (normalise t.scrollback.cols)

/-- What is shown after text. -/
theorem feed_shown (tables : UnicodeTables) (hk : t.Kept) (hread : t.viewport.followOutput = false)
    (hplain : t.PlainText bytes) : ∃ g lines, t.written tables bytes = some (g, lines) ∧
      Drawn t.attrs t.grid.region (t.grid.pen.strokes tables (t.parser.feed bytes).2) t.grid.rows
        g.rows lines ∧
      Returns (t.feed tables bytes) fun t' =>
        t'.scrollback.lines = (t.scrollback.lines ++ t.keptLines lines).drop
          (t.evictedBy tables bytes) ∧
        t'.grid.rows = g.rows ∧ t'.windowStart.toNat = t.startAfter tables bytes := by
  obtain ⟨c, r, c₀, r₀, hs⟩ := hk.sizes
  obtain ⟨⟨g, lines⟩, hg, hsized⟩ := hs.grid.write tables t.attrs (t.parser.feed bytes).2
  have hg' : t.written tables bytes = some (g, lines) := hg
  obtain ⟨t', hfeed, hw⟩ := feed_written hplain hg'
  have hfits := hk.history
  have hstored : t.storedBy tables bytes = (t.keptLines lines).length := by
    rw [storedBy, hg', keptLines]
    split <;> simp
  have hhistory : t'.scrollback.lines = (t.scrollback.lines ++ t.keptLines lines).drop
      (t.evictedBy tables bytes) := by
    cases hmain : t.altGrid with
    | false =>
      rw [hw.history hk hmain hg', keptLines, hmain]
      rfl
    | true =>
      have hnone : t.keptLines lines = [] := by simp [keptLines, hmain]
      have hevicted : t.evictedBy tables bytes = 0 := by
        rw [evictedBy, hstored, hnone, hfits.maxLines_eq]
        exact Nat.sub_eq_zero_of_le hfits.length
      rw [hw.scrollback, pushAll_scrollback, hmain, hnone, hevicted]
      simp
  refine ⟨g, lines, hg', hs.grid.write_drawn hg, t', hfeed, hhistory, hw.rows, ?_⟩
  have hlen : t'.scrollback.len = t.scrollback.len + t.storedBy tables bytes -
      t.evictedBy tables bytes := by
    rw [Scrollback.len, hhistory, List.length_drop, List.length_append, ← hstored]
    rfl
  have hrows : t'.grid.rowCount = t.grid.rowCount := by
    rw [hw.rowCount, hsized.rowCount_eq, hs.grid.rowCount_eq]
  have hoffset : t'.viewport.scrollOffset = t.offsetAfter tables bytes := by
    rw [hw.viewport, offsetAfter, hstored, keptLines]
    cases hmain : t.altGrid with
    | false =>
      have hmax := hfits.maxLines_eq
      rw [pushAll_offset (hfits.length.trans_eq hmax.symm) (hk.capacity_pos.trans_eq hmax.symm)
        (hmax.trans_le hk.capacity.2) hmain hread]
      simp
    | true => rw [pushAll_away hmain, if_pos rfl, List.length_nil, if_pos rfl]
  rw [windowStart, hw.visibleRows, hlen, hrows, hoffset, startAfter]
  omega

/-! ### Where the line at the top is -/

/-- The terminal with other lines in the history and on the screen. -/
def withContents (t : Terminal) (lines rows : List Line) : Terminal :=
  { t with scrollback := { t.scrollback with lines }, grid := { t.grid with rows } }

/-- The strokes of text on the screen. -/
def textStrokes (tables : UnicodeTables) (t : Terminal) (bytes : List UInt8) : List Stroke :=
  t.grid.pen.strokes tables (t.parser.feed bytes).2

/-- Where the line at the top of the view is after text. -/
def topPlace (tables : UnicodeTables) (t : Terminal) (bytes : List UInt8) : Place :=
  if t.windowStart.toNat < t.scrollback.len then .line t.windowStart.toNat
  else .follow t.grid.region (if t.altGrid then none else some t.scrollback.len)
    (.row (t.windowStart.toNat - t.scrollback.len)) (t.textStrokes tables bytes)

/-- Either the line at the top of the view is evicted, or the top of the view shows what it showed
before, whatever the lines are. -/
def TopStays (tables : UnicodeTables) (t : Terminal) (bytes : List UInt8) : Prop :=
  (∃ d, t.topPlace tables bytes = .line d ∧ d < t.evictedBy tables bytes) ∨
    ∀ lines rows, lines.length = t.scrollback.len →
      (∀ line ∈ lines, line.length = t.scrollback.cols) →
      Shape rows t.grid.rowCount t.grid.cols →
      Returns ((t.withContents lines rows).feed tables bytes) fun t' =>
        t'.shownLine t'.windowStart.toNat =
          (t.withContents lines rows).shownLine t.windowStart.toNat

/-- A line of the screen is not written over, and the view starts where it is; a line of the
history is evicted, or nothing is stored, or all of the document is in view. -/
def TopKept (tables : UnicodeTables) (t : Terminal) (bytes : List UInt8) : Prop :=
  match t.topPlace tables bytes with
  | .row i => t.startAfter tables bytes =
      t.scrollback.len + t.storedBy tables bytes - t.evictedBy tables bytes + i
  | .line d => d < t.evictedBy tables bytes ∨ d < t.scrollback.len ∧
      (t.storedBy tables bytes = 0 ∨ t.evictedBy tables bytes = 0 ∧
        t.scrollback.len + t.storedBy tables bytes + t.grid.rowCount ≤
          t.visibleRows + min (min t.viewport.scrollOffset (t.scrollback.len + 1)) t.visibleRows)
  | .gone => False

theorem storedBy_eq (h : t.Valid) : t.storedBy tables bytes =
    if t.altGrid then 0 else t.grid.pen.scrolls tables (t.parser.feed bytes).2 := by
  obtain ⟨c, r, c₀, r₀, hs⟩ := h.sizes
  obtain ⟨⟨g, lines⟩, hg, -⟩ := hs.grid.write tables t.attrs (t.parser.feed bytes).2
  have hg' : t.written tables bytes = some (g, lines) := hg
  rw [storedBy, hg', Pen.scrolls, ← (hs.grid.write_drawn hg).length_out]
  rfl

theorem Kept.withContents (h : t.Kept) {lines rows : List Line}
    (hlen : lines.length = t.scrollback.len)
    (hcols : ∀ line ∈ lines, line.length = t.scrollback.cols)
    (hrows : Shape rows t.grid.rowCount t.grid.cols) : (t.withContents lines rows).Kept := by
  obtain ⟨c, r, c₀, r₀, hs⟩ := h.sizes
  have hg := hs.grid
  rw [hg.rowCount_eq, hg.cols_eq] at hrows
  have hgrid : Grid.Sized c r { t.grid with rows } := { hg with shape := hrows }
  exact ⟨⟨⟨c, r, c₀, r₀, hgrid, hs.saved, hs.altGrid⟩, h.capacity⟩,
    h.history.maxLines_eq, h.history.cols_pos, hlen.trans_le h.history.length, hcols⟩

/-- Blank lines, one of which is marked. -/
def markedAt (n cols i : ℕ) (fg : UInt32) : List Line :=
  (List.replicate n (blankLine cols)).set i
    (List.replicate cols ⟨'m', fg, 0, ⟨CellFlags.wide⟩, []⟩)

theorem markedAt_shape (n cols i : ℕ) (fg : UInt32) : Shape (markedAt n cols i fg) n cols := by
  refine ⟨by simp [markedAt], fun l hl => ?_⟩
  rcases List.mem_or_eq_of_mem_set hl with hl | rfl
  · rw [List.eq_of_mem_replicate hl, length_blankLine]
  · exact List.length_replicate

theorem markedAt_marked {n cols i j : ℕ} {fg : UInt32} {l : Line} (hcols : 0 < cols)
    (hl : (markedAt n cols i fg)[j]? = some l) (hl' : Marked fg l) : j = i := by
  by_contra hne
  rw [markedAt, List.getElem?_set_ne (Ne.symm hne)] at hl
  rw [List.eq_of_mem_replicate (List.mem_of_getElem? hl)] at hl'
  exact blankLine_not_marked hcols hl'

theorem getElem?_markedAt {n i : ℕ} (cols : ℕ) (fg : UInt32) (hi : i < n) :
    ∃ l, (markedAt n cols i fg)[i]? = some l ∧ l.length = cols ∧ Marked fg l := by
  refine ⟨_, List.getElem?_set_self (by simpa using hi), List.length_replicate, fun c hc => ?_⟩
  have hwide : CellFlags.contains ⟨CellFlags.wide⟩ CellFlags.wide = true := by decide
  rw [List.eq_of_mem_replicate hc]
  exact ⟨rfl, rfl, hwide⟩

theorem withContents_counts (tables : UnicodeTables) (bytes : List UInt8) (hk : t.Kept)
    {lines rows : List Line}
    (hlen : lines.length = t.scrollback.len)
    (hk' : (t.withContents lines rows).Kept) :
    (t.withContents lines rows).evictedBy tables bytes = t.evictedBy tables bytes ∧
      (t.withContents lines rows).startAfter tables bytes = t.startAfter tables bytes := by
  have hlen' : (t.withContents lines rows).scrollback.len = t.scrollback.len := hlen
  have hstored : (t.withContents lines rows).storedBy tables bytes = t.storedBy tables bytes := by
    rw [storedBy_eq hk.toValid, storedBy_eq hk'.toValid]
    rfl
  have hevicted : (t.withContents lines rows).evictedBy tables bytes =
      t.evictedBy tables bytes := by
    rw [evictedBy, evictedBy, hlen', hstored]
    rfl
  refine ⟨hevicted, ?_⟩
  rw [startAfter, startAfter, hevicted, offsetAfter, offsetAfter, hlen', hstored]
  rfl

/-- What is shown at a row of the document after text, whatever the lines are. -/
theorem Kept.feed_shownLine (hk : t.Kept) (tables : UnicodeTables)
    (hread : t.viewport.followOutput = false)
    (hplain : t.PlainText bytes) {lines rows : List Line}
    (hlen : lines.length = t.scrollback.len)
    (hcols : ∀ line ∈ lines, line.length = t.scrollback.cols)
    (hrows : Shape rows t.grid.rowCount t.grid.cols) : ∃ rows' out kept,
      Drawn t.attrs t.grid.region (t.textStrokes tables bytes) rows rows' out ∧
      kept.length = t.storedBy tables bytes ∧
      (∀ l ∈ kept, ∃ l', l = normalise t.scrollback.cols l') ∧
      Returns ((t.withContents lines rows).feed tables bytes) fun t' =>
        t'.windowStart.toNat = t.startAfter tables bytes ∧
        ∀ doc, t'.shownLine doc =
          if doc < t.scrollback.len + t.storedBy tables bytes - t.evictedBy tables bytes then
            some (((lines ++ kept)[t.evictedBy tables bytes + doc]?).getD [])
          else rows'[doc - (t.scrollback.len + t.storedBy tables bytes -
            t.evictedBy tables bytes)]? := by
  have hk' := hk.withContents hlen hcols hrows
  obtain ⟨hevicted, hstart⟩ := withContents_counts tables bytes hk hlen hk'
  obtain ⟨g, out, hg, hdrawn, t', hfeed, hhistory, hgrid, hwindow⟩ :=
    feed_shown tables hk' hread hplain
  rw [hevicted] at hhistory
  rw [hstart] at hwindow
  have hkept : ((t.withContents lines rows).keptLines out).length = t.storedBy tables bytes := by
    rw [storedBy_eq hk.toValid, keptLines, Pen.scrolls]
    have hout : out.length = _ := hdrawn.length_out
    split
    next halt => rw [if_pos (show t.altGrid = true from halt), List.length_nil]
    next hmain =>
      rw [if_neg (show ¬ t.altGrid = true from hmain), List.length_map, hout]
      rfl
  refine ⟨g.rows, out, (t.withContents lines rows).keptLines out, hdrawn, hkept, ?_, t', hfeed,
    hwindow, fun doc => ?_⟩
  · intro l hl
    rw [keptLines] at hl
    split at hl
    · cases hl
    · obtain ⟨l', -, rfl⟩ := List.mem_map.mp hl
      exact ⟨l', rfl⟩
  · have hlen' : t'.scrollback.len =
        t.scrollback.len + t.storedBy tables bytes - t.evictedBy tables bytes := by
      rw [Scrollback.len, hhistory, List.length_drop, List.length_append, hkept]
      exact congrArg (· + _ - _) hlen
    rw [shownLine, hlen', Scrollback.fromTop, hhistory, List.getElem?_drop, Grid.line, hgrid]
    rfl

/-- The view starts with the same line of the history exactly if nothing is stored, or all of the
document is in view. -/
theorem Kept.start_iff (hk : t.Kept) (hhistory : t.windowStart.toNat < t.scrollback.len)
    (hstays : t.evictedBy tables bytes ≤ t.windowStart.toNat) :
    t.evictedBy tables bytes + t.startAfter tables bytes = t.windowStart.toNat ↔
      t.storedBy tables bytes = 0 ∨ t.evictedBy tables bytes = 0 ∧
        t.scrollback.len + t.storedBy tables bytes + t.grid.rowCount ≤
          t.visibleRows + min (min t.viewport.scrollOffset (t.scrollback.len + 1))
            t.visibleRows := by
  have hlen : t.scrollback.len ≤ t.scrollback.maxLines :=
    hk.history.length.trans_eq hk.history.maxLines_eq.symm
  have hevicted : t.evictedBy tables bytes = t.scrollback.len + t.storedBy tables bytes -
    t.scrollback.maxLines := rfl
  have hstart := t.windowStart_toNat
  rcases Nat.eq_zero_or_pos (t.storedBy tables bytes) with hnone | hsome
  · have hzero : t.evictedBy tables bytes = 0 := by omega
    rw [startAfter, offsetAfter, if_pos hnone, hnone, hzero, hstart]
    simp
  · -- the view does not go further back, so it moves down unless it starts with the document
    obtain ⟨o, ho, hle⟩ : ∃ o, o = t.offsetAfter tables bytes ∧
        min o t.visibleRows ≤ min t.viewport.scrollOffset t.visibleRows := by
      refine ⟨_, rfl, min_le_min_right _ ?_⟩
      rw [offsetAfter, if_neg hsome.ne']
      exact min_le_left _ _
    rw [startAfter, ← ho]
    generalize hbefore : min t.viewport.scrollOffset t.visibleRows = before at hstart hle
    rcases Nat.eq_zero_or_pos (t.evictedBy tables bytes) with hzero | hpos
    · have hoffset : o = min t.viewport.scrollOffset (t.scrollback.len + 1) := by
        rw [ho, offsetAfter, if_neg hsome.ne', min_eq_left (a := t.scrollback.len + 1) (by omega)]
      rw [← hoffset]
      omega
    · omega

/-- The line at the top of the view, marked as the only one, is where the view starts. -/
theorem Kept.topKept_of_marked (hk : t.Kept) (hpane : 0 < t.visibleRows)
    (hread : t.viewport.followOutput = false) (hplain : t.PlainText bytes)
    (hstays : ∀ lines rows, lines.length = t.scrollback.len →
      (∀ line ∈ lines, line.length = t.scrollback.cols) →
      Shape rows t.grid.rowCount t.grid.cols →
      Returns ((t.withContents lines rows).feed tables bytes) fun t' =>
        t'.shownLine t'.windowStart.toNat =
          (t.withContents lines rows).shownLine t.windowStart.toNat) :
    t.TopKept tables bytes := by
  obtain ⟨c, r, c₀, r₀, hs⟩ := hk.sizes
  have hg := hs.grid
  have hcols : 0 < t.grid.cols := hg.cols_pos.trans_eq hg.cols_eq.symm
  have hfits := hk.history
  have hlen : t.scrollback.len ≤ t.scrollback.maxLines :=
    hfits.length.trans_eq hfits.maxLines_eq.symm
  have hstart := t.windowStart_toNat
  have hrowCount : 0 < t.grid.rowCount := hg.rows_pos.trans_eq hg.rowCount_eq.symm
  obtain ⟨fg, hfg⟩ : ∃ fg : UInt32, fg ≠ t.attrs.fg := by
    by_cases hzero : t.attrs.fg = 0
    · exact ⟨1, by rw [hzero]; decide⟩
    · exact ⟨0, Ne.symm hzero⟩
  obtain ⟨start, hstart'⟩ : ∃ start, t.windowStart.toNat = start := ⟨_, rfl⟩
  obtain ⟨i, hi⟩ : ∃ i, i = if start < t.scrollback.len then t.grid.rowCount
    else start - t.scrollback.len := ⟨_, rfl⟩
  rw [hstart'] at hstart
  have hlines := markedAt_shape t.scrollback.len t.scrollback.cols start fg
  have hrows := markedAt_shape t.grid.rowCount t.grid.cols i fg
  obtain ⟨rows', out, kept, hdrawn, hkeptlen, hkept, t', hfeed, hwindow, hdoc⟩ :=
    hk.feed_shownLine tables hread hplain hlines.1 hlines.2 hrows
  obtain ⟨_, hfeed', hsame⟩ := hstays _ _ hlines.1 hlines.2 hrows
  obtain rfl := Option.some_inj.mp (hfeed.symm.trans hfeed')
  rw [hwindow, hdoc, hstart'] at hsame
  have hmarked : ∃ l, (t.withContents (markedAt t.scrollback.len t.scrollback.cols start fg)
      (markedAt t.grid.rowCount t.grid.cols i fg)).shownLine start = some l ∧ Marked fg l := by
    have hlen' : (t.withContents (markedAt t.scrollback.len t.scrollback.cols start fg)
        (markedAt t.grid.rowCount t.grid.cols i fg)).scrollback.len = t.scrollback.len := hlines.1
    rw [shownLine, hlen']
    split
    next hhistory =>
      obtain ⟨l, hl, -, hmarked⟩ :=
        getElem?_markedAt t.scrollback.cols fg hhistory
      exact ⟨l, congrArg (fun l => some (Option.getD l [])) hl, hmarked⟩
    next hscreen =>
      rw [if_neg hscreen] at hi
      obtain ⟨l, hl, -, hmarked⟩ := getElem?_markedAt t.grid.cols fg
        (show i < t.grid.rowCount by omega)
      exact ⟨l, hi ▸ hl, hmarked⟩
  obtain ⟨l, hl, hl'⟩ := hmarked
  rw [hl] at hsame
  split at hsame
  next hhistory =>
    -- no line that is stored is marked, so this is the line of the history that was at the top
    obtain ⟨l₁, hl₁⟩ : ∃ l₁, (markedAt t.scrollback.len t.scrollback.cols start fg ++ kept)[
        t.evictedBy tables bytes + t.startAfter tables bytes]? = some l₁ := by
      refine ⟨_, List.getElem?_eq_getElem ?_⟩
      rw [List.length_append, hlines.1, hkeptlen]
      omega
    rw [hl₁, Option.getD_some, Option.some_inj] at hsame
    subst hsame
    rw [List.getElem?_append] at hl₁
    split at hl₁
    next hlt =>
      rw [hlines.1] at hlt
      have hat := markedAt_marked hfits.cols_pos hl₁ hl'
      rw [hat] at hlt
      have hplace : t.topPlace tables bytes = .line start := by
        rw [topPlace, hstart', if_pos hlt]
      rw [TopKept, hplace]
      rw [← hstart'] at hat hlt ⊢
      exact .inr ⟨hlt, (hk.start_iff hlt (Nat.le.intro hat)).mp hat⟩
    next =>
      obtain ⟨l', rfl⟩ := hkept _ (List.mem_of_getElem? hl₁)
      exact absurd hl' (normalise_not_marked hfits.cols_pos l')
  next hscreen =>
    -- no line of the history is on the screen, so this is the row that was at the top
    have hbottom : t.grid.region.bottom < (markedAt t.grid.rowCount t.grid.cols i fg).length := by
      rw [hrows.1, hg.rowCount_eq]
      exact hg.region.2
    have hmarked (j : ℕ) (l : Line) (hl : (markedAt t.grid.rowCount t.grid.cols i fg)[j]? = some l)
        (hl' : Marked fg l) : ¬ start < t.scrollback.len ∧ j = start - t.scrollback.len := by
      have hj := markedAt_marked hcols hl hl'
      have hlt := (List.getElem?_eq_some_iff.mp hl).1
      rw [hrows.1] at hlt
      split at hi
      · omega
      next hge => exact ⟨hge, hj.trans hi⟩
    by_cases hhistory : start < t.scrollback.len
    · have hgone := hdrawn.place_of_marked none .gone hg.region.1 hbottom
        hcols hfg (fun j l hl hl' => absurd hhistory (hmarked j l hl hl').1) hsame hl'
      cases Place.follow_gone.symm.trans hgone
    · have hrow : t.topPlace tables bytes = .row (t.startAfter tables bytes -
          (t.scrollback.len + t.storedBy tables bytes - t.evictedBy tables bytes)) := by
        rw [topPlace, hstart', if_neg hhistory]
        exact hdrawn.place_of_marked _ _ hg.region.1 hbottom hcols hfg
          (fun j l hl hl' => by rw [(hmarked j l hl hl').2]) hsame hl'
      rw [TopKept, hrow]
      dsimp only
      omega

theorem Kept.topStays_of_kept (hk : t.Kept)
    (hread : t.viewport.followOutput = false) (hplain : t.PlainText bytes)
    (hkept : t.TopKept tables bytes) : t.TopStays tables bytes := by
  obtain ⟨c, r, c₀, r₀, hs⟩ := hk.sizes
  have hg := hs.grid
  have hfits := hk.history
  have hlen : t.scrollback.len ≤ t.scrollback.maxLines :=
    hfits.length.trans_eq hfits.maxLines_eq.symm
  have hstart := t.windowStart_toNat
  have hrowCount : 0 < t.grid.rowCount := hg.rows_pos.trans_eq hg.rowCount_eq.symm
  cases hplace : t.topPlace tables bytes with
  | gone =>
    rw [TopKept, hplace] at hkept
    cases hkept
  | row i =>
    rw [TopKept, hplace] at hkept
    refine .inr fun lines rows hlines hcols hrows => ?_
    obtain ⟨rows', out, kept, hdrawn, -, -, hshown⟩ :=
      hk.feed_shownLine tables hread hplain hlines hcols hrows
    refine hshown.mono fun t' ⟨hwindow, hdoc⟩ => ?_
    rw [topPlace] at hplace
    split at hplace
    next => cases hplace
    next hscreen =>
      have hbottom : t.grid.scrollBottom < rows.length := by
        rw [hrows.1, hg.rowCount_eq]
        exact hg.region.2
      have hsame := hdrawn.getElem?_row hg.region.1 hbottom hplace
      rw [hwindow, hkept, hdoc, if_neg (by omega), Nat.add_sub_cancel_left, hsame]
      have hlen' : (t.withContents lines rows).scrollback.len = t.scrollback.len := hlines
      rw [shownLine, hlen', if_neg hscreen]
      rfl
  | line d =>
    rw [TopKept, hplace] at hkept
    rcases hkept with hevicted | ⟨hd, hkept⟩
    · exact .inl ⟨d, hplace, hevicted⟩
    · refine .inr fun lines rows hlines hcols hrows => ?_
      obtain ⟨rows', out, kept, hdrawn, hkeptlen, -, hshown⟩ :=
        hk.feed_shownLine tables hread hplain hlines hcols hrows
      refine hshown.mono fun t' ⟨hwindow, hdoc⟩ => ?_
      have hhistory : t.windowStart.toNat < t.scrollback.len := by
        rw [topPlace] at hplace
        split at hplace
        next hlt => exact hlt
        next hscreen =>
          obtain ⟨n, hn, hle⟩ := Place.le_of_follow_row hplace
          split at hn
          · cases hn
          · cases hn
            omega
      have hmoved : t.evictedBy tables bytes + t.startAfter tables bytes = t.windowStart.toNat ∧
          t.startAfter tables bytes < t.scrollback.len + t.storedBy tables bytes -
            t.evictedBy tables bytes := by
        have hevicted : t.evictedBy tables bytes = t.scrollback.len + t.storedBy tables bytes -
          t.scrollback.maxLines := rfl
        have hzero : t.evictedBy tables bytes = 0 := by omega
        have hsame := (hk.start_iff hhistory (by omega)).mpr hkept
        exact ⟨hsame, by omega⟩
      have hlen' : (t.withContents lines rows).scrollback.len = t.scrollback.len := hlines
      rw [hwindow, hdoc, if_pos hmoved.2, hmoved.1, List.getElem?_append_left (by omega),
        shownLine, hlen', if_pos hhistory]
      rfl

/-- The line at the top of the view stays exactly if it is a row of the screen that is not written
over and that the view starts with, or a line of the history that is evicted, or nothing is
stored, or all of the document is in view. -/
theorem topStays_iff (h : Reachable tables t) (hpane : 0 < t.visibleRows)
    (hread : t.viewport.followOutput = false) (hplain : t.PlainText bytes) :
    t.TopStays tables bytes ↔ t.TopKept tables bytes := by
  have hk := h.kept
  constructor
  · rintro (⟨d, hplace, hd⟩ | hstays)
    · rw [TopKept, hplace]
      exact .inl hd
    · exact hk.topKept_of_marked hpane hread hplain hstays
  · exact hk.topStays_of_kept hread hplain

/-- Two lines left a pane of two rows, and the view went back to the second. -/
def secondLine : List TerminalOp :=
  [.resize 64 64 (.ok ()), .feed [0x61, 0x0D, 0x0A, 0x62, 0x0D, 0x0A, 0x63, 0x0D, 0x0A],
    .scrollUp 1]

theorem secondLine_topStays_iff : ∃ t, Reachable asciiTables t ∧
    (t.TopStays asciiTables [0x0A] ↔ t.TopKept asciiTables [0x0A]) := by
  have hreach : Reachable asciiTables _ := ⟨.default, fontCells, _, secondLine, rfl, rfl⟩
  exact ⟨_, hreach, topStays_iff hreach (by decide) rfl (by unfold PlainText; decide)⟩

/-- A line feed brings the next line to the top of the view. -/
theorem secondLine_not_stays : ∃ t t', Reachable asciiTables t ∧ 0 < t.visibleRows ∧
    t.viewport.followOutput = false ∧ t.PlainText [0x0A] ∧
    t.evictedBy asciiTables [0x0A] = 0 ∧ t.feed asciiTables [0x0A] = some t' ∧
    t'.shownLine t'.windowStart.toNat ≠ t.shownLine t.windowStart.toNat :=
  ⟨_, _, ⟨.default, fontCells, _, secondLine, rfl, rfl⟩, by decide, rfl,
    by unfold PlainText; decide, by decide, rfl, by decide⟩

end Terminal

end Ferrokey.Terminal
