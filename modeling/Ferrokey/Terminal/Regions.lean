import Ferrokey.Collections.Segments
import Ferrokey.Terminal.Appending

/-! # What scrolls stay within

A scroll inserts blank rows at one place and removes rows at another, so the rows between
the two places slide. Scrolls of the region slide its rows. Lines that are inserted and
deleted slide the rows between the cursor and the bottom of the region, on whatever side
of it the cursor is.
-/

set_option linter.dupNamespace false

namespace Ferrokey.Terminal

open Collections

open Terminal (asciiTables)

section Rotation

variable {blank : Line} {top bottom lo hi : ℕ}
  {slide : ℕ → List Line → List Line}

/-- Rows that are removed at one place and inserted at another, several times. -/
theorem rotateUp_eq (rows : List Line) (hs : IsSlide slide) (hlo : lo ≤ hi)
    (hhi : hi ≤ rows.length) (htop : top < rows.length) (hbottom : bottom < rows.length)
    (hstep : ∀ rows' : List Line, rows'.length = rows.length →
      (rows'.eraseIdx top).insertIdx bottom blank = onSegment lo hi (slide 1) rows') (n : ℕ) :
    ∃ out, rotateUp top bottom blank n rows = some (onSegment lo hi (slide n) rows, out) ∧
      out.length = n := by
  induction n generalizing rows with
  | zero =>
    have hzero : slide 0 = id := funext hs.zero
    exact ⟨[], by rw [hzero, onSegment_id hlo]; rfl, rfl⟩
  | succ n ih =>
    have hlen : (onSegment lo hi (slide 1) rows).length = rows.length :=
      length_onSegment (hs.length 1) hlo hhi
    obtain ⟨out, hout, hn⟩ := ih (onSegment lo hi (slide 1) rows) (hlen ▸ hhi)
      (hlen ▸ htop) (hlen ▸ hbottom) (fun rows' h => hstep rows' (h.trans hlen))
    have hinsert : bottom ≤ (rows.eraseIdx top).length := by
      rw [List.length_eraseIdx_of_lt htop]
      omega
    refine ⟨rows[top] :: out, ?_, by rw [List.length_cons, hn]⟩
    simp only [rotateUp, Checked.remove_eq htop, Checked.insert_eq hinsert, hstep rows rfl,
      Option.bind_eq_bind, Option.bind_some, hout]
    rw [onSegment_onSegment (hs.length 1) hlo hhi]
    simp only [hs.succ]

/-- Rows that are inserted at one place and removed at another, several times. -/
theorem rotateDown_eq (rows : List Line) (hs : IsSlide slide) (hlo : lo ≤ hi)
    (hhi : hi ≤ rows.length) (htop : top < rows.length) (hbottom : bottom < rows.length)
    (hstep : ∀ rows' : List Line, rows'.length = rows.length →
      (rows'.insertIdx top blank).eraseIdx (bottom + 1) = onSegment lo hi (slide 1) rows') (n : ℕ) :
    rotateDown top bottom blank n rows = some (onSegment lo hi (slide n) rows) := by
  induction n generalizing rows with
  | zero =>
    have hzero : slide 0 = id := funext hs.zero
    rw [hzero, onSegment_id hlo]
    rfl
  | succ n ih =>
    have hlen : (onSegment lo hi (slide 1) rows).length = rows.length :=
      length_onSegment (hs.length 1) hlo hhi
    have hrest := ih (onSegment lo hi (slide 1) rows) (hlen ▸ hhi) (hlen ▸ htop)
      (hlen ▸ hbottom) (fun rows' h => hstep rows' (h.trans hlen))
    have hremove : bottom + 1 < (rows.insertIdx top blank).length := by
      rw [List.length_insertIdx_of_le_length htop.le]
      omega
    simp only [rotateDown, Checked.insert_eq htop.le, Checked.remove_eq hremove, hstep rows rfl,
      Option.bind_eq_bind, Option.bind_some, hrest]
    rw [onSegment_onSegment (hs.length 1) hlo hhi]
    simp only [hs.succ]

end Rotation

namespace Grid

variable {g : Grid} {c r n : ℕ}

/-- The row is in the scroll region. -/
def InRegion (g : Grid) (row : ℕ) : Prop := g.scrollTop ≤ row ∧ row ≤ g.scrollBottom

instance (g : Grid) (row : ℕ) : Decidable (g.InRegion row) := inferInstanceAs (Decidable (_ ∧ _))

/-- The count that a scroll comes to. -/
def regionLines (g : Grid) (n : ℕ) : ℕ := min n (g.scrollBottom - g.scrollTop + 1)

/-- Rows with a segment that has been changed, on a screen to be painted anew. -/
def slid (g : Grid) (lo hi : ℕ) (f : List Line → List Line) : Grid :=
  { g with rows := onSegment lo hi f g.rows, dirtyAll := true }

theorem Sized.regionCount_eq (h : g.Sized c r) (n : ℕ) :
    g.regionCount n = some (g.regionLines n) := by
  simp [Grid.regionCount, Checked.sub_eq h.region.1, regionLines]

theorem regionLines_eq_zero : g.regionLines n = 0 ↔ n = 0 := by
  unfold regionLines
  omega

theorem Sized.scrollUpRegion_eq (h : g.Sized c r) (n : ℕ) : ∃ out, g.scrollUpRegion n =
    some (g.slid g.scrollTop (g.scrollBottom + 1) (slideUp (g.regionLines n) (blankLine g.cols)),
      out) ∧ out.length = g.regionLines n := by
  obtain ⟨htop, hbottom⟩ := h.region
  have hlen := h.shape.1
  obtain ⟨out, hout, hn⟩ := rotateUp_eq g.rows (isSlide_up (blankLine g.cols))
    (Nat.le_succ_of_le htop) (by omega) (by omega) (by omega)
    (fun rows' h' => insertIdx_eraseIdx_of_le htop (by omega)) (g.regionLines n)
  exact ⟨out, by simp [Grid.scrollUpRegion, h.regionCount_eq, hout, slid], hn⟩

theorem Sized.scrollDownRegion_eq (h : g.Sized c r) (n : ℕ) : g.scrollDownRegion n =
    some (g.slid g.scrollTop (g.scrollBottom + 1)
      (slideDown (g.regionLines n) (blankLine g.cols))) := by
  obtain ⟨htop, hbottom⟩ := h.region
  have hlen := h.shape.1
  have hrotate := rotateDown_eq g.rows (isSlide_down (blankLine g.cols))
    (Nat.le_succ_of_le htop) (by omega) (by omega) (by omega)
    (fun rows' h' => eraseIdx_insertIdx_of_le htop (by omega)) (g.regionLines n)
  simp [Grid.scrollDownRegion, h.regionCount_eq, hrotate, slid]

/-! ### Lines that are inserted and deleted -/

/-- The rows that slide when lines are inserted. -/
def insertSpan (g : Grid) : ℕ × ℕ :=
  if g.cursor.row ≤ g.scrollBottom then (g.cursor.row, g.scrollBottom + 1)
  else (g.scrollBottom + 1, g.cursor.row)

/-- The rows that slide when lines are deleted. -/
def deleteSpan (g : Grid) : ℕ × ℕ :=
  if g.cursor.row ≤ g.scrollBottom then (g.cursor.row, g.scrollBottom + 1)
  else (g.scrollBottom, g.cursor.row + 1)

/-- Rows of the screen which, with the cursor in the region, begin at the cursor and end with the
region. -/
structure LineSpan (g : Grid) (r lo hi : ℕ) : Prop where
  ordered : lo ≤ hi
  within : hi ≤ r
  inRegion : g.InRegion g.cursor.row → lo = g.cursor.row ∧ hi = g.scrollBottom + 1

theorem Sized.insertSpan_spec (h : g.Sized c r) : LineSpan g r g.insertSpan.1 g.insertSpan.2 := by
  have hrow := h.cursor.1
  have hbottom := h.region.2
  unfold insertSpan
  split
  · exact ⟨by dsimp only; omega, hbottom, fun _ => ⟨rfl, rfl⟩⟩
  next hlt => exact ⟨by dsimp only; omega, hrow.le, fun hin => absurd hin.2 hlt⟩

theorem Sized.deleteSpan_spec (h : g.Sized c r) : LineSpan g r g.deleteSpan.1 g.deleteSpan.2 := by
  have hrow := h.cursor.1
  have hbottom := h.region.2
  unfold deleteSpan
  split
  · exact ⟨by dsimp only; omega, hbottom, fun _ => ⟨rfl, rfl⟩⟩
  next hlt => exact ⟨by dsimp only; omega, hrow, fun hin => absurd hin.2 hlt⟩

/-- A segment slides by some lines, in the one direction or the other. -/
structure SlidesBy (n : ℕ) (blank : Line) (f : List Line → List Line) : Prop where
  length : ∀ s, (f s).length = s.length
  eq_self_iff : ∀ s, f s = s ↔ n = 0 ∨ ∀ line ∈ s, line = blank

theorem slidesBy_down (g : Grid) (n : ℕ) (blank : Line) :
    SlidesBy n blank (slideDown (g.regionLines n) blank) where
  length _ := length_slideDown
  eq_self_iff _ := by rw [slideDown_eq_self_iff, regionLines_eq_zero]

theorem slidesBy_up (g : Grid) (n : ℕ) (blank : Line) :
    SlidesBy n blank (slideUp (g.regionLines n) blank) where
  length _ := length_slideUp
  eq_self_iff _ := by rw [slideUp_eq_self_iff, regionLines_eq_zero]

theorem Sized.insertLines_eq (h : g.Sized c r) (n : ℕ) : ∃ f,
    SlidesBy n (blankLine g.cols) f ∧
      g.insertLines n = some (g.slid g.insertSpan.1 g.insertSpan.2 f) := by
  have hbottom := h.region.2
  have hrow := h.cursor.1
  have hlen := h.shape.1
  by_cases hle : g.cursor.row ≤ g.scrollBottom
  · have hrotate := rotateDown_eq g.rows (isSlide_down (blankLine g.cols))
      (Nat.le_succ_of_le hle) (by omega) (by omega) (by omega)
      (fun rows' h' => eraseIdx_insertIdx_of_le hle (by omega)) (g.regionLines n)
    refine ⟨_, g.slidesBy_down n _, ?_⟩
    simp [Grid.insertLines, h.regionCount_eq, hrotate, slid, insertSpan, hle, markAllDirty]
  · have hlt := not_le.mp hle
    have hrotate := rotateDown_eq g.rows (isSlide_up (blankLine g.cols))
      (Nat.succ_le_of_lt hlt) (by omega) (by omega) (by omega)
      (fun rows' h' => eraseIdx_insertIdx_of_lt hlt (by omega)) (g.regionLines n)
    refine ⟨_, g.slidesBy_up n _, ?_⟩
    simp [Grid.insertLines, h.regionCount_eq, hrotate, slid, insertSpan, hle, markAllDirty]

theorem Sized.deleteLines_eq (h : g.Sized c r) (n : ℕ) : ∃ f out,
    SlidesBy n (blankLine g.cols) f ∧
      g.deleteLines n = some (g.slid g.deleteSpan.1 g.deleteSpan.2 f, out) := by
  have hbottom := h.region.2
  have hrow := h.cursor.1
  have hlen := h.shape.1
  by_cases hle : g.cursor.row ≤ g.scrollBottom
  · obtain ⟨out, hrotate, -⟩ := rotateUp_eq g.rows (isSlide_up (blankLine g.cols))
      (Nat.le_succ_of_le hle) (by omega) (by omega) (by omega)
      (fun rows' h' => insertIdx_eraseIdx_of_le hle (by omega)) (g.regionLines n)
    refine ⟨_, out, g.slidesBy_up n _, ?_⟩
    simp [Grid.deleteLines, h.regionCount_eq, hrotate, slid, deleteSpan, hle, markAllDirty]
  · have hlt := not_le.mp hle
    obtain ⟨out, hrotate, -⟩ := rotateUp_eq g.rows (isSlide_down (blankLine g.cols))
      (hlt.le.trans (Nat.le_succ _)) (by omega) (by omega) (by omega)
      (fun rows' h' => insertIdx_eraseIdx_of_lt hlt (by omega)) (g.regionLines n)
    refine ⟨_, out, g.slidesBy_down n _, ?_⟩
    simp [Grid.deleteLines, h.regionCount_eq, hrotate, slid, deleteSpan, hle, markAllDirty]

/-! ### Which rows change -/

/-- What scrolls rows, inserts them or deletes them. -/
inductive ScrollOp where
  | index
  | lineFeed
  | nextLine
  | reverseIndex
  | scrollUp (n : ℕ)
  | scrollDown (n : ℕ)
  | insertLines (n : ℕ)
  | deleteLines (n : ℕ)
  deriving DecidableEq

/-- Insert or delete lines. -/
def ScrollOp.editsLines : ScrollOp → Bool
  | .insertLines _ | .deleteLines _ => true
  | _ => false

/-- Move down by a row, or scroll. -/
def ScrollOp.feeds : ScrollOp → Bool
  | .index | .lineFeed => true
  | _ => false

/-- What an operation leads to, and the lines that it returns. -/
def scroll (g : Grid) : ScrollOp → Option (Grid × List Line)
  | .index => g.index.map fun out => (out.1, out.2.toList)
  | .lineFeed => g.lineFeed.map fun out => (out.1, out.2.toList)
  | .nextLine => g.nextLine.map fun out => (out.1, out.2.toList)
  | .reverseIndex => g.reverseIndex.map (·, [])
  | .scrollUp n => g.scrollUp n
  | .scrollDown n => (g.scrollDown n).map (·, [])
  | .insertLines n => (g.insertLines n).map (·, [])
  | .deleteLines n => g.deleteLines n

/-- An operation keeps to the scroll region. -/
structure Confined (g : Grid) (op : ScrollOp) (out : Grid × List Line) : Prop where
  outside : ∀ row, ¬ g.InRegion row → out.1.rows[row]? = g.rows[row]?
  still : op.editsLines = true → ¬ g.InRegion g.cursor.row → out.1 = g
  below : op.editsLines = true → g.InRegion g.cursor.row →
    (∃ rows, out.1 = { g with rows, dirtyAll := true }) ∧
      ∀ row, row < g.cursor.row ∨ g.scrollBottom < row → out.1.rows[row]? = g.rows[row]?
  /-- Only at the bottom of the region do rows change or does a line leave. -/
  scrolls : op.feeds = true → out.1.rows ≠ g.rows ∨ out.2 ≠ [] → g.cursor.row = g.scrollBottom

/-- Outside the region nothing slides. -/
def MeetsRegion (g : Grid) : ScrollOp → Prop
  | .index | .lineFeed => g.cursor.row ≤ g.scrollBottom
  | .insertLines n => g.InRegion g.cursor.row ∨ g.dirtyAll = true ∧
      (n = 0 ∨ ∀ line ∈ segment g.insertSpan.1 g.insertSpan.2 g.rows, line = blankLine g.cols)
  | .deleteLines n => g.InRegion g.cursor.row ∨ g.dirtyAll = true ∧
      (n = 0 ∨ ∀ line ∈ segment g.deleteSpan.1 g.deleteSpan.2 g.rows, line = blankLine g.cols)
  | .nextLine | .reverseIndex | .scrollUp _ | .scrollDown _ => True

variable {op : ScrollOp} {out : Grid × List Line} {lo hi : ℕ} {f : List Line → List Line}

theorem slid_eq_self_iff : g.slid lo hi f = g ↔
    g.dirtyAll = true ∧ onSegment lo hi f g.rows = g.rows := by
  constructor
  · exact fun h => ⟨(congrArg dirtyAll h).symm, congrArg rows h⟩
  · rintro ⟨hdirty, hrows⟩
    rw [slid, hrows, ← hdirty]

theorem Sized.slid_region (h : g.Sized c r) (hf : ∀ s, (f s).length = s.length) {row : ℕ}
    (hrow : ¬ g.InRegion row) :
    (g.slid g.scrollTop (g.scrollBottom + 1) f).rows[row]? = g.rows[row]? := by
  have hregion := h.region
  have hlen := h.shape.1
  apply getElem?_onSegment_of_not_mem hf (by omega) (by omega)
  unfold InRegion at hrow
  omega

theorem Confined.of_outside (hedits : op.editsLines = false) (hfeeds : op.feeds = false)
    (h : ∀ row, ¬ g.InRegion row → out.1.rows[row]? = g.rows[row]?) : Confined g op out where
  outside := h
  still he := absurd he (by simp [hedits])
  below he := absurd he (by simp [hedits])
  scrolls hs := absurd hs (by simp [hfeeds])

/-- Lines that are inserted or deleted keep to the region if the cursor is in it, and otherwise
if there is nothing to see of it. -/
theorem Sized.lines_confined_iff (h : g.Sized c r) (hedits : op.editsLines = true)
    (hfeeds : op.feeds = false) (hf : SlidesBy n (blankLine g.cols) f) (hspan : LineSpan g r lo hi)
    (hout : out.1 = g.slid lo hi f) : Confined g op out ↔
      g.InRegion g.cursor.row ∨ g.dirtyAll = true ∧
        (n = 0 ∨ ∀ line ∈ segment lo hi g.rows, line = blankLine g.cols) := by
  have hlen := h.shape.1
  obtain ⟨hlo, hhi, hin⟩ := hspan
  by_cases hrow : g.InRegion g.cursor.row
  · obtain ⟨rfl, rfl⟩ := hin hrow
    have hrows : ∀ row, row < g.cursor.row ∨ g.scrollBottom < row →
        out.1.rows[row]? = g.rows[row]? := by
      intro row hrow
      rw [hout]
      exact getElem?_onSegment_of_not_mem hf.length hlo (by omega) hrow
    refine iff_of_true ⟨fun row hout => hrows row ?_, ?_, ?_, ?_⟩ (.inl hrow)
    · unfold InRegion at hrow hout
      omega
    · exact fun _ hnot => absurd hrow hnot
    · exact fun _ _ => ⟨⟨_, hout⟩, hrows⟩
    · exact fun hs => absurd hs (by simp [hfeeds])
  · have hself : out.1 = g ↔ g.dirtyAll = true ∧
        (n = 0 ∨ ∀ line ∈ segment lo hi g.rows, line = blankLine g.cols) := by
      rw [hout, slid_eq_self_iff, onSegment_eq_self_iff hlo, hf.eq_self_iff]
    rw [or_iff_right hrow, ← hself]
    constructor
    · exact fun hc => hc.still hedits hrow
    · intro heq
      refine ⟨fun _ _ => by rw [heq], fun _ _ => heq, fun _ hin => absurd hin hrow, ?_⟩
      exact fun hs => absurd hs (by simp [hfeeds])

theorem Sized.index_outside (h : g.Sized c r) : Returns g.index fun out =>
    (∀ row, ¬ g.InRegion row → out.1.rows[row]? = g.rows[row]?) ∧
      (out.1.rows ≠ g.rows ∨ out.2 ≠ none ↔ g.scrollBottom ≤ g.cursor.row) := by
  have h' := h.noWrap
  unfold Grid.index
  dsimp only
  split
  next hlt =>
    refine .pure ⟨fun _ _ => rfl, iff_of_false ?_ (not_le.mpr hlt)⟩
    simp
  next hge =>
    obtain ⟨out, hout, hlines⟩ := h'.scrollUpRegion_eq 1
    rw [hout]
    refine .pure ⟨fun row hrow => h'.slid_region (fun _ => length_slideUp) hrow, ?_⟩
    refine iff_of_true (.inr ?_) (not_lt.mp hge)
    -- one line leaves the region at least
    have hone : out.length ≠ 0 := by
      rw [hlines]
      exact regionLines_eq_zero.not.mpr one_ne_zero
    simpa using fun hnil => hone (List.length_eq_zero_iff.mpr hnil)

/-- A line feed keeps to the region exactly if the cursor is not below it. -/
theorem Sized.feed_confined_iff (h : g.Sized c r) (hfeeds : op.feeds = true)
    (hedits : op.editsLines = false) :
    Returns (g.index.map fun out => (out.1, out.2.toList)) fun out =>
      Confined g op out ↔ g.cursor.row ≤ g.scrollBottom := by
  apply h.index_outside.map
  rintro out ⟨houtside, hscrolls⟩
  have hscrolls' : out.1.rows ≠ g.rows ∨ out.2.toList ≠ [] ↔ g.scrollBottom ≤ g.cursor.row := by
    rw [← hscrolls, Ne.eq_def out.2.toList, Option.toList_eq_nil_iff]
  constructor
  · intro hc
    by_contra hlt
    exact hlt (hc.scrolls hfeeds (hscrolls'.mpr (by omega))).le
  · intro hle
    constructor
    · exact houtside
    · exact fun he => absurd he (by simp [hedits])
    · exact fun he => absurd he (by simp [hedits])
    · exact fun _ hs => hle.antisymm (hscrolls'.mp hs)

/-- An operation keeps to the scroll region exactly if the cursor is not below it, where it would
scroll, and is in it, where it would slide lines that are not all blank. -/
theorem Sized.scroll_confined_iff (h : g.Sized c r) (op : ScrollOp) :
    Returns (g.scroll op) fun out => Confined g op out ↔ g.MeetsRegion op := by
  cases op with
  | index => exact h.feed_confined_iff rfl rfl
  | lineFeed =>
    rw [scroll, h.lineFeed_eq_index]
    exact h.feed_confined_iff rfl rfl
  | nextLine =>
    rw [scroll, Grid.nextLine, h.carriageReturn.lineFeed_eq_index]
    apply h.carriageReturn.index_outside.map
    exact fun out hout => iff_of_true (.of_outside rfl rfl hout.1) trivial
  | reverseIndex =>
    have h' := h.noWrap
    unfold scroll Grid.reverseIndex
    dsimp only
    split
    · exact .pure (iff_of_true (.of_outside rfl rfl fun _ _ => rfl) trivial)
    · rw [h'.scrollDownRegion_eq]
      refine .pure (iff_of_true (.of_outside rfl rfl fun row hrow => ?_) trivial)
      exact h'.slid_region (fun _ => length_slideDown) hrow
  | scrollUp n =>
    obtain ⟨out, hout, -⟩ := h.scrollUpRegion_eq n
    refine .of_eq hout (iff_of_true (.of_outside rfl rfl fun row hrow => ?_) trivial)
    exact h.slid_region (fun _ => length_slideUp) hrow
  | scrollDown n =>
    rw [scroll, scrollDown, h.scrollDownRegion_eq]
    refine .pure (iff_of_true (.of_outside rfl rfl fun row hrow => ?_) trivial)
    exact h.slid_region (fun _ => length_slideDown) hrow
  | insertLines n =>
    obtain ⟨f, hf, hout⟩ := h.insertLines_eq n
    rw [scroll, hout]
    exact .pure (h.lines_confined_iff rfl rfl hf h.insertSpan_spec rfl)
  | deleteLines n =>
    obtain ⟨f, out, hf, hout⟩ := h.deleteLines_eq n
    exact .of_eq hout (h.lines_confined_iff rfl rfl hf h.deleteSpan_spec rfl)

/-- Three rows with a letter in the first one, above a region of the other two; setting the
region moves the cursor to the letter. -/
def letterAboveRegion : Option Grid := do
  let g ← (Grid.new 2 3).toOption
  let (g, _) ← g.print asciiTables 'a' .default
  g.setScrollRegion 1 2

theorem letterAboveRegion_sized : Returns letterAboveRegion (Sized 2 3) := by
  obtain ⟨g, hg, hs⟩ := new_sized (show sizeInBounds 2 3 = true from rfl)
  rw [letterAboveRegion, hg]
  apply (hs.print asciiTables 'a' .default).bind
  exact fun out hout => hout.setScrollRegion 1 2

theorem letterAboveRegion_confined_iff : Returns letterAboveRegion fun g =>
    Returns (g.scroll (.insertLines 1)) fun out =>
      Confined g (.insertLines 1) out ↔ g.MeetsRegion (.insertLines 1) :=
  letterAboveRegion_sized.mono fun _ h => h.scroll_confined_iff (.insertLines 1)

/-- A line that is inserted above the region moves the letter into it. -/
theorem insertAbove_not_confined : ∃ g out, letterAboveRegion = some g ∧
    g.scroll (.insertLines 1) = some out ∧ ¬ Confined g (.insertLines 1) out := by
  refine ⟨_, _, rfl, rfl, fun h => ?_⟩
  have hrow := h.outside 0 (by decide)
  revert hrow
  decide

end Grid

end Ferrokey.Terminal
