import Ferrokey.Terminal.Rendition
import Ferrokey.Terminal.Safety

/-! # Markers and intermediates of control sequences

Most final bytes run the same function whatever private marker and intermediates come
with them. A sequence that is marked and not named by the dispatcher is left without
effect only if its final byte has none, or its parameters keep it from having one.
-/

set_option linter.dupNamespace false

namespace Ferrokey.Terminal

open Protocol

/-! ### Traces on the grid -/

namespace Grid

/-- A grid on which something was done. -/
def Stirred (g : Grid) : Prop := g.wrapPending = false ∨ g.dirtyAll = true ∨ true ∈ g.dirty

variable {g g' : Grid}

theorem markDirtyRow_eq {row : ℕ} (h : g.markDirtyRow row = some g') (hrow : row < g.rowCount) :
    g'.dirty = g.dirty.set row true ∧ row < g.dirty.length := by
  rw [markDirtyRow, if_pos hrow] at h
  obtain ⟨dirty, hset, hg⟩ := Option.bind_eq_some_iff.mp h
  cases hg
  obtain ⟨hlt, hdirty⟩ := Option.ite_none_right_eq_some.mp hset
  exact ⟨(Option.some_inj.mp hdirty).symm, hlt⟩

theorem markDirtyRow_stirred {row : ℕ} (h : g.markDirtyRow row = some g')
    (hrow : row < g.rowCount) : g'.Stirred := by
  obtain ⟨hdirty, hlt⟩ := markDirtyRow_eq h hrow
  exact .inr (.inr (hdirty ▸ List.mem_set hlt true))

/-! Operations that move the cursor do away with a pending wrap. -/

theorem setCursor_stirred {row col : ℕ} (h : g.setCursor row col = some g') : g'.Stirred := by
  simp only [setCursor, Option.bind_eq_bind, Option.bind_eq_some_iff, Option.some.injEq] at h
  obtain ⟨_, -, _, -, rfl⟩ := h
  exact .inl rfl

theorem setScrollRegion_stirred {top bottom : ℕ} (h : g.setScrollRegion top bottom = some g') :
    g'.Stirred := by
  simp only [setScrollRegion, Option.bind_eq_bind, Option.bind_eq_some_iff] at h
  obtain ⟨_, -, h⟩ := h
  exact setCursor_stirred h

theorem moveCursor_stirred {drow dcol : ℤ} (h : g.moveCursor drow dcol = some g') :
    g'.Stirred := by
  simp only [moveCursor, Option.bind_eq_bind, Option.bind_eq_some_iff, Option.some.injEq] at h
  obtain ⟨_, -, _, -, rfl⟩ := h
  exact .inl rfl

theorem setCol_stirred {col : ℕ} (h : g.setCol col = some g') : g'.Stirred := by
  simp only [setCol, Option.bind_eq_bind, Option.bind_eq_some_iff, Option.some.injEq] at h
  obtain ⟨_, -, rfl⟩ := h
  exact .inl rfl

theorem setRow_stirred {row : ℕ} (h : g.setRow row = some g') : g'.Stirred := by
  simp only [setRow, Option.bind_eq_bind, Option.bind_eq_some_iff, Option.some.injEq] at h
  obtain ⟨_, -, rfl⟩ := h
  exact .inl rfl

theorem tab_stirred (h : g.tab = some g') : g'.Stirred := by
  simp only [tab, Option.bind_eq_bind, Option.bind_eq_some_iff, Option.some.injEq] at h
  obtain ⟨_, -, _, -, rfl⟩ := h
  exact .inl rfl

theorem backspaceToTab_stirred (h : g.backspaceToTab = some g') : g'.Stirred := by
  unfold backspaceToTab at h
  split at h
  · obtain ⟨_, -, hg⟩ := Option.bind_eq_some_iff.mp h
    cases hg
    exact .inl rfl
  · cases h
    exact .inl rfl

theorem restoreCursor_stirred (h : g.restoreCursor = some g') : g'.Stirred := by
  simp only [restoreCursor, Option.bind_eq_bind, Option.bind_eq_some_iff, Option.some.injEq] at h
  obtain ⟨_, -, rfl⟩ := h
  exact .inl rfl

/-! Operations that move or erase whole rows mark all of them as dirty. -/

theorem scrollUpRegion_stirred {n : ℕ} {out : Grid × List Line}
    (h : g.scrollUpRegion n = some out) : out.1.Stirred := by
  simp only [scrollUpRegion, Option.bind_eq_bind, Option.bind_eq_some_iff, Option.some.injEq] at h
  obtain ⟨_, -, _, -, rfl⟩ := h
  exact .inr (.inl rfl)

theorem scrollDownRegion_stirred {n : ℕ} (h : g.scrollDownRegion n = some g') : g'.Stirred := by
  simp only [scrollDownRegion, Option.bind_eq_bind, Option.bind_eq_some_iff,
    Option.some.injEq] at h
  obtain ⟨_, -, _, -, rfl⟩ := h
  exact .inr (.inl rfl)

theorem insertLines_stirred {n : ℕ} (h : g.insertLines n = some g') : g'.Stirred := by
  simp only [insertLines, Option.bind_eq_bind, Option.bind_eq_some_iff, Option.some.injEq] at h
  obtain ⟨_, -, _, -, rfl⟩ := h
  exact .inr (.inl rfl)

theorem deleteLines_stirred {n : ℕ} (h : (g.deleteLines n).map Prod.fst = some g') :
    g'.Stirred := by
  simp only [deleteLines, Option.bind_eq_bind, Option.map_eq_some_iff, Option.bind_eq_some_iff,
    Option.some.injEq] at h
  obtain ⟨_, ⟨_, -, _, -, rfl⟩, rfl⟩ := h
  exact .inr (.inl rfl)

theorem eraseInDisplay_stirred {mode : ℕ} (h : g.eraseInDisplay mode = some g') : g'.Stirred := by
  simp only [eraseInDisplay, Option.bind_eq_bind, Option.bind_eq_some_iff, Option.some.injEq] at h
  obtain ⟨_, -, rfl⟩ := h
  exact .inr (.inl rfl)

/-! Operations on the row of the cursor mark it as dirty. -/

section Rows

variable (hrow : g.cursor.row < g.rowCount)
include hrow

theorem insertChars_stirred {n : ℕ} (h : g.insertChars n = some g') : g'.Stirred := by
  simp only [insertChars, Option.bind_eq_bind, Option.bind_eq_some_iff] at h
  obtain ⟨_, -, _, -, _, -, _, -, h⟩ := h
  exact markDirtyRow_stirred h hrow

theorem deleteChars_stirred {n : ℕ} (h : g.deleteChars n = some g') : g'.Stirred := by
  simp only [deleteChars, Option.bind_eq_bind, Option.bind_eq_some_iff] at h
  obtain ⟨_, -, _, -, _, -, _, -, h⟩ := h
  exact markDirtyRow_stirred h hrow

theorem eraseChars_stirred {n : ℕ} (h : g.eraseChars n = some g') : g'.Stirred := by
  simp only [eraseChars, Option.bind_eq_bind, Option.bind_eq_some_iff] at h
  obtain ⟨_, -, _, -, h⟩ := h
  exact markDirtyRow_stirred h hrow

theorem eraseInLine_stirred {mode : ℕ} (h : g.eraseInLine mode = some g') : g'.Stirred := by
  simp only [eraseInLine, Option.bind_eq_bind, Option.bind_eq_some_iff] at h
  obtain ⟨_, -, h⟩ := h
  exact markDirtyRow_stirred h hrow

end Rows

/-! Printing marks a row as dirty and leaves the marks that are there. -/

theorem mem_set_true {xs : List Bool} (h : true ∈ xs) (i : ℕ) : true ∈ xs.set i true := by
  obtain ⟨j, hj, hx⟩ := List.mem_iff_getElem.mp h
  refine List.mem_iff_getElem.mpr ⟨j, by simpa using hj, ?_⟩
  rw [List.getElem_set]
  split
  · rfl
  · exact hx

theorem markDirtyRow_keeps {row : ℕ} (h : g.markDirtyRow row = some g') (hd : true ∈ g.dirty) :
    true ∈ g'.dirty := by
  by_cases hrow : row < g.rowCount
  · obtain ⟨hdirty, -⟩ := markDirtyRow_eq h hrow
    exact hdirty ▸ mem_set_true hd row
  · rw [markDirtyRow, if_neg hrow] at h
    cases h
    exact hd

theorem attach_keeps {ch : Char} (h : g.attach ch = some g') (hd : true ∈ g.dirty) :
    true ∈ g'.dirty := by
  unfold attach at h
  split at h
  · simp only [Option.bind_eq_bind, Option.bind_eq_some_iff] at h
    obtain ⟨_, -, _, -, _, -, h⟩ := h
    split at h
    · obtain ⟨_, -, h⟩ := Option.bind_eq_some_iff.mp h
      exact markDirtyRow_keeps h hd
    · cases h
      exact hd
  · cases h
    exact hd

theorem wrap_dirty {width : ℕ} {out : Grid × Option Line} (h : g.wrap width = some out) :
    out.1.dirty = g.dirty := by
  unfold wrap at h
  split at h
  · obtain ⟨⟨g₁, line⟩, hindex, hout⟩ := Option.bind_eq_some_iff.mp h
    cases hout
    unfold index at hindex
    dsimp only at hindex
    split at hindex
    · cases hindex
      rfl
    · simp only [scrollUpRegion, Option.bind_eq_bind, Option.bind_eq_some_iff,
        Option.some.injEq] at hindex
      obtain ⟨_, ⟨_, -, _, -, rfl⟩, hg⟩ := hindex
      cases hg
      rfl
  · cases h
    rfl

theorem advanceCursor_dirty {width : ℕ} (h : g.advanceCursor width = some g') :
    g'.dirty = g.dirty := by
  unfold advanceCursor at h
  split at h
  · obtain ⟨_, -, hg⟩ := Option.bind_eq_some_iff.mp h
    cases hg
    rfl
  · cases h
    rfl

theorem putGlyph_marks {cell : Cell} {width : ℕ} (h : g.putGlyph cell width = some g')
    (hd : true ∈ g.dirty ∨ g.cursor.row < g.rowCount) : true ∈ g'.dirty := by
  simp only [putGlyph, Option.bind_eq_bind, Option.bind_eq_some_iff] at h
  obtain ⟨_, -, g₁, hmark, hadvance⟩ := h
  rw [advanceCursor_dirty hadvance]
  rcases hd with hd | hrow
  · exact markDirtyRow_keeps hmark hd
  · obtain ⟨hdirty, hlt⟩ := markDirtyRow_eq hmark hrow
    exact hdirty ▸ List.mem_set hlt true

theorem print_keeps {tables : UnicodeTables} {ch : Char} {attrs : CellAttrs}
    {out : Grid × Option Line} (h : g.print tables ch attrs = some out) (hd : true ∈ g.dirty) :
    true ∈ out.1.dirty := by
  unfold print at h
  dsimp only at h
  split at h
  · obtain ⟨g₁, hattach, hout⟩ := Option.bind_eq_some_iff.mp h
    cases hout
    exact attach_keeps hattach hd
  · simp only [Option.bind_eq_bind, Option.bind_eq_some_iff] at h
    obtain ⟨out₁, hwrap, g₂, hglyph, hout⟩ := h
    cases hout
    exact putGlyph_marks hglyph (.inl (wrap_dirty hwrap ▸ hd))

/-- A grid of one row with a pending wrap, on which nothing is marked as dirty. -/
def primed : Grid where
  rows := [[Cell.default, Cell.default]]
  cols := 2
  rowCount := 1
  cursor := ⟨0, 1⟩
  savedCursor := ⟨0, 0⟩
  savedAttrs := none
  scrollTop := 0
  scrollBottom := 0
  tabStops := [true, true]
  wrapPending := true
  originMode := false
  dirty := [false]
  dirtyAll := false
  revision := 0

theorem primed_sized : primed.Sized 2 1 := by
  constructor
  · rfl
  · rfl
  · rfl
  · exact ⟨rfl, by decide⟩
  all_goals decide

theorem primed_not_stirred : ¬ primed.Stirred := by
  simp [Stirred, primed]

theorem print_primed {tables : UnicodeTables} {ch : Char} {attrs : CellAttrs}
    {out : Grid × Option Line} (h : primed.print tables ch attrs = some out) :
    true ∈ out.1.dirty := by
  unfold print at h
  dsimp only at h
  split at h
  · have hdirty : (primed.attach ch).map (·.dirty) = some [true] := rfl
    obtain ⟨g₁, hattach, hout⟩ := Option.bind_eq_some_iff.mp h
    cases hout
    rw [hattach] at hdirty
    simp [Option.some_inj.mp hdirty]
  · simp only [Option.bind_eq_bind, Option.bind_eq_some_iff] at h
    obtain ⟨out₁, hwrap, g₂, hglyph, hout⟩ := h
    cases hout
    obtain ⟨out₂, hwrap', hsized⟩ := primed_sized.wrap ((tables.width ch).getD 0)
    obtain rfl := Option.some_inj.mp (hwrap.symm.trans hwrap')
    exact putGlyph_marks hglyph (.inr (hsized.cursor.1.trans_eq hsized.rowCount_eq.symm))

end Grid

/-! ### Sequences that are marked -/

/-- A sequence with a private marker or an intermediate byte. -/
def isMarked (c : Csi) : Bool := c.privateMarker != 0 || !c.intermediates.isEmpty

namespace Terminal

/-- The combinations that the dispatcher names. -/
def isNamed (c : Csi) : Bool := isPrivateMode c || isModifyOtherKeys c || isCursorShape c

/-- `CSI ! p`. -/
def isSoftReset (c : Csi) : Bool :=
  c.privateMarker == 0 && c.intermediates == [0x21] && c.finalByte == 0x70

/-- The final byte has no function, or its parameters or a private marker keep it from having
an effect. -/
def ignores (c : Csi) : Bool :=
  match finalChar c with
  | '@' | 'A' | 'B' | 'e' | 'C' | 'a' | 'D' | 'E' | 'F' | 'G' | 'H' | 'f' | 'I' | 'J' | 'K' | 'L'
  | 'M' | 'P' | 'S' | 'T' | 'X' | 'Z' | 'b' | 'd' => false
  | 'c' => !c.isAllZero
  | 'g' => c.param 0 0 != 0 && c.param 0 0 != 3
  | 'h' | 'l' => !c.params.contains 4
  | 'm' => sgrIgnores c.params
  | 'n' => c.param 0 0 != 5 && c.param 0 0 != 6
  | 'r' | 's' | 'u' | '!' => c.privateMarker != 0
  | _ => true

/-- What a sequence without a function leaves alone. -/
structure Unchanged (t t' : Terminal) : Prop where
  grid : t'.grid = t.grid
  scrollback : t'.scrollback = t.scrollback
  modes : t'.modes = t.modes
  attrs : t'.attrs = t.attrs
  response : t'.response = t.response

/-- On every terminal the sequence does what its marker and its intermediates make of it. -/
structure Respects (tables : UnicodeTables) (c : Csi) : Prop where
  unnamed : isMarked c = true → isNamed c = false → isSoftReset c = false →
    ∀ t : Terminal, t.Valid → Returns (t.csi tables c) (Unchanged t)
  softReset : isSoftReset c = true → ∀ t : Terminal, t.Valid → t.csi tables c = t.softReset

variable {t t' : Terminal} {tables : UnicodeTables} {c : Csi}

theorem csi_of_unnamed (h : isNamed c = false) : t.csi tables c = t.csiFinal tables c := by
  simp only [isNamed, Bool.or_eq_false_iff] at h
  obtain ⟨⟨hprivate, hother⟩, hshape⟩ := h
  simp [Terminal.csi, hprivate, hother, hshape]

theorem setAnsiCode_eq (code : ℕ) (set : Bool) : t.setAnsiCode code set =
    if code = 4 then t.setModes fun m => { m with insertMode := set } else t := by
  unfold setAnsiCode AnsiMode.fromCode
  split
  next mode hmode =>
    split at hmode <;> cases hmode <;> rfl
  next hnone =>
    split at hnone
    · cases hnone
    · cases hnone
    · next h4 _ => rw [if_neg h4]

theorem setAnsiModes_of_notMem {codes : List ℕ} (h : 4 ∉ codes) (set : Bool) :
    t.setAnsiModes codes set = t := by
  induction codes with
  | nil => rfl
  | cons code codes ih =>
    obtain ⟨hne, hrest⟩ := not_or.mp (List.mem_cons.not.mp h)
    rw [setAnsiModes, List.foldl_cons, setAnsiCode_eq, if_neg (Ne.symm hne)]
    exact ih hrest

theorem insertMode_setAnsiModes {codes : List ℕ} {set : Bool}
    (h : 4 ∈ codes ∨ t.modes.insertMode = set) :
    (t.setAnsiModes codes set).modes.insertMode = set := by
  induction codes generalizing t with
  | nil => exact h.resolve_left List.not_mem_nil
  | cons code codes ih =>
    rw [setAnsiModes, List.foldl_cons, setAnsiCode_eq]
    apply ih
    split
    next => exact .inr rfl
    next hne =>
      rcases h with hmem | hset
      · exact .inl ((List.mem_cons.mp hmem).resolve_left (Ne.symm hne))
      · exact .inr hset

theorem ignores_unchanged (h : ignores c = true) (t : Terminal) :
    Returns (t.csiFinal tables c) (Unchanged t) := by
  have hrefl : Returns (some t) (Unchanged t) := .pure ⟨rfl, rfl, rfl, rfl, rfl⟩
  unfold csiFinal
  dsimp only
  unfold ignores at h
  split
  case h_24 hf =>
    rw [hf] at h
    simpa [show c.isAllZero = false by simpa using h] using hrefl
  case h_26 hf =>
    rw [hf] at h
    split <;> simp_all
  case h_27 hf | h_28 hf =>
    rw [hf] at h
    simpa [setAnsiModes_of_notMem (show 4 ∉ c.params by simpa using h)] using hrefl
  case h_29 hf =>
    rw [hf] at h
    exact .pure ⟨rfl, rfl, rfl, sgr_ignores h t.attrs, rfl⟩
  case h_30 hf =>
    rw [hf] at h
    simp only [Bool.and_eq_true, bne_iff_ne] at h
    rw [if_neg h.1, if_neg h.2]
    exact hrefl
  case h_31 hf | h_32 hf | h_33 hf | h_34 hf =>
    rw [hf] at h
    simpa [show c.privateMarker ≠ 0 by simpa using h] using hrefl
  case h_35 => exact .pure ⟨rfl, rfl, rfl, rfl, rfl⟩
  all_goals next hf => rw [hf] at h; cases h

/-! ### Sequences that have an effect -/

/-- A terminal on which everything that can be done shows. -/
def primed (t : Terminal) (attrs : CellAttrs) (insertMode : Bool) : Terminal :=
  { t with
    grid := .primed
    altGrid := false
    saved := none
    lastChar := some 'x'
    attrs
    modes := { t.modes with insertMode }
    response := [] }

theorem primed_valid (h : t.Valid) (attrs : CellAttrs) (insertMode : Bool) :
    (t.primed attrs insertMode).Valid :=
  ⟨⟨2, 1, 2, 1, Grid.primed_sized, by simp [primed], rfl⟩, h.capacity⟩

theorem onGrid_grid {f : Grid → Option Grid} (h : t.onGrid f = some t') :
    f t.grid = some t'.grid := by
  obtain ⟨g, hg, ht'⟩ := Option.bind_eq_some_iff.mp h
  cases ht'
  exact hg

theorem pushAll_grid (lines : List Line) : (t.pushAll lines).grid = t.grid := by
  induction lines generalizing t with
  | nil => rfl
  | cons line lines ih =>
    refine Eq.trans (ih (t := t.pushScrollback line)) ?_
    unfold pushScrollback
    split <;> rfl

theorem iterateM_stirred {f : Grid → Option Grid} (hf : ∀ g g', f g = some g' → g'.Stirred)
    {n : ℕ} (hn : 0 < n) {g g' : Grid} (h : iterateM f n g = some g') : g'.Stirred := by
  induction n generalizing g with
  | zero => cases hn
  | succ n ih =>
    obtain ⟨g₁, hg₁, hrest⟩ := Option.bind_eq_some_iff.mp h
    cases n with
    | zero =>
      cases hrest
      exact hf g _ hg₁
    | succ n => exact ih (Nat.succ_pos n) hrest

theorem param_pos (c : Csi) (i : ℕ) : 0 < c.param i 1 := by
  unfold Csi.param
  split
  · split
    · exact Nat.one_pos
    · omega
  · exact Nat.one_pos

theorem printChar_dirty {ch : Char} (h : t.printChar tables ch = some t') :
    (t.grid = .primed ∨ true ∈ t.grid.dirty) → true ∈ t'.grid.dirty := by
  obtain ⟨⟨g, scrolled⟩, hprint, ht'⟩ := Option.bind_eq_some_iff.mp h
  cases ht'
  rw [pushAll_grid]
  rintro (hprimed | hd)
  · rw [hprimed] at hprint
    exact Grid.print_primed hprint
  · exact Grid.print_keeps hprint hd

theorem repeat_dirty {ch : Char} {n : ℕ} (hn : 0 < n)
    (h : iterateM (·.printChar tables ch) n t = some t')
    (hd : t.grid = .primed ∨ true ∈ t.grid.dirty) : true ∈ t'.grid.dirty := by
  induction n generalizing t with
  | zero => cases hn
  | succ n ih =>
    obtain ⟨t₁, ht₁, hrest⟩ := Option.bind_eq_some_iff.mp h
    have hd₁ := printChar_dirty ht₁ hd
    cases n with
    | zero =>
      cases hrest
      exact hd₁
    | succ n => exact ih (Nat.succ_pos n) hrest (.inr hd₁)

theorem scrollUpLines_stirred {n : ℕ} (h : t.scrollUpLines n = some t') : t'.grid.Stirred := by
  simp only [scrollUpLines, Option.bind_eq_bind, Option.bind_eq_some_iff, Option.some.injEq] at h
  obtain ⟨_, -, out, hout, rfl⟩ := h
  rw [pushAll_grid]
  exact Grid.scrollUpRegion_stirred hout

/-- An answer that is queued on a primed terminal. -/
theorem queueResponse_changes {bytes : List UInt8} {b : CellAttrs} {insertMode : Bool}
    (hne : bytes ≠ []) (hlen : bytes.length ≤ maxResponse) :
    ¬ Unchanged (t.primed b insertMode) ((t.primed b insertMode).queueResponse bytes) := by
  intro hu
  have hroom : ¬ maxResponse < (t.primed b insertMode).response.length + bytes.length := by
    simpa [primed] using hlen
  have hresponse := hu.response
  rw [queueResponse, if_neg hroom] at hresponse
  exact hne (by simpa [primed] using hresponse)

theorem cursorReport_primed {b : CellAttrs} {insertMode : Bool} :
    (t.primed b insertMode).cursorReport = 0x1B :: asBytes "[1;2R" := by
  have hreport : s!"[{(0 : ℕ) + 1};{(1 : ℕ) + 1}R" = "[1;2R" := by decide
  exact congrArg (fun s => 0x1B :: asBytes s) hreport

theorem restoreCursor_stirred (h : t.restoreCursor = some t') : t'.grid.Stirred := by
  simp only [Terminal.restoreCursor, Option.bind_eq_bind, Option.bind_eq_some_iff,
    Option.some.injEq] at h
  obtain ⟨t₁, ht₁, rfl⟩ := h
  have hgrid := onGrid_grid ht₁
  exact Grid.restoreCursor_stirred hgrid

theorem softReset_stirred (h : t.softReset = some t') : t'.grid.Stirred := by
  simp only [softReset, Option.bind_eq_bind, Option.bind_eq_some_iff, Option.some.injEq] at h
  obtain ⟨_, -, _, -, g, hg, rfl⟩ := h
  have hgrid : (selectionClear (resetSgr { t.setModes softModes with grid := g })).grid = g := by
    unfold selectionClear
    split <;> rfl
  exact (congrArg Grid.Stirred hgrid).mpr (Grid.setCursor_stirred hg)

/-- A sequence with an effect shows it on a primed terminal, if the rendition and the mode are
some that it does not lead to. -/
theorem csiFinal_shows (hacts : ignores c = false) {b : CellAttrs}
    (hb : sgrIgnores c.params = false → ∀ a, sgr c.params a ≠ b)
    (h : (t.primed b (finalChar c == 'l')).csiFinal tables c = some t') :
    ¬ Unchanged (t.primed b (finalChar c == 'l')) t' := by
  have hrow : Grid.primed.cursor.row < Grid.primed.rowCount := by decide
  have hpos := param_pos c 0
  have hstirred (hs : t'.grid.Stirred) : ¬ Unchanged (t.primed b (finalChar c == 'l')) t' := by
    intro hu
    have hgrid : t'.grid = .primed := hu.grid
    exact Grid.primed_not_stirred (hgrid ▸ hs)
  unfold csiFinal at h
  dsimp only at h
  unfold ignores at hacts
  split at h
  · exact hstirred (Grid.insertChars_stirred hrow (onGrid_grid h))
  · exact hstirred (Grid.moveCursor_stirred (onGrid_grid h))
  · exact hstirred (Grid.moveCursor_stirred (onGrid_grid h))
  · exact hstirred (Grid.moveCursor_stirred (onGrid_grid h))
  · exact hstirred (Grid.moveCursor_stirred (onGrid_grid h))
  · exact hstirred (Grid.moveCursor_stirred (onGrid_grid h))
  · exact hstirred (Grid.moveCursor_stirred (onGrid_grid h))
  · obtain ⟨g, -, hg⟩ := Option.map_eq_some_iff.mp (onGrid_grid h)
    exact hstirred (hg ▸ .inl rfl)
  · obtain ⟨g, -, hg⟩ := Option.map_eq_some_iff.mp (onGrid_grid h)
    exact hstirred (hg ▸ .inl rfl)
  · exact hstirred (Grid.setCol_stirred (onGrid_grid h))
  · exact hstirred (Grid.setCursor_stirred (onGrid_grid h))
  · exact hstirred (Grid.setCursor_stirred (onGrid_grid h))
  · exact hstirred (iterateM_stirred (fun _ _ => Grid.tab_stirred) hpos (onGrid_grid h))
  · unfold eraseDisplay at h
    split at h
    · exact hstirred (Grid.eraseInDisplay_stirred (onGrid_grid h))
    · exact hstirred (Grid.eraseInDisplay_stirred (onGrid_grid h))
  · exact hstirred (Grid.eraseInLine_stirred hrow (onGrid_grid h))
  · exact hstirred (Grid.insertLines_stirred (onGrid_grid h))
  · exact hstirred (Grid.deleteLines_stirred (onGrid_grid h))
  · exact hstirred (Grid.deleteChars_stirred hrow (onGrid_grid h))
  · exact hstirred (scrollUpLines_stirred h)
  · exact hstirred (Grid.scrollDownRegion_stirred (onGrid_grid h))
  · exact hstirred (Grid.eraseChars_stirred hrow (onGrid_grid h))
  · exact hstirred (iterateM_stirred (fun _ _ => Grid.backspaceToTab_stirred) hpos (onGrid_grid h))
  · exact hstirred (.inr (.inr (repeat_dirty hpos h (.inl rfl))))
  · next hf =>
    rw [hf] at hacts
    rw [if_pos (by simpa using hacts)] at h
    cases h
    exact queueResponse_changes (by decide) (by decide)
  · exact hstirred (Grid.setRow_stirred (onGrid_grid h))
  · next hf =>
    rw [hf] at hacts
    split at h
    · cases h
      exact fun hu => absurd (congrArg Grid.tabStops hu.grid)
        (by simp [primed, Grid.primed, Grid.clearTabStop, Grid.putTabStop])
    · cases h
      exact fun hu => absurd (congrArg Grid.tabStops hu.grid)
        (by simp [primed, Grid.primed, Grid.clearAllTabStops])
    · simp_all
  · next hf =>
    rw [hf] at hacts
    cases h
    have hset : ((t.primed b (finalChar c == 'l')).setAnsiModes c.params true).modes.insertMode =
        true := insertMode_setAnsiModes (.inl (by simpa using hacts))
    intro hu
    rw [hu.modes] at hset
    simp [primed, hf] at hset
  · next hf =>
    rw [hf] at hacts
    cases h
    have hset : ((t.primed b (finalChar c == 'l')).setAnsiModes c.params false).modes.insertMode =
        false := insertMode_setAnsiModes (.inl (by simpa using hacts))
    intro hu
    rw [hu.modes] at hset
    simp [primed, hf] at hset
  · next hf =>
    rw [hf] at hacts
    cases h
    exact fun hu => hb hacts _ hu.attrs
  · next hf =>
    rw [hf] at hacts
    cases h
    split
    · exact queueResponse_changes (by decide) (by decide)
    · split
      · rw [cursorReport_primed]
        exact queueResponse_changes (by decide) (by decide)
      · simp_all
  · next hf =>
    rw [hf] at hacts
    rw [if_pos (by simpa using hacts)] at h
    exact hstirred (Grid.setScrollRegion_stirred (onGrid_grid h))
  · next hf =>
    rw [hf] at hacts
    rw [if_pos (by simpa using hacts)] at h
    cases h
    exact fun hu => absurd (congrArg Grid.savedAttrs hu.grid)
      (by simp [primed, Grid.primed, saveCursor])
  · next hf =>
    rw [hf] at hacts
    rw [if_pos (by simpa using hacts)] at h
    exact hstirred (restoreCursor_stirred h)
  · next hf =>
    rw [hf] at hacts
    rw [if_pos (by simpa using hacts)] at h
    exact hstirred (softReset_stirred h)
  · simp only [*] at hacts
    contradiction

/-! ### The sequences that are respected -/

theorem exists_valid : ∃ t : Terminal, t.Valid := by
  obtain ⟨t, ht⟩ : ∃ t, Terminal.new .default ⟨8, 16, by decide, by decide⟩ = .ok t := ⟨_, rfl⟩
  exact ⟨t, new_valid ht⟩

theorem softReset_unnamed (h : isSoftReset c = true) : isNamed c = false := by
  simp only [isSoftReset, Bool.and_eq_true, beq_iff_eq] at h
  obtain ⟨⟨hmarker, -⟩, hfinal⟩ := h
  simp [isNamed, isPrivateMode, isModifyOtherKeys, isCursorShape, hmarker, hfinal]

/-- The final byte of `CSI ! p` is `p`, which has no function. -/
theorem csi_softReset (h : isSoftReset c = true) (t : Terminal) :
    t.csi tables c = some { t with invalidSequences := t.invalidSequences + 1 } := by
  have hfinal : c.finalByte = 0x70 := by
    simp only [isSoftReset, Bool.and_eq_true, beq_iff_eq] at h
    exact h.2
  have hchar : finalChar c = 'p' := by rw [finalChar, hfinal]; rfl
  rw [csi_of_unnamed (softReset_unnamed h)]
  unfold csiFinal
  rw [hchar]
  rfl

theorem respects_unnamed (hnamed : isNamed c = false) :
    (∀ t : Terminal, t.Valid → Returns (t.csi tables c) (Unchanged t)) ↔ ignores c = true := by
  constructor
  · intro hunchanged
    by_contra hacts
    rw [Bool.not_eq_true] at hacts
    obtain ⟨b, hb⟩ : ∃ b, sgrIgnores c.params = false → ∀ a, sgr c.params a ≠ b := by
      cases hsgr : sgrIgnores c.params with
      | true => exact ⟨.default, nofun⟩
      | false =>
        obtain ⟨b, hb⟩ := sgr_misses hsgr
        exact ⟨b, fun _ => hb⟩
    obtain ⟨t, ht⟩ := exists_valid
    obtain ⟨t', hcsi, hsame⟩ := hunchanged _ (primed_valid ht b (finalChar c == 'l'))
    rw [csi_of_unnamed hnamed] at hcsi
    exact csiFinal_shows hacts hb hcsi hsame
  · intro hignores t _
    rw [csi_of_unnamed hnamed]
    exact ignores_unchanged hignores t

theorem respects_iff (tables : UnicodeTables) (c : Csi) : Respects tables c ↔
    isSoftReset c = false ∧ (isMarked c = true → isNamed c = false → ignores c = true) := by
  constructor
  · intro h
    have hreset : isSoftReset c = false := by
      by_contra hreset
      rw [Bool.not_eq_false] at hreset
      obtain ⟨t, ht⟩ := exists_valid
      have heq := h.softReset hreset _ (primed_valid ht .default false)
      rw [csi_softReset hreset] at heq
      exact Grid.primed_not_stirred (softReset_stirred heq.symm)
    refine ⟨hreset, fun hmarked hnamed => ?_⟩
    exact (respects_unnamed hnamed).mp (h.unnamed hmarked hnamed hreset)
  · rintro ⟨hreset, hignores⟩
    constructor
    · intro hmarked hnamed _
      exact (respects_unnamed hnamed).mpr (hignores hmarked hnamed)
    · intro hsoft
      exact absurd hsoft (by simp [hreset])

/-- A terminal of four columns and two rows with a letter on it. -/
def printedOnce : Option Terminal := do
  let t ← (Terminal.new .default fontCells).toOption
  t.performAll asciiTables [.resize 64 64 (.ok ()), .feed [0x41]]

/-- `CSI > 2 J`. -/
def markedErase : Csi := ⟨0x3E, [2], [], 0x4A⟩

theorem markedErase_erases : ∃ t, printedOnce = some t ∧ isMarked markedErase = true ∧
    isNamed markedErase = false ∧ isSoftReset markedErase = false ∧
    ¬ Returns (t.csi asciiTables markedErase) (Unchanged t) := by
  obtain ⟨t, ht⟩ : ∃ t, printedOnce = some t := ⟨_, rfl⟩
  have hrows : printedOnce.map (fun t =>
      ((t.csi asciiTables markedErase).map (·.grid.rows.flatten.countP (·.ch == 'A')),
        t.grid.rows.flatten.countP (·.ch == 'A'))) = some (some 0, 1) := rfl
  rw [ht] at hrows
  refine ⟨t, ht, by decide, by decide, by decide, ?_⟩
  rintro ⟨t', hcsi, hu⟩
  simp [hcsi, hu.grid] at hrows
  omega

end Terminal

end Ferrokey.Terminal
