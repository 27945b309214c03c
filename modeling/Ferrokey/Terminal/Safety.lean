import Ferrokey.Terminal.Frame
import Ferrokey.Terminal.Session

/-! # No operation is refused

The screen that is active and the one that was put away each have a size, and keep to
its bounds. Every operation of the terminal can then be carried out, whatever bytes the
program prints and however the pane is resized, and so can every look at the document.
-/

set_option linter.dupNamespace false

namespace Ferrokey.Terminal

open Grid (Sized sizeInBounds)

namespace Terminal

/-- The active screen has one size and the one that was put away another. -/
structure Sizes (c r c₀ r₀ : ℕ) (t : Terminal) : Prop where
  grid : t.grid.Sized c r
  saved : ∀ g ∈ t.saved, g.Sized c₀ r₀
  altGrid : t.altGrid = t.saved.isSome

structure Valid (t : Terminal) : Prop where
  sizes : ∃ c r c₀ r₀, t.Sizes c r c₀ r₀
  capacity : minScrollback ≤ t.config.scrollbackLines ∧ t.config.scrollbackLines ≤ maxScrollback

variable {t t' : Terminal} {c r c₀ r₀ : ℕ}

theorem Sizes.of_keeps (h : t.Sizes c r c₀ r₀) (hk : Keeps c r t t') : t'.Sizes c r c₀ r₀ where
  grid := hk.sized
  saved := hk.saved ▸ h.saved
  altGrid := by rw [hk.altGrid, hk.saved, h.altGrid]

theorem Sizes.main (h : t.Sizes c r c₀ r₀) (hmain : t.altGrid = false) (c₁ r₁ : ℕ) :
    t.Sizes c r c₁ r₁ := by
  have hnone : t.saved = none := by
    have hsome := h.altGrid
    rw [hmain] at hsome
    simpa using hsome.symm
  exact ⟨h.grid, by simp [hnone], h.altGrid⟩

/-! ### Switching screens -/

theorem enterAltScreen_spec (h : t.grid.Sized c r) (hmain : t.altGrid = false) (save : Bool) :
    Returns (t.enterAltScreen save) fun t' =>
      Advances t t' ∧ t'.grid.Sized c r ∧ t'.altGrid = true ∧
        t'.saved = some (if save then t.saveCursor.grid else t.grid) ∧
        t'.scrollback = t.scrollback := by
  obtain ⟨g, hnew, hg⟩ := Grid.new_sized h.bounds
  have hnew' : Grid.new t.grid.cols t.grid.rowCount = .ok g := by
    rw [h.cols_eq, h.rowCount_eq, hnew]
  cases save with
  | false =>
    simp only [enterAltScreen, hmain, Bool.false_eq_true, if_false, hnew']
    exact .pure ⟨⟨rfl, List.prefix_rfl⟩, hg, rfl, rfl, rfl⟩
  | true =>
    have hsave : Grid.new t.saveCursor.grid.cols t.saveCursor.grid.rowCount = .ok g := hnew'
    simp only [enterAltScreen, hmain, Bool.false_eq_true, if_false, if_true, hsave]
    exact .pure ⟨⟨rfl, List.prefix_rfl⟩, hg, rfl, rfl, rfl⟩

theorem exitAltScreen_spec (h : t.Sizes c r c₀ r₀) (halt : t.altGrid = true) (restore : Bool) :
    Returns (t.exitAltScreen restore) fun t' => Advances t t' ∧ t'.Sizes c₀ r₀ c₀ r₀ := by
  have hsome := h.altGrid
  rw [halt] at hsome
  obtain ⟨g, hsaved⟩ := Option.isSome_iff_exists.mp hsome.symm
  have hg : t.leaveAltScreen.grid.Sized c₀ r₀ := by
    simp only [leaveAltScreen, hsaved, Option.getD_some]
    exact h.saved g hsaved
  have hleft : t.leaveAltScreen.Sizes c₀ r₀ c₀ r₀ := ⟨hg, by simp [leaveAltScreen], rfl⟩
  have hadv : Advances t t.leaveAltScreen := ⟨rfl, List.prefix_rfl⟩
  simp only [exitAltScreen, halt, if_true]
  apply Returns.ite
  · intro _
    apply (restoreCursor_quiet hg).mono
    exact fun t' hq => ⟨hadv.trans hq.toAdvances, hleft.of_keeps hq.toKeeps⟩
  · exact fun _ => .pure ⟨hadv, hleft⟩

/-! ### Private modes -/

theorem switchPrivateMode_screen {mode : PrivateMode} (hmode : isScreenMode mode = true) :
    ∃ cursor, ∀ (t : Terminal) (set : Bool), t.switchPrivateMode mode set =
      if set then t.enterAltScreen cursor else t.exitAltScreen cursor := by
  cases mode with
  | alternateScreen => exact ⟨false, fun _ _ => rfl⟩
  | alternateScreenSave | alternateScreenSaveCursor => exact ⟨true, fun _ _ => rfl⟩
  | _ => cases hmode

theorem Sizes.markDirty (h : t.Sizes c r c₀ r₀) :
    Sizes c r c₀ r₀ { t with paneDirtyAll := true } := ⟨h.grid, h.saved, h.altGrid⟩

/-- The state after something was done to a terminal whose screens have one size. -/
def Uniform (c r : ℕ) (t t' : Terminal) : Prop := Advances t t' ∧ t'.Sizes c r c r

/-- The state after something was done on the alternate screen, which is still active. -/
def Away (c r c₀ r₀ : ℕ) (t t' : Terminal) : Prop :=
  Advances t t' ∧ t'.Sizes c r c₀ r₀ ∧ t'.altGrid = true

theorem Uniform.trans {t'' : Terminal} (h : Advances t t') (h' : Uniform c r t' t'') :
    Uniform c r t t'' := ⟨h.trans h'.1, h'.2⟩

theorem Away.trans {t'' : Terminal} (h : Advances t t') (h' : Away c r c₀ r₀ t' t'') :
    Away c r c₀ r₀ t t'' := ⟨h.trans h'.1, h'.2⟩

theorem Uniform.of_keeps (h : t.Sizes c r c r) (hk : Keeps c r t t') : Uniform c r t t' :=
  ⟨hk.toAdvances, h.of_keeps hk⟩

theorem Away.of_keeps (h : t.Sizes c r c₀ r₀) (halt : t.altGrid = true) (hk : Keeps c r t t') :
    Away c r c₀ r₀ t t' := ⟨hk.toAdvances, h.of_keeps hk, hk.altGrid.trans halt⟩

/-- While both screens have one size, no private mode changes it. -/
theorem setPrivateMode_uniform (h : t.Sizes c r c r) (mode : PrivateMode) (set : Bool) :
    Returns (t.setPrivateMode mode set) (Uniform c r t) := by
  cases hmode : isScreenMode mode with
  | false => exact (setPrivateMode_quiet h.grid hmode set).mono fun _ hq => .of_keeps h hq.toKeeps
  | true =>
    obtain ⟨cursor, hswitch⟩ := switchPrivateMode_screen hmode
    have hboth : Returns (t.switchPrivateMode mode set) (Uniform c r t) := by
      rw [hswitch]
      cases set with
      | true =>
        cases hmain : t.altGrid with
        | true =>
          simp only [enterAltScreen, hmain, if_true]
          exact .pure ⟨.refl t, h⟩
        | false =>
          apply (enterAltScreen_spec h.grid hmain cursor).mono
          rintro t' ⟨hadv, hg, halt, hsaved, -⟩
          refine ⟨hadv, hg, ?_, by rw [halt, hsaved]; rfl⟩
          rw [hsaved]
          rintro _ ⟨⟩
          split
          · exact (saveCursor_quiet h.grid).sized
          · exact h.grid
      | false =>
        cases halt : t.altGrid with
        | true => exact exitAltScreen_spec h halt cursor
        | false =>
          simp only [exitAltScreen, halt, Bool.false_eq_true, if_false]
          exact .pure ⟨.refl t, h⟩
    apply hboth.bind
    rintro t' ⟨hadv, hs⟩
    exact .pure ⟨⟨hadv.host, hadv.response⟩, hs.markDirty⟩

/-- On the alternate screen only a reset of a screen mode changes the size: it brings the size
of the screen back that was put away. -/
theorem setPrivateMode_away (h : t.Sizes c r c₀ r₀) (halt : t.altGrid = true) (mode : PrivateMode)
    (set : Bool) : Returns (t.setPrivateMode mode set) fun t' =>
      if isScreenMode mode && !set then Uniform c₀ r₀ t t' else Away c r c₀ r₀ t t' := by
  cases hmode : isScreenMode mode with
  | false =>
    exact (setPrivateMode_quiet h.grid hmode set).mono fun _ hq => .of_keeps h halt hq.toKeeps
  | true =>
    obtain ⟨cursor, hswitch⟩ := switchPrivateMode_screen hmode
    unfold setPrivateMode
    rw [hswitch]
    cases set with
    | true =>
      simp only [enterAltScreen, halt, if_true]
      exact .pure ⟨⟨rfl, List.prefix_rfl⟩, h.markDirty, halt⟩
    | false =>
      apply (exitAltScreen_spec h halt cursor).bind
      rintro t' ⟨hadv, hs⟩
      exact .pure ⟨⟨hadv.host, hadv.response⟩, hs.markDirty⟩

theorem setPrivateCode_uniform (h : t.Sizes c r c r) (code : ℕ) (set : Bool) :
    Returns (t.setPrivateCode code set) (Uniform c r t) := by
  unfold setPrivateCode
  split
  next mode _ => exact setPrivateMode_uniform h mode set
  next => exact .pure ⟨.refl t, h⟩

theorem setPrivateCode_away (h : t.Sizes c r c₀ r₀) (halt : t.altGrid = true) (code : ℕ)
    (set : Bool) : Returns (t.setPrivateCode code set) fun t' =>
      if isScreenCode code && !set then Uniform c₀ r₀ t t' else Away c r c₀ r₀ t t' := by
  cases hmode : PrivateMode.fromCode code with
  | none =>
    simp only [setPrivateCode, hmode, isScreenCode_of_unknown hmode]
    exact .pure ⟨.refl t, h, halt⟩
  | some mode =>
    simp only [setPrivateCode, hmode, ← isScreenMode_of_fromCode hmode]
    exact setPrivateMode_away h halt mode set

theorem setPrivateModes_uniform (h : t.Sizes c r c r) (codes : List ℕ) (set : Bool) :
    Returns (t.setPrivateModes codes set) (Uniform c r t) := by
  apply Returns.foldlM (Uniform c r t)
  · rintro t' ⟨hadv, hs⟩ code -
    exact (setPrivateCode_uniform hs code set).mono fun _ => .trans hadv
  · exact ⟨.refl t, h⟩

theorem setPrivateModes_away (h : t.Sizes c r c₀ r₀) (halt : t.altGrid = true) (codes : List ℕ)
    (set : Bool) : Returns (t.setPrivateModes codes set) fun t' =>
      if codes.any (fun code => isScreenCode code && !set) then Uniform c₀ r₀ t t'
      else Away c r c₀ r₀ t t' := by
  apply Returns.foldlM_until (P := Away c r c₀ r₀ t) (Q := Uniform c₀ r₀ t)
  · rintro t' ⟨hadv, hs, halt'⟩ code - hcode
    apply (setPrivateCode_away hs halt' code set).mono
    rintro t'' ht''
    rw [hcode] at ht''
    exact .trans hadv ht''
  · rintro t' ⟨hadv, hs, halt'⟩ code - hcode
    apply (setPrivateCode_away hs halt' code set).mono
    rintro t'' ht''
    rw [hcode] at ht''
    exact .trans hadv ht''
  · rintro t' ⟨hadv, hs⟩ code -
    exact (setPrivateCode_uniform hs code set).mono fun _ => .trans hadv
  · exact ⟨.refl t, h, halt⟩

/-! ### Actions and feeding -/

/-- An action that leaves the alternate screen. -/
def leavesAltScreen : ParserAction → Bool
  | .csi c => isPrivateMode c && c.finalByte != 0x68 && c.params.any isScreenCode
  | _ => false

theorem apply_uniform (h : t.Sizes c r c r) (tables : UnicodeTables) (a : ParserAction) :
    Returns (t.apply tables a) (Uniform c r t) := by
  cases hswitch : switchesScreen a with
  | false => exact (apply_keeps h.grid tables hswitch).mono fun _ => .of_keeps h
  | true =>
    cases a with
    | csi csi =>
      obtain ⟨hprivate, -⟩ := (Bool.and_eq_true _ _).mp hswitch
      simp only [apply, Terminal.csi, hprivate, if_true]
      exact setPrivateModes_uniform h _ _
    | _ => cases hswitch

theorem apply_away (h : t.Sizes c r c₀ r₀) (halt : t.altGrid = true) (tables : UnicodeTables)
    (a : ParserAction) : Returns (t.apply tables a) fun t' =>
      if leavesAltScreen a then Uniform c₀ r₀ t t' else Away c r c₀ r₀ t t' := by
  cases hswitch : switchesScreen a with
  | false =>
    have hleave : leavesAltScreen a = false := by
      cases a with
      | csi csi =>
        simp only [switchesScreen, leavesAltScreen] at hswitch ⊢
        grind
      | _ => rfl
    rw [hleave]
    exact (apply_keeps h.grid tables hswitch).mono fun _ => .of_keeps h halt
  | true =>
    cases a with
    | csi csi =>
      obtain ⟨hprivate, hcodes⟩ := (Bool.and_eq_true _ _).mp hswitch
      simp only [apply, Terminal.csi, hprivate, if_true]
      have hleave : leavesAltScreen (.csi csi) =
          csi.params.any fun code => isScreenCode code && !(csi.finalByte == 0x68) := by
        simp only [leavesAltScreen, hprivate, bne, Bool.true_and]
        cases csi.finalByte == 0x68 <;> simp
      rw [hleave]
      exact setPrivateModes_away h halt _ _
    | _ => cases hswitch

theorem applyAll_uniform (h : t.Sizes c r c r) (tables : UnicodeTables)
    (actions : List ParserAction) : Returns (t.applyAll tables actions) (Uniform c r t) := by
  apply Returns.foldlM (Uniform c r t)
  · rintro t' ⟨hadv, hs⟩ a -
    exact (apply_uniform hs tables a).mono fun _ => .trans hadv
  · exact ⟨.refl t, h⟩

theorem applyAll_away (h : t.Sizes c r c₀ r₀) (halt : t.altGrid = true) (tables : UnicodeTables)
    (actions : List ParserAction) : Returns (t.applyAll tables actions) fun t' =>
      if actions.any leavesAltScreen then Uniform c₀ r₀ t t' else Away c r c₀ r₀ t t' := by
  apply Returns.foldlM_until (P := Away c r c₀ r₀ t) (Q := Uniform c₀ r₀ t)
  · rintro t' ⟨hadv, hs, halt'⟩ a - ha
    apply (apply_away hs halt' tables a).mono
    intro t'' ht''
    rw [ha] at ht''
    exact .trans hadv ht''
  · rintro t' ⟨hadv, hs, halt'⟩ a - ha
    apply (apply_away hs halt' tables a).mono
    intro t'' ht''
    rw [ha] at ht''
    exact .trans hadv ht''
  · rintro t' ⟨hadv, hs⟩ a -
    exact (apply_uniform hs tables a).mono fun _ => .trans hadv
  · exact ⟨.refl t, h, halt⟩

theorem feed_uniform (h : t.Sizes c r c r) (tables : UnicodeTables) (bytes : List UInt8) :
    Returns (t.feed tables bytes) (Uniform c r t) := by
  have hreceive := (receive_quiet h.grid bytes).toKeeps
  apply (applyAll_uniform (h.of_keeps hreceive) tables _).bind
  rintro t' ⟨hadv, hs⟩
  exact .pure (.trans (hreceive.toAdvances.trans hadv)
    (.of_keeps hs (settle_quiet hs.grid _).toKeeps))

/-- Bytes that are fed on the alternate screen change the size only if they leave it. -/
theorem feed_away (h : t.Sizes c r c₀ r₀) (halt : t.altGrid = true) (tables : UnicodeTables)
    (bytes : List UInt8) : Returns (t.feed tables bytes) fun t' =>
      if (t.parser.feed bytes).2.any leavesAltScreen then Uniform c₀ r₀ t t'
      else Away c r c₀ r₀ t t' := by
  have hreceive := (receive_quiet h.grid bytes).toKeeps
  apply (applyAll_away (h.of_keeps hreceive) (hreceive.altGrid.trans halt) tables _).bind
  intro t' ht'
  apply Returns.pure
  split at ht'
  next hleave =>
    obtain ⟨hadv, hs⟩ := ht'
    rw [if_pos hleave]
    exact .trans (hreceive.toAdvances.trans hadv)
      (.of_keeps hs (settle_quiet hs.grid _).toKeeps)
  next hstay =>
    obtain ⟨hadv, hs, halt'⟩ := ht'
    rw [if_neg hstay]
    exact .trans (hreceive.toAdvances.trans hadv)
      (.of_keeps hs halt' (settle_quiet hs.grid _).toKeeps)

theorem Valid.of_quiet (h : t.Valid) (hs : t.Sizes c r c₀ r₀) (hq : Quiet c r t t') : t'.Valid := by
  have hconfig : t'.config = t.config := congrArg Host.config hq.host
  exact ⟨⟨_, _, _, _, hs.of_keeps hq.toKeeps⟩, hconfig ▸ h.capacity⟩

theorem apply_valid (h : t.Valid) (tables : UnicodeTables) (a : ParserAction) :
    Returns (t.apply tables a) fun t' => Advances t t' ∧ t'.Valid := by
  obtain ⟨⟨c, r, c₀, r₀, hs⟩, hcap⟩ := h
  have hvalid {t' : Terminal} (hadv : Advances t t') {c r c₀ r₀ : ℕ} (hs : t'.Sizes c r c₀ r₀) :
      t'.Valid := by
    have hconfig : t'.config = t.config := congrArg Host.config hadv.host
    exact ⟨⟨c, r, c₀, r₀, hs⟩, hconfig ▸ hcap⟩
  cases halt : t.altGrid with
  | false =>
    exact (apply_uniform (hs.main halt c r) tables a).mono
      fun t' ht' => ⟨ht'.1, hvalid ht'.1 ht'.2⟩
  | true =>
    apply (apply_away hs halt tables a).mono
    intro t' ht'
    split at ht'
    · exact ⟨ht'.1, hvalid ht'.1 ht'.2⟩
    · exact ⟨ht'.1, hvalid ht'.1 ht'.2.1⟩

theorem feed_valid (h : t.Valid) (tables : UnicodeTables) (bytes : List UInt8) :
    Returns (t.feed tables bytes) fun t' => Advances t t' ∧ t'.Valid := by
  obtain ⟨c, r, c₀, r₀, hs⟩ := h.sizes
  have hreceive := receive_quiet hs.grid bytes
  have hall : Returns ((t.receive bytes).applyAll tables (t.parser.feed bytes).2)
      fun t' => Advances t t' ∧ t'.Valid := by
    apply Returns.foldlM fun t' => Advances t t' ∧ t'.Valid
    · rintro t' ⟨hadv, hvalid⟩ a -
      exact (apply_valid hvalid tables a).mono fun t'' ht'' => ⟨hadv.trans ht''.1, ht''.2⟩
    · exact ⟨hreceive.toAdvances, h.of_quiet hs hreceive⟩
  apply hall.bind
  rintro t' ⟨hadv, hvalid⟩
  obtain ⟨c', r', c₀', r₀', hs'⟩ := hvalid.sizes
  have hsettle := settle_quiet hs'.grid t.modes.synchronizedOutput
  exact .pure ⟨hadv.trans hsettle.toAdvances, hvalid.of_quiet hs' hsettle⟩

/-! ### Resizing -/

theorem cellsFor_inBounds (metrics : CellMetrics) (width height : ℕ) :
    sizeInBounds (cellsFor metrics width height).cols (cellsFor metrics width height).rows =
      true := by
  rw [Grid.sizeInBounds_iff]
  simp only [cellsFor, minCols, maxCols, minRows, maxRows]
  omega

theorem newScrollback_eq (hcap : minScrollback ≤ t.config.scrollbackLines ∧
    t.config.scrollbackLines ≤ maxScrollback) {cols : ℕ} (hcols : cols ≠ 0) :
    Scrollback.new t.config.scrollbackLines cols = .ok ⟨[], t.config.scrollbackLines, cols⟩ := by
  rw [Scrollback.new, if_neg (not_not.mpr hcap), if_neg hcols]

theorem resizeCells_spec (h : t.Sizes c r c₀ r₀) (hcap : minScrollback ≤ t.config.scrollbackLines ∧
    t.config.scrollbackLines ≤ maxScrollback) {size : Winsize}
    (hb : sizeInBounds size.cols size.rows = true) :
    Returns (t.resizeCells size) fun out => out.2 = .ok () ∧
      out.1.Sizes size.cols size.rows c₀ r₀ ∧ out.1.altGrid = t.altGrid ∧
      out.1.host = t.host := by
  apply (h.grid.resize hb).bind
  rintro _ ⟨g, rfl, hg⟩
  have hcols : size.cols ≠ 0 := hg.cols_pos.ne'
  simp only [newScrollback_eq hcap hcols]
  exact .pure ⟨rfl, ⟨hg, h.saved, h.altGrid⟩, rfl, rfl⟩

/-- A resize keeps the bounds and what waits for the user and the program. -/
structure Resizes (c₀ r₀ : ℕ) (t t' : Terminal) : Prop where
  sizes : ∃ c r, t'.Sizes c r c₀ r₀
  altGrid : t'.altGrid = t.altGrid
  config : t'.config = t.config
  pendingPaste : t'.pendingPaste = t.pendingPaste
  writeBuf : t'.writeBuf = t.writeBuf

/-- The active screen has a size, and the program knows it if it knew the one before. -/
structure Fits (size : Winsize) (c₀ r₀ : ℕ) (t t' : Terminal) : Prop where
  sizes : t'.Sizes size.cols size.rows c₀ r₀
  pty : (∀ p ∈ t.pty, p = t.sizeInCells) → ∀ p ∈ t'.pty, p = size

theorem resize_spec (h : t.Sizes c r c₀ r₀) (hcap : minScrollback ≤ t.config.scrollbackLines ∧
    t.config.scrollbackLines ≤ maxScrollback) (width height : ℕ) (answer : Except String Unit) :
    Returns (t.resize width height answer) fun out => Resizes c₀ r₀ t out.1 ∧
      (minPanePx ≤ width → minPanePx ≤ height → out.2 = .ok () →
        Fits (cellsFor t.metrics width height) c₀ r₀ t out.1) := by
  apply Returns.ite
  · intro hsmall
    refine .pure ⟨⟨⟨c, r, h⟩, rfl, rfl, rfl, rfl⟩, fun hwidth hheight => ?_⟩
    omega
  · intro _
    apply Returns.ite
    · intro hsize
      refine .pure ⟨⟨⟨c, r, h.grid, h.saved, h.altGrid⟩, rfl, rfl, rfl, rfl⟩, fun _ _ _ => ?_⟩
      rw [hsize]
      refine ⟨⟨?_, h.saved, h.altGrid⟩, id⟩
      exact h.grid.cols_eq.symm ▸ h.grid.rowCount_eq.symm ▸ h.grid
    · intro _
      apply (resizeCells_spec h hcap (cellsFor_inBounds t.metrics width height)).bind
      rintro ⟨t', _⟩ ⟨rfl, hs, halt, hhost⟩
      have hkept : Resizes c₀ r₀ t t' :=
        ⟨⟨_, _, hs⟩, halt, congrArg Host.config hhost, congrArg Host.pendingPaste hhost,
          congrArg Host.writeBuf hhost⟩
      simp only [reportSize]
      cases hpty : t'.pty with
      | none =>
        refine .pure ⟨{ hkept with sizes := ⟨_, _, hs.grid, hs.saved, hs.altGrid⟩ }, ?_⟩
        refine fun _ _ _ => ⟨⟨hs.grid, hs.saved, hs.altGrid⟩, fun _ p hp => ?_⟩
        rw [Option.mem_def, hpty] at hp
        cases hp
      | some p =>
        cases answer with
        | ok _ =>
          refine .pure ⟨{ hkept with sizes := ⟨_, _, hs.grid, hs.saved, hs.altGrid⟩ }, ?_⟩
          refine fun _ _ _ => ⟨⟨hs.grid, hs.saved, hs.altGrid⟩, ?_⟩
          rintro - _ ⟨⟩
          rfl
        | error text =>
          exact .pure ⟨hkept, fun _ _ herr => absurd herr (by simp)⟩

/-! ### Looking at the document -/

theorem windowStart_toNat (t : Terminal) : t.windowStart.toNat = t.scrollback.len +
    t.grid.rowCount - (t.visibleRows + min t.viewport.scrollOffset t.visibleRows) := by
  rw [windowStart]
  omega

section Views

variable (h : t.grid.Sized c r)
include h

theorem line_returns {row : ℕ} (hrow : row < t.grid.rowCount) :
    Returns (t.grid.line row) fun _ => True :=
  (h.shape.getElem (hrow.trans_eq h.rowCount_eq)).mono fun _ _ => trivial

theorem lineChars_returns (row : ℤ) : Returns (t.lineChars row) fun _ => True := by
  apply Returns.ite
  · exact fun _ => .pure trivial
  · intro _
    apply Returns.ite
    · exact fun _ => .pure trivial
    · intro _
      apply Returns.ite
      · exact fun _ => .pure trivial
      · intro hrow
        have hlt : (row - (t.scrollback.len : ℤ)).toNat < t.grid.rowCount := by
          have hpos := Nat.zero_lt_of_lt (h.cursor.1.trans_eq h.rowCount_eq.symm)
          omega
        exact (line_returns h hlt).bind fun _ _ => .pure trivial

theorem selectionStart_sized (tables : UnicodeTables) (pos : CellPos) (mode : SelectionMode) :
    Returns (t.selectionStart tables pos mode) (Quiet c r t) := by
  cases mode with
  | word =>
    apply (expandWord_returns (lineChars_returns h pos.row)).bind
    exact fun _ _ => .pure (.of_eq h rfl rfl rfl rfl rfl)
  | character | line => exact .pure (.of_eq h rfl rfl rfl rfl rfl)

theorem selectionExtend_sized (tables : UnicodeTables) (pos : CellPos) :
    Returns (t.selectionExtend tables pos) (Quiet c r t) := by
  unfold selectionExtend
  split
  next => exact .pure (.refl h)
  next sel =>
    split
    · apply (expandWord_returns (lineChars_returns h pos.row)).bind
      exact fun _ _ => .pure (.of_eq h rfl rfl rfl rfl rfl)
    · exact .pure (.of_eq h rfl rfl rfl rfl rfl)

omit h in
theorem lineSelection_returns (chars : List Char) (col0 col1 : ℤ) :
    Returns (lineSelection chars col0 col1) fun _ => True := by
  have hcells : ∀ col ∈ span (max col0 0) (min col1 ((chars.length : ℤ) - 1)),
      Returns (chars[col.toNat]?) fun _ => True := by
    intro col hcol
    obtain ⟨i, hi, rfl⟩ := List.mem_map.mp hcol
    have hlt := List.mem_range.mp hi
    exact .of_eq (List.getElem?_eq_getElem (by omega)) trivial
  exact (Returns.mapM hcells).bind fun _ _ => .pure trivial

theorem rowSelection_returns (s e : CellPos) (row : ℤ) :
    Returns (t.rowSelection s e row) fun _ => True := by
  apply (lineChars_returns h row).bind
  rintro chars -
  apply Returns.ite
  · exact fun _ => .pure trivial
  · exact fun _ => (lineSelection_returns _ _ _).bind fun _ _ => .pure trivial

theorem selectedText_returns : Returns t.selectedText fun _ => True := by
  unfold selectedText
  split
  next => exact .pure trivial
  next sel =>
    apply Returns.ite
    · exact fun _ => .pure trivial
    · intro _
      apply (Returns.mapM fun row _ => rowSelection_returns h _ _ row).bind
      exact fun _ _ => .pure trivial

theorem paneView_returns : Returns t.paneView fun _ => True := by
  have hlines : ∀ doc ∈ List.range' t.windowStart.toNat
      (t.scrollback.len + t.grid.rowCount - t.windowStart.toNat),
      Returns (t.shownLine doc) fun _ => True := by
    intro doc hdoc
    obtain ⟨hge, hlt⟩ := List.mem_range'_1.mp hdoc
    apply Returns.ite
    · exact fun _ => .pure trivial
    · exact fun _ => line_returns h (by omega)
  exact (Returns.mapM hlines).bind fun _ _ => .pure trivial

end Views

/-! ### Sessions and queues -/

theorem clearScreen_spec (h : t.grid.Sized c r) : Returns t.clearScreen fun t' =>
    t'.Sizes c r c r ∧ t'.host = t.host := by
  obtain ⟨g, hnew, hg⟩ := Grid.new_sized h.bounds
  have hnew' : Grid.new t.grid.cols t.grid.rowCount = .ok g := by
    rw [h.cols_eq, h.rowCount_eq, hnew]
  simp only [clearScreen, hnew']
  exact .pure ⟨⟨hg, by simp [resetSgr], rfl⟩, rfl⟩

/-- Starting or dropping a session keeps the bounds and what waits for the user and the
program. -/
structure Restarts (t t' : Terminal) : Prop where
  sizes : ∃ c r c₀ r₀, t'.Sizes c r c₀ r₀
  config : t'.config = t.config
  pendingPaste : t'.pendingPaste = t.pendingPaste
  writeBuf : t'.writeBuf = t.writeBuf

/-- A session starts on an empty main screen whose size the program is told. -/
theorem startSession_cases (h : t.Sizes c r c₀ r₀) (answer : Except TerminalError Unit) :
    Returns (t.startSession answer) fun out => out.1 = t ∨
      out.1.Sizes c r c r ∧ out.1.host = host { t with pty := some t.sizeInCells } := by
  apply Returns.ite
  · exact fun _ => .pure (.inl rfl)
  · intro _
    cases answer with
    | error e => exact .pure (.inl rfl)
    | ok _ =>
      have hsized : Sized c r ({ t with pty := some t.sizeInCells } : Terminal).grid := h.grid
      apply (clearScreen_spec hsized).bind
      exact fun t' ht' => .pure (.inr ht')

theorem startSession_spec (h : t.Sizes c r c₀ r₀) (answer : Except TerminalError Unit) :
    Returns (t.startSession answer) fun out => Restarts t out.1 := by
  apply (startSession_cases h answer).mono
  rintro ⟨t', _⟩ (rfl | ⟨hs, hhost⟩)
  · exact ⟨⟨_, _, _, _, h⟩, rfl, rfl, rfl⟩
  · exact ⟨⟨_, _, _, _, hs⟩, congrArg Host.config hhost, congrArg Host.pendingPaste hhost,
      congrArg Host.writeBuf hhost⟩

theorem restart_spec (h : t.Sizes c r c₀ r₀) (answer : Except TerminalError Unit) :
    Returns (t.restart answer) fun out => Restarts t out.1 := by
  obtain ⟨g, hnew, hg⟩ := Grid.new_sized h.grid.bounds
  have hnew' : Grid.new t.shutdown.grid.cols t.shutdown.grid.rowCount = .ok g := by
    rw [← hnew, ← h.grid.cols_eq, ← h.grid.rowCount_eq]
    rfl
  simp only [restart, hnew']
  have hs : Sizes c r c r (resetSgr { t.shutdown with
      grid := g
      altGrid := false
      saved := none
      scrollback := t.shutdown.scrollback.clear
      viewport := .default
      selection := none }) := ⟨hg, by simp [resetSgr], rfl⟩
  apply (startSession_spec hs answer).mono
  exact fun out hout => ⟨hout.sizes, hout.config, hout.pendingPaste, hout.writeBuf⟩

/-- The screens and the configuration are left alone. -/
structure SameScreens (t t' : Terminal) : Prop where
  grid : t'.grid = t.grid
  saved : t'.saved = t.saved
  altGrid : t'.altGrid = t.altGrid
  config : t'.config = t.config

theorem SameScreens.refl (t : Terminal) : SameScreens t t := ⟨rfl, rfl, rfl, rfl⟩

theorem SameScreens.trans {t'' : Terminal} (h : SameScreens t t') (h' : SameScreens t' t'') :
    SameScreens t t'' :=
  ⟨h'.grid.trans h.grid, h'.saved.trans h.saved, h'.altGrid.trans h.altGrid,
    h'.config.trans h.config⟩

theorem Valid.of_same (h : t.Valid) (hs : SameScreens t t') : t'.Valid := by
  obtain ⟨⟨c, r, c₀, r₀, hsizes⟩, hcap⟩ := h
  refine ⟨⟨c, r, c₀, r₀, hs.grid ▸ hsizes.grid, hs.saved ▸ hsizes.saved, ?_⟩, hs.config ▸ hcap⟩
  rw [hs.altGrid, hs.saved, hsizes.altGrid]

theorem sendInput_same (bytes : List UInt8) : SameScreens t (t.sendInput bytes).1 := by
  unfold sendInput
  split
  · exact .refl t
  · split <;> exact ⟨rfl, rfl, rfl, rfl⟩

theorem keyInput_same (encoded : List UInt8) : SameScreens t (t.keyInput encoded).1 := by
  unfold keyInput
  split <;> exact ⟨rfl, rfl, rfl, rfl⟩

theorem paste_same (text : String) : SameScreens t (t.paste text).1 := by
  unfold paste
  dsimp only
  split
  · exact .refl t
  · split
    · exact .refl t
    · split
      · exact ⟨rfl, rfl, rfl, rfl⟩
      · exact sendInput_same _

theorem confirmPaste_same : SameScreens t t.confirmPaste.1 := by
  unfold confirmPaste
  split
  next => exact .refl t
  next text _ =>
    have hs : SameScreens t t.cancelPaste := ⟨rfl, rfl, rfl, rfl⟩
    dsimp only
    split
    · exact hs
    · exact hs.trans (sendInput_same _)

theorem tapPaste_same (clipboard : Option String) : SameScreens t (t.tapPaste clipboard) := by
  unfold tapPaste
  split
  · exact .refl t
  · split
    · exact .refl t
    · exact sendInput_same _

theorem writeAll_same (bytes : List UInt8) (answers : List WriteAnswer) :
    SameScreens t (t.writeAll bytes answers).1 := by
  unfold writeAll
  split <;> exact ⟨rfl, rfl, rfl, rfl⟩

theorem flush_same (answers : List WriteAnswer) : SameScreens t (t.flush answers).1 := by
  have hpending : SameScreens t (t.flushPending answers).1 := by
    have hempty : SameScreens t { t with writeBuf := [] } := ⟨rfl, rfl, rfl, rfl⟩
    exact hempty.trans (writeAll_same _ _)
  have hkeys (s : Terminal) (answers : List WriteAnswer) :
      SameScreens s (s.flushKeys answers).1 := by
    have hempty : SameScreens s { s with inputSource := s.inputSource.map fun _ => [] } :=
      ⟨rfl, rfl, rfl, rfl⟩
    exact hempty.trans (writeAll_same _ _)
  have hresponse (s : Terminal) (answers : List WriteAnswer) :
      SameScreens s (s.flushResponse answers).1 := by
    have hempty : SameScreens s { s with response := [] } := ⟨rfl, rfl, rfl, rfl⟩
    exact hempty.trans (writeAll_same _ _)
  exact hpending.trans ((hkeys _ _).trans (hresponse _ _))

/-! ### Calls of the host -/

theorem perform_valid (h : t.Valid) (tables : UnicodeTables) (op : TerminalOp) :
    Returns (t.perform tables op) fun out => out.1.Valid := by
  obtain ⟨c, r, c₀, r₀, hs⟩ := h.sizes
  have hsame {t' : Terminal} {reply : Reply} (hsame : SameScreens t t') :
      Returns (some (t', reply)) fun out => out.1.Valid := .pure (h.of_same hsame)
  have hrestart {answered : Option (Terminal × Except TerminalError Unit)}
      (hr : Returns answered fun out => Restarts t out.1) :
      Returns (answered.map fun out => (out.1, Reply.result out.2)) fun out => out.1.Valid :=
    hr.map fun out hout => ⟨hout.sizes, hout.config ▸ h.capacity⟩
  cases op with
  | feed bytes => exact (feed_valid h tables bytes).map fun _ ht' => ht'.2
  | resize width height answer =>
    apply (resize_spec hs h.capacity width height answer).map
    rintro out ⟨hout, -⟩
    obtain ⟨c', r', hs'⟩ := hout.sizes
    exact ⟨⟨c', r', c₀, r₀, hs'⟩, hout.config ▸ h.capacity⟩
  | scrollUp n | scrollDown n | returnToNewest => exact hsame ⟨rfl, rfl, rfl, rfl⟩
  | selectionStart pos mode =>
    exact (selectionStart_sized hs.grid tables pos mode).map fun _ hq => h.of_quiet hs hq
  | selectionExtend pos =>
    exact (selectionExtend_sized hs.grid tables pos).map fun _ hq => h.of_quiet hs hq
  | selectionClear => exact .pure (h.of_quiet hs (selectionClear_quiet hs.grid))
  | startSession answer => exact hrestart (startSession_spec hs answer)
  | restart answer => exact hrestart (restart_spec hs answer)
  | shutdown => exact hsame ⟨rfl, rfl, rfl, rfl⟩
  | sendInput bytes => exact hsame (sendInput_same bytes)
  | keyInput encoded => exact hsame (keyInput_same encoded)
  | paste text => exact hsame (paste_same text)
  | confirmPaste => exact hsame confirmPaste_same
  | cancelPaste => exact hsame ⟨rfl, rfl, rfl, rfl⟩
  | tapPaste clipboard => exact hsame (tapPaste_same clipboard)
  | flush answers => exact hsame (flush_same answers)

/-- A new terminal shows an empty main screen, and nothing waits in it. -/
theorem new_spec {config : TerminalConfig} {metrics : CellMetrics}
    (h : Terminal.new config metrics = .ok t) : t.Valid ∧ t.saved = none ∧
      t.host = ⟨config, metrics, none, [], none, 0, 0, none⟩ ∧ t.response = [] := by
  obtain ⟨g, hnew, hg⟩ := Grid.new_sized (c := 80) (r := 24) (by decide)
  by_cases hcap : minScrollback ≤ config.scrollbackLines ∧ config.scrollbackLines ≤ maxScrollback
  · have hscroll : Scrollback.new config.scrollbackLines 80 =
        .ok ⟨[], config.scrollbackLines, 80⟩ := by
      rw [Scrollback.new, if_neg (not_not.mpr hcap), if_neg (by decide)]
    simp only [Terminal.new, hscroll, hnew, Except.mapError] at h
    cases h
    exact ⟨⟨⟨80, 24, 80, 24, hg, by simp, rfl⟩, hcap⟩, rfl, rfl, rfl⟩
  · have hscroll : ∃ e, Scrollback.new config.scrollbackLines 80 = .error e :=
      ⟨_, by rw [Scrollback.new, if_pos hcap]⟩
    obtain ⟨e, he⟩ := hscroll
    simp only [Terminal.new, he, Except.mapError] at h
    cases h

theorem new_valid {config : TerminalConfig} {metrics : CellMetrics}
    (h : Terminal.new config metrics = .ok t) : t.Valid := (new_spec h).1

/-- The Unicode tables on ASCII characters. -/
def asciiTables : UnicodeTables where
  width c := if 0x20 ≤ c.toNat ∧ c.toNat < 0x7F then some 1 else none
  isAlphanumeric := Char.isAlphanum

/-- The cells of the embedded font at 31 pixels. -/
def fontCells : CellMetrics := ⟨16, 32, by decide, by decide⟩

/-- What the bounds of a terminal come to for those who look at it. -/
structure Safe (t : Terminal) : Prop where
  rows : t.grid.rows.length = t.grid.rowCount
  cells : ∀ line ∈ t.grid.rows, line.length = t.grid.cols
  cursor : t.grid.cursor.row < t.grid.rowCount ∧ t.grid.cursor.col < t.grid.cols
  savedCursor : t.grid.savedCursor.row < t.grid.rowCount ∧ t.grid.savedCursor.col < t.grid.cols
  region : t.grid.scrollTop ≤ t.grid.scrollBottom ∧ t.grid.scrollBottom < t.grid.rowCount
  tabStops : t.grid.tabStops.length = t.grid.cols
  dirty : t.grid.dirty.length = t.grid.rowCount
  history : ∀ i < t.scrollback.len, ∃ line, t.scrollback.fromTop i = some line
  paneView : ∃ view, t.paneView = some view
  selectedText : ∃ text, t.selectedText = some text

theorem Valid.safe (h : t.Valid) : t.Safe := by
  obtain ⟨⟨c, r, c₀, r₀, ⟨hg, -, -⟩⟩, -⟩ := h
  obtain ⟨view, hview, -⟩ := paneView_returns hg
  obtain ⟨text, htext, -⟩ := selectedText_returns hg
  have hcols := hg.cols_eq.symm
  have hrows := hg.rowCount_eq.symm
  constructor
  · exact hrows ▸ hg.shape.1
  · exact hcols ▸ hg.shape.2
  · exact hrows ▸ hcols ▸ hg.cursor
  · exact hrows ▸ hcols ▸ hg.savedCursor
  · exact hrows ▸ hg.region
  · exact hcols ▸ hg.tabStops
  · exact hrows ▸ hg.dirty
  · exact fun i hi => ⟨_, List.getElem?_eq_getElem hi⟩
  · exact ⟨view, hview⟩
  · exact ⟨text, htext⟩

/-- Do what the host asks for, one call after the other. -/
def performAll (tables : UnicodeTables) (t : Terminal) (ops : List TerminalOp) : Option Terminal :=
  ops.foldlM (fun t op => (t.perform tables op).map Prod.fst) t

theorem performAll_valid (h : t.Valid) (tables : UnicodeTables) (ops : List TerminalOp) :
    Returns (t.performAll tables ops) Valid := by
  apply Returns.foldlM Valid
  · exact fun t' ht' op _ => (perform_valid ht' tables op).map fun _ hout => hout
  · exact h

/-- Whatever the program prints and the host asks for, no call is refused, and neither is a
look at the document afterwards. -/
theorem performAll_safe {config : TerminalConfig} {metrics : CellMetrics}
    (h : Terminal.new config metrics = .ok t) (tables : UnicodeTables) (ops : List TerminalOp) :
    Returns (performAll tables t ops) Safe :=
  (performAll_valid (new_valid h) tables ops).mono fun _ => Valid.safe

theorem performAll_safe_altScreen :
    ∃ t, Terminal.new .default fontCells = .ok t ∧
      Returns (performAll asciiTables t
        [.feed (0x1B :: Protocol.asBytes "[?1049h"), .resize 100 100 (.ok ()), .scrollUp 3,
          .feed (0x1B :: Protocol.asBytes "[9;9999H"), .feed [0x0A, 0xFF, 0x1B],
          .selectionStart ⟨-3, 70⟩ .line]) Safe := by
  have hnew : ∃ t, Terminal.new .default fontCells = .ok t := ⟨_, rfl⟩
  obtain ⟨t, ht⟩ := hnew
  exact ⟨t, ht, performAll_safe ht _ _⟩

end Terminal

/-- A terminal within its bounds; no call to it is refused. -/
structure ValidTerminal where
  terminal : Terminal
  valid : terminal.Valid

namespace ValidTerminal

variable (v : ValidTerminal) (tables : UnicodeTables) (op : TerminalOp)

def perform : ValidTerminal × Reply :=
  let h := Terminal.perform_valid v.valid tables op
  let out := (v.terminal.perform tables op).get h.isSome
  (⟨out.1, h.get⟩, out.2)

theorem perform_eq : v.terminal.perform tables op =
    some ((v.perform tables op).1.terminal, (v.perform tables op).2) :=
  (Option.some_get _).symm

/-- What holds of every result of a call holds of the result. -/
theorem perform_of_returns {P : Terminal × Reply → Prop}
    (h : Returns (v.terminal.perform tables op) P) :
    P ((v.perform tables op).1.terminal, (v.perform tables op).2) := by
  obtain ⟨out, hout, hP⟩ := h
  rw [perform_eq] at hout
  exact Option.some_inj.mp hout ▸ hP

theorem perform_of_eq {t' : Terminal} {reply : Reply}
    (h : v.terminal.perform tables op = some (t', reply)) :
    (v.perform tables op).1.terminal = t' ∧ (v.perform tables op).2 = reply := by
  rw [perform_eq] at h
  cases h
  exact ⟨rfl, rfl⟩

end ValidTerminal

end Ferrokey.Terminal
