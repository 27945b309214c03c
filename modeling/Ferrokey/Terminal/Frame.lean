import Ferrokey.Terminal.Engine

/-! # What an action leaves alone

An action of the parser works on the screen, the history, the modes and the answers.
What belongs to the host stays and answers are only added. Unless the action switches
screens, the size of the screen and the screen that was put away stay too; the history
stays on the alternate screen unless the action takes lines from it.
-/

set_option linter.dupNamespace false

namespace Ferrokey.Terminal

open Grid (Sized)

/-- What belongs to the host. -/
structure Host where
  config : TerminalConfig
  metrics : CellMetrics
  pty : Option Winsize
  writeBuf : List UInt8
  inputSource : Option (List UInt8)
  paneW : ℕ
  paneH : ℕ
  pendingPaste : Option String

namespace Terminal

def host (t : Terminal) : Host :=
  ⟨t.config, t.metrics, t.pty, t.writeBuf, t.inputSource, t.paneW, t.paneH, t.pendingPaste⟩

/-- What every action keeps. -/
structure Advances (t t' : Terminal) : Prop where
  host : t'.host = t.host
  response : t.response <+: t'.response

/-- What every action keeps that does not switch screens; the screen has the given size. -/
structure Keeps (c r : ℕ) (t t' : Terminal) : Prop extends Advances t t' where
  sized : t'.grid.Sized c r
  altGrid : t'.altGrid = t.altGrid
  saved : t'.saved = t.saved

/-- On the alternate screen the history stays as well. -/
structure Quiet (c r : ℕ) (t t' : Terminal) : Prop extends Keeps c r t t' where
  history : t.altGrid = true → t'.scrollback = t.scrollback

variable {t t' t'' : Terminal} {c r : ℕ}

theorem Advances.refl (t : Terminal) : Advances t t := ⟨rfl, List.prefix_rfl⟩

theorem Advances.trans (h : Advances t t') (h' : Advances t' t'') : Advances t t'' :=
  ⟨h'.host.trans h.host, h.response.trans h'.response⟩

theorem Keeps.trans (h : Keeps c r t t') (h' : Keeps c r t' t'') : Keeps c r t t'' where
  toAdvances := h.toAdvances.trans h'.toAdvances
  sized := h'.sized
  altGrid := h'.altGrid.trans h.altGrid
  saved := h'.saved.trans h.saved

theorem Quiet.trans (h : Quiet c r t t') (h' : Quiet c r t' t'') : Quiet c r t t'' where
  toKeeps := h.toKeeps.trans h'.toKeeps
  history halt := (h'.history (h.altGrid.trans halt)).trans (h.history halt)

/-- A change of nothing but the screen, the modes, the rendition and what is shown. -/
theorem Quiet.of_eq (h : t'.grid.Sized c r) (hhost : t'.host = t.host)
    (hresponse : t'.response = t.response) (halt : t'.altGrid = t.altGrid)
    (hsaved : t'.saved = t.saved) (hhistory : t'.scrollback = t.scrollback) : Quiet c r t t' where
  host := hhost
  response := hresponse ▸ List.prefix_rfl
  sized := h
  altGrid := halt
  saved := hsaved
  history _ := hhistory

theorem Quiet.refl (h : t.grid.Sized c r) : Quiet c r t t := .of_eq h rfl rfl rfl rfl rfl

theorem onGrid_quiet {f : Grid → Option Grid} (hf : Returns (f t.grid) (Sized c r)) :
    Returns (t.onGrid f) (Quiet c r t) :=
  hf.bind fun _ hg => .pure (.of_eq hg rfl rfl rfl rfl rfl)

section Operations

variable (h : t.grid.Sized c r)
include h

/-! ### The history -/

theorem pushScrollback_quiet (line : Line) : Quiet c r t (t.pushScrollback line) := by
  unfold pushScrollback
  split
  next => exact .refl h
  next hmain =>
    exact ⟨⟨⟨rfl, List.prefix_rfl⟩, h, rfl, rfl⟩, fun halt => absurd halt hmain⟩

theorem pushAll_quiet (lines : List Line) : Quiet c r t (t.pushAll lines) := by
  induction lines generalizing t with
  | nil => exact .refl h
  | cons line lines ih =>
    have hq := pushScrollback_quiet h line
    exact hq.trans (ih hq.sized)

omit h in
theorem scrolling_quiet {f : Grid → Option (Grid × Option Line)}
    (hf : Returns (f t.grid) fun out => out.1.Sized c r) :
    Returns (t.scrolling f) (Quiet c r t) := by
  apply hf.bind
  rintro ⟨grid, scrolled⟩ hg
  have hq : Quiet c r t { t with grid } := .of_eq hg rfl rfl rfl rfl rfl
  exact .pure (hq.trans (pushAll_quiet hg scrolled.toList))

/-- Pulling a line back takes the newest one from the history. -/
theorem restoreFromScrollback_spec : Returns t.restoreFromScrollback fun t' =>
    Keeps c r t t' ∧ t'.scrollback = t.scrollback.popNewest.1 := by
  cases hlast : t.scrollback.lines.getLast? with
  | none =>
    have hnil : t.scrollback.lines = [] := List.getLast?_eq_none_iff.mp hlast
    rw [restoreFromScrollback, Scrollback.popNewest_of_nil hnil]
    exact .pure ⟨(Quiet.refl h).toKeeps, rfl⟩
  | some line =>
    rw [restoreFromScrollback, Scrollback.popNewest_of_last hlast]
    apply (h.pushLineFromScrollback line).bind
    intro grid hg
    exact .pure ⟨⟨⟨rfl, List.prefix_rfl⟩, hg, rfl, rfl⟩, rfl⟩

theorem reverseIndex_spec : Returns t.reverseIndex fun t' =>
    Keeps c r t t' ∧ t'.scrollback = t.scrollback.popNewest.1 := by
  have hgrid : Returns (t.onGrid (·.reverseIndex)) fun t' =>
      Keeps c r t t' ∧ t'.scrollback = t.scrollback :=
    h.reverseIndex.bind fun g hg => .pure ⟨⟨⟨rfl, List.prefix_rfl⟩, hg, rfl, rfl⟩, rfl⟩
  apply hgrid.bind
  rintro t' ⟨hk, hs⟩
  apply (restoreFromScrollback_spec hk.sized).mono
  rintro t'' ⟨hk', hs'⟩
  exact ⟨hk.trans hk', hs'.trans (hs ▸ rfl)⟩

/-! ### Resets and screens -/

theorem setModes_quiet (f : TerminalModes → TerminalModes) : Quiet c r t (t.setModes f) :=
  .of_eq h rfl rfl rfl rfl rfl

theorem saveCursor_quiet : Quiet c r t t.saveCursor :=
  .of_eq { h.saveCursor with } rfl rfl rfl rfl rfl

theorem restoreCursor_quiet : Returns t.restoreCursor (Quiet c r t) := by
  apply (onGrid_quiet h.restoreCursor).bind
  intro t' hq
  exact .pure (hq.trans (.of_eq hq.sized rfl rfl rfl rfl rfl))

theorem selectionClear_quiet : Quiet c r t t.selectionClear := by
  unfold selectionClear
  split
  · exact .of_eq h rfl rfl rfl rfl rfl
  · exact .refl h

theorem softReset_quiet : Returns t.softReset (Quiet c r t) := by
  apply (h.setOriginMode false).maxRow.bind
  rintro lastRow -
  apply ((h.setOriginMode false).setScrollRegion 0 lastRow).bind
  intro grid hg
  apply (hg.clearAllTabStops.setCursor 0 0).bind
  intro grid' hg'
  have hq : Quiet c r t (resetSgr { t.setModes softModes with grid := grid' }) :=
    .of_eq hg' rfl rfl rfl rfl rfl
  have hq' := hq.trans (selectionClear_quiet hg')
  exact .pure (hq'.trans (.of_eq hq'.sized rfl rfl rfl rfl rfl))

theorem fullReset_spec : Returns t.fullReset fun t' =>
    Keeps c r t t' ∧ (t.altGrid = true → t'.scrollback = t.scrollback.clear) := by
  apply (softReset_quiet h).bind
  intro t' hq
  apply (onGrid_quiet (hq.sized.eraseInDisplay 2)).bind
  intro t'' hq'
  have hq'' := hq.trans hq'
  refine .pure ⟨hq''.toKeeps.trans ⟨⟨rfl, List.prefix_rfl⟩, hq'.sized, rfl, rfl⟩, ?_⟩
  exact fun halt => congrArg Scrollback.clear (hq''.history halt)

/-! ### Answers and modes -/

theorem queueResponse_quiet (bytes : List UInt8) : Quiet c r t (t.queueResponse bytes) := by
  unfold queueResponse
  split
  · exact .refl h
  · exact ⟨⟨⟨rfl, List.prefix_append _ _⟩, h, rfl, rfl⟩, fun _ => rfl⟩

theorem setAnsiCode_quiet (code : ℕ) (set : Bool) : Quiet c r t (t.setAnsiCode code set) := by
  unfold setAnsiCode
  cases AnsiMode.fromCode code with
  | none => exact .refl h
  | some mode =>
    cases mode with
    | insert => exact setModes_quiet h fun m => { m with insertMode := set }
    | newline => exact .refl h

theorem setAnsiModes_quiet (codes : List ℕ) (set : Bool) :
    Quiet c r t (t.setAnsiModes codes set) := by
  induction codes generalizing t with
  | nil => exact .refl h
  | cons code codes ih =>
    have hq := setAnsiCode_quiet h code set
    exact hq.trans (ih hq.sized)

end Operations

/-! ### Private modes -/

/-- The codes of the private modes that switch screens. -/
def isScreenCode (code : ℕ) : Bool := code == 47 || code == 1047 || code == 1049

def isScreenMode : PrivateMode → Bool
  | .alternateScreen | .alternateScreenSave | .alternateScreenSaveCursor => true
  | _ => false

theorem isScreenMode_of_fromCode {code : ℕ} {mode : PrivateMode}
    (h : PrivateMode.fromCode code = some mode) : isScreenMode mode = isScreenCode code := by
  unfold PrivateMode.fromCode at h
  split at h <;> cases h <;> rfl

theorem setPrivateMode_quiet (h : t.grid.Sized c r) {mode : PrivateMode}
    (hmode : isScreenMode mode = false) (set : Bool) :
    Returns (t.setPrivateMode mode set) (Quiet c r t) := by
  have hswitch : Returns (t.switchPrivateMode mode set) (Quiet c r t) := by
    cases mode with
    | alternateScreen | alternateScreenSave | alternateScreenSaveCursor => cases hmode
    | columns132 | autoRepeat | sgrMouse => exact .pure (.refl h)
    | origin =>
      exact onGrid_quiet (f := fun g => some (g.setOriginMode set)) (.pure (h.setOriginMode set))
    | saveCursor =>
      cases set
      · exact restoreCursor_quiet h
      · exact .pure (saveCursor_quiet h)
    | _ => exact .pure (setModes_quiet h _)
  exact hswitch.bind fun t' hq => .pure (hq.trans (.of_eq hq.sized rfl rfl rfl rfl rfl))

theorem isScreenCode_of_unknown {code : ℕ} (h : PrivateMode.fromCode code = none) :
    isScreenCode code = false := by
  rw [Bool.eq_false_iff]
  intro hcode
  simp only [isScreenCode, Bool.or_eq_true, beq_iff_eq] at hcode
  rcases hcode with (rfl | rfl) | rfl <;> cases h

theorem setPrivateCode_quiet (h : t.grid.Sized c r) {code : ℕ} (hcode : isScreenCode code = false)
    (set : Bool) : Returns (t.setPrivateCode code set) (Quiet c r t) := by
  unfold setPrivateCode
  split
  next mode hmode => exact setPrivateMode_quiet h (isScreenMode_of_fromCode hmode ▸ hcode) set
  next => exact .pure (.refl h)

theorem setPrivateModes_quiet (h : t.grid.Sized c r) {codes : List ℕ}
    (hcodes : codes.any isScreenCode = false) (set : Bool) :
    Returns (t.setPrivateModes codes set) (Quiet c r t) := by
  apply Returns.foldlM (Quiet c r t)
  · intro t' hq code hmem
    have hcode : isScreenCode code = false := by
      simpa using List.any_eq_false.mp hcodes code hmem
    exact (setPrivateCode_quiet hq.sized hcode set).mono fun _ => hq.trans
  · exact .refl h

/-! ### Control sequences -/

/-- A plain or a marked `J` whose first parameter asks for more than the screen. -/
def clearsHistory (c : Csi) : Bool := finalChar c == 'J' && decide (3 ≤ c.param 0 0)

/-- An action that switches screens. -/
def switchesScreen : ParserAction → Bool
  | .csi c => isPrivateMode c && c.params.any isScreenCode
  | _ => false

/-- An action that takes lines from the history. -/
def takesHistory : ParserAction → Bool
  | .control .reverseIndex | .esc .reverseIndex | .esc .fullReset => true
  | .csi c => clearsHistory c
  | _ => false

theorem scrollUpLines_quiet (h : t.grid.Sized c r) (n : ℕ) :
    Returns (t.scrollUpLines n) (Quiet c r t) := by
  have hfull : Returns t.scrollsFullScreen fun _ => True := by
    apply Returns.ite
    · exact fun _ => h.maxRow.bind fun _ _ => .pure trivial
    · exact fun _ => .pure trivial
  apply hfull.bind
  rintro full -
  apply (h.scrollUpRegion n).bind
  rintro ⟨grid, scrolled⟩ ⟨hg, -⟩
  have hq : Quiet c r t { t with grid } := .of_eq hg rfl rfl rfl rfl rfl
  exact .pure (hq.trans (pushAll_quiet hg _))

theorem eraseDisplay_quiet (h : t.grid.Sized c r) {mode : ℕ} (hmode : mode ≠ 3) :
    Returns (t.eraseDisplay mode) (Quiet c r t) := by
  rw [eraseDisplay, if_neg hmode]
  exact onGrid_quiet (h.eraseInDisplay mode)

/-- Erasing the history too. -/
theorem eraseDisplay_clears (h : t.grid.Sized c r) : Returns (t.eraseDisplay 3) fun t' =>
    Keeps c r t t' ∧ t'.scrollback = t.scrollback.clear :=
  (h.eraseInDisplay 2).bind fun _ hg => .pure ⟨⟨⟨rfl, List.prefix_rfl⟩, hg, rfl, rfl⟩, rfl⟩

theorem printChar_quiet (h : t.grid.Sized c r) (tables : UnicodeTables) (ch : Char) :
    Returns (t.printChar tables ch) (Quiet c r t) :=
  scrolling_quiet (h.print tables ch t.attrs)

theorem repeat_quiet (h : t.grid.Sized c r) (tables : UnicodeTables) (ch : Char) (n : ℕ) :
    Returns (iterateM (·.printChar tables ch) n t) (Quiet c r t) := by
  apply Returns.iterate
  · intro t' hq
    exact (printChar_quiet hq.sized tables ch).mono fun _ => hq.trans
  · exact .refl h

/-- The function of a final byte, one case for each in the order of the dispatcher. -/
theorem csiFinal_quiet (h : t.grid.Sized c r) (tables : UnicodeTables) {csi : Csi}
    (hclear : clearsHistory csi = false) : Returns (t.csiFinal tables csi) (Quiet c r t) := by
  have hresponse (bytes : List UInt8) : Quiet c r t (t.queueResponse bytes) :=
    queueResponse_quiet h bytes
  have hdown (drow : ℤ) : Returns ((t.grid.moveCursor drow 0).map Grid.carriageReturn)
      (Sized c r) := (h.moveCursor drow 0).map fun _ hg => hg.carriageReturn
  unfold csiFinal
  dsimp only
  split
  · exact onGrid_quiet (h.insertChars _)
  · exact onGrid_quiet (h.moveCursor _ _)
  · exact onGrid_quiet (h.moveCursor _ _)
  · exact onGrid_quiet (h.moveCursor _ _)
  · exact onGrid_quiet (h.moveCursor _ _)
  · exact onGrid_quiet (h.moveCursor _ _)
  · exact onGrid_quiet (h.moveCursor _ _)
  · exact onGrid_quiet (hdown _)
  · exact onGrid_quiet (hdown _)
  · exact onGrid_quiet (h.setCol _)
  · exact onGrid_quiet (h.setCursor _ _)
  · exact onGrid_quiet (h.setCursor _ _)
  · exact onGrid_quiet (.iterate (fun _ hg => hg.tab) _ h)
  · next hfinal =>
    apply eraseDisplay_quiet h
    intro hmode
    simp only [clearsHistory, hfinal, beq_self_eq_true, Bool.true_and, decide_eq_false_iff_not]
      at hclear
    omega
  · exact onGrid_quiet (h.eraseInLine _)
  · exact onGrid_quiet (h.insertLines _)
  · exact onGrid_quiet ((h.deleteLines _).map fun _ hg => hg)
  · exact onGrid_quiet (h.deleteChars _)
  · exact scrollUpLines_quiet h _
  · exact onGrid_quiet (h.scrollDownRegion _)
  · exact onGrid_quiet (h.eraseChars _)
  · exact onGrid_quiet (.iterate (fun _ hg => hg.backspaceToTab) _ h)
  · cases t.lastChar with
    | none => exact .pure (.refl h)
    | some ch => exact repeat_quiet h tables ch _
  · split
    · exact .pure (hresponse _)
    · exact .pure (.refl h)
  · exact onGrid_quiet (h.setRow _)
  · split
    · exact onGrid_quiet (f := fun g => some g.clearTabStop) (.pure (h.putTabStop false))
    · exact onGrid_quiet (f := fun g => some g.clearAllTabStops) (.pure h.clearAllTabStops)
    · exact .pure (.refl h)
  · exact .pure (setAnsiModes_quiet h _ _)
  · exact .pure (setAnsiModes_quiet h _ _)
  · exact .pure (.of_eq h rfl rfl rfl rfl rfl)
  · split
    · exact .pure (hresponse _)
    · split
      · exact .pure (hresponse _)
      · exact .pure (.refl h)
  · split
    · exact onGrid_quiet (h.setScrollRegion _ _)
    · exact .pure (.refl h)
  · split
    · exact .pure (saveCursor_quiet h)
    · exact .pure (.refl h)
  · split
    · exact restoreCursor_quiet h
    · exact .pure (.refl h)
  · split
    · exact softReset_quiet h
    · exact .pure (.refl h)
  · exact .pure (.of_eq h rfl rfl rfl rfl rfl)

/-- A sequence that neither switches screens nor clears the history. -/
theorem csi_quiet (h : t.grid.Sized c r) (tables : UnicodeTables) {csi : Csi}
    (hswitch : switchesScreen (.csi csi) = false) (hclear : clearsHistory csi = false) :
    Returns (t.csi tables csi) (Quiet c r t) := by
  unfold Terminal.csi
  split
  next hprivate =>
    apply setPrivateModes_quiet h
    simpa only [switchesScreen, hprivate, Bool.true_and] using hswitch
  next =>
    split
    · exact .pure (setModes_quiet h fun m => { m with modifyOtherKeys := _ })
    · split
      · exact .pure (.of_eq h rfl rfl rfl rfl rfl)
      · exact csiFinal_quiet h tables hclear

theorem toNat_finalByte {csi : Csi} {ch : Char} (h : finalChar csi = ch) :
    csi.finalByte.toNat = ch.toNat := by
  have hvalid : Nat.isValidChar csi.finalByte.toNat :=
    .inl (csi.finalByte.toNat_lt.trans (by decide))
  rw [← h, finalChar, Char.ofNat, dif_pos hvalid]
  rfl

theorem finalByte_ne {csi : Csi} {ch : Char} (h : finalChar csi = ch) {b : UInt8}
    (hb : b.toNat ≠ ch.toNat) : (csi.finalByte == b) = false := by
  rw [beq_eq_false_iff_ne]
  rintro rfl
  exact hb (toNat_finalByte h)

theorem csi_clears (h : t.grid.Sized c r) (tables : UnicodeTables) {csi : Csi}
    (hclear : clearsHistory csi = true) : Returns (t.csi tables csi) fun t' =>
      Keeps c r t t' ∧ t'.scrollback = t.scrollback.clear := by
  simp only [clearsHistory, Bool.and_eq_true, beq_iff_eq, decide_eq_true_eq] at hclear
  obtain ⟨hfinal, hparam⟩ := hclear
  have hne {b : UInt8} (hb : b.toNat ≠ 'J'.toNat) := finalByte_ne hfinal hb
  have hprivate : isPrivateMode csi = false := by
    simp [isPrivateMode, hne (b := 0x68) (by decide), hne (b := 0x6C) (by decide)]
  have hother : isModifyOtherKeys csi = false := by
    simp [isModifyOtherKeys, hne (b := 0x6D) (by decide)]
  have hshape : isCursorShape csi = false := by
    simp [isCursorShape, hne (b := 0x71) (by decide)]
  have heq : t.csi tables csi = t.eraseDisplay 3 := by
    simp [Terminal.csi, hprivate, hother, hshape, csiFinal, hfinal, hparam]
  rw [heq]
  exact eraseDisplay_clears h

/-! ### Actions -/

theorem osc_quiet (h : t.grid.Sized c r) (payload : List UInt8) : Quiet c r t (t.osc payload) := by
  unfold osc
  dsimp only
  split
  case h_11 =>
    split
    · exact .of_eq h rfl rfl rfl rfl rfl
    · exact .refl h
  all_goals exact .of_eq h rfl rfl rfl rfl rfl

theorem control_quiet (h : t.grid.Sized c r) {code : ControlCode} (hcode : code ≠ .reverseIndex) :
    Returns (t.control code) (Quiet c r t) := by
  cases code with
  | bell => exact .pure (.of_eq h rfl rfl rfl rfl rfl)
  | backspace => exact onGrid_quiet (f := fun g => some g.backspace) (.pure h.backspace)
  | tab => exact onGrid_quiet h.tab
  | lineFeed | verticalTab | formFeed => exact scrolling_quiet h.lineFeed
  | carriageReturn =>
    exact onGrid_quiet (f := fun g => some g.carriageReturn) (.pure h.carriageReturn)
  | escape => exact .pure (.refl h)
  | index => exact scrolling_quiet h.index
  | nextLine => exact scrolling_quiet h.nextLine
  | tabSet => exact onGrid_quiet (f := fun g => some g.setTabStop) (.pure (h.putTabStop true))
  | reverseIndex => exact absurd rfl hcode

theorem esc_quiet (h : t.grid.Sized c r) {seq : EscSequence} (hindex : seq ≠ .reverseIndex)
    (hreset : seq ≠ .fullReset) : Returns (t.esc seq) (Quiet c r t) := by
  cases seq with
  | saveCursor => exact .pure (saveCursor_quiet h)
  | restoreCursor => exact restoreCursor_quiet h
  | index => exact scrolling_quiet h.index
  | nextLine => exact scrolling_quiet h.nextLine
  | reverseIndex => exact absurd rfl hindex
  | tabSet => exact onGrid_quiet (f := fun g => some g.setTabStop) (.pure (h.putTabStop true))
  | keypadApplication =>
    exact .pure (setModes_quiet h fun m => { m with applicationKeypad := true })
  | keypadNumeric => exact .pure (setModes_quiet h fun m => { m with applicationKeypad := false })
  | fullReset => exact absurd rfl hreset
  | decid => exact .pure (queueResponse_quiet h _)
  | lineAttributes byte =>
    apply Returns.ite
    · exact fun _ => onGrid_quiet (h.fillScreen 'E')
    · exact fun _ => .pure (.refl h)

/-- An action that neither switches screens nor takes lines from the history. -/
theorem apply_quiet (h : t.grid.Sized c r) (tables : UnicodeTables) {a : ParserAction}
    (hswitch : switchesScreen a = false) (htake : takesHistory a = false) :
    Returns (t.apply tables a) (Quiet c r t) := by
  cases a with
  | print ch =>
    have hq : Quiet c r t { t with lastChar := some ch } := .of_eq h rfl rfl rfl rfl rfl
    exact (printChar_quiet hq.sized tables ch).mono fun _ => hq.trans
  | control code =>
    apply control_quiet h
    rintro rfl
    cases htake
  | csi csi => exact csi_quiet h tables hswitch htake
  | osc payload => exact .pure (osc_quiet h payload)
  | esc seq =>
    apply esc_quiet h
    · rintro rfl
      cases htake
    · rintro rfl
      cases htake
  | charsetSelect _ => exact .pure (.refl h)

/-- What is left of the history when lines are taken from it. -/
def Shrinks (s s' : Scrollback) : Prop := s' = s.popNewest.1 ∨ s' = s.clear

/-- An action that takes lines from the history. -/
theorem apply_takes (h : t.grid.Sized c r) (tables : UnicodeTables) {a : ParserAction}
    (htake : takesHistory a = true) : Returns (t.apply tables a) fun t' =>
      Keeps c r t t' ∧ (t.altGrid = true → Shrinks t.scrollback t'.scrollback) := by
  have hindex : Returns t.reverseIndex fun t' =>
      Keeps c r t t' ∧ (t.altGrid = true → Shrinks t.scrollback t'.scrollback) :=
    (reverseIndex_spec h).mono fun _ ht' => ⟨ht'.1, fun _ => .inl ht'.2⟩
  cases a with
  | control code =>
    cases code with
    | reverseIndex => exact hindex
    | _ => cases htake
  | csi csi =>
    exact (csi_clears h tables htake).mono fun _ ht' => ⟨ht'.1, fun _ => .inr ht'.2⟩
  | esc seq =>
    cases seq with
    | reverseIndex => exact hindex
    | fullReset =>
      exact (fullReset_spec h).mono fun _ ht' => ⟨ht'.1, fun halt => .inr (ht'.2 halt)⟩
    | _ => cases htake
  | _ => cases htake

theorem apply_keeps (h : t.grid.Sized c r) (tables : UnicodeTables) {a : ParserAction}
    (hswitch : switchesScreen a = false) : Returns (t.apply tables a) (Keeps c r t) := by
  cases htake : takesHistory a with
  | false => exact (apply_quiet h tables hswitch htake).mono fun _ hq => hq.toKeeps
  | true => exact (apply_takes h tables htake).mono fun _ ht' => ht'.1

/-! ### Feeding -/

theorem markDirtyFromGrid_quiet (h : t.grid.Sized c r) : Quiet c r t t.markDirtyFromGrid := by
  unfold markDirtyFromGrid
  dsimp only
  split
  · exact .of_eq h.consumeDirty rfl rfl rfl rfl rfl
  · exact .of_eq h.consumeDirty rfl rfl rfl rfl rfl

theorem receive_quiet (h : t.grid.Sized c r) (bytes : List UInt8) :
    Quiet c r t (t.receive bytes) := .of_eq h rfl rfl rfl rfl rfl

theorem settle_quiet (h : t.grid.Sized c r) (synced : Bool) : Quiet c r t (t.settle synced) := by
  cases synced with
  | true => exact .of_eq h rfl rfl rfl rfl rfl
  | false =>
    have hq : Quiet c r t { t with eventsEmitted := t.eventsEmitted + 1 } :=
      .of_eq h rfl rfl rfl rfl rfl
    exact hq.trans (markDirtyFromGrid_quiet hq.sized)

end Terminal

end Ferrokey.Terminal
