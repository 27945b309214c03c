import Ferrokey.Terminal.Safety

/-! # Actions as lists of operations

Whatever state it meets, an action of the parser comes to a fixed list of operations: a
motion of the cursor, an edit of the screen, a glyph, a scroll, a move of a line between
the screen and the history, a switch of the screens, or a change of what is neither. What
holds of every operation holds of every action and of every byte that is fed.
-/

set_option linter.dupNamespace false

namespace Ferrokey.Terminal

open Grid (Sized)

open Terminal (finalChar isPrivateMode isModifyOtherKeys isCursorShape cursorShapeOf)

/-- What the cursor, the scroll region and the tab stops are told. -/
inductive Motion where
  | backspace
  | tab
  | backspaceToTab
  | carriageReturn
  | moveCursor (drow dcol : ℤ)
  | setCol (col : ℕ)
  | setRow (row : ℕ)
  | setCursor (row col : ℕ)
  | setScrollRegion (top bottom : ℕ)
  | resetScrollRegion
  | setOriginMode (on : Bool)
  | putTabStop (on : Bool)
  | clearAllTabStops

/-- What is done to the cells of the screen, by nothing that prints or stores a line. -/
inductive Edit where
  | insertChars (n : ℕ)
  | deleteChars (n : ℕ)
  | eraseChars (n : ℕ)
  | eraseInLine (mode : ℕ)
  | eraseInDisplay (mode : ℕ)
  | insertLines (n : ℕ)
  | deleteLines (n : ℕ)
  | scrollDown (n : ℕ)
  | reverseIndex
  | fillScreen (ch : Char)

/-- A change of what is neither on the screen nor in the history. -/
inductive Setting where
  | lastChar (ch : Char)
  | bell
  | insertMode (on : Bool)
  | applicationKeypad (on : Bool)
  | modifyOtherKeys (value : ℕ)
  | cursorShape (shape : CursorShape)
  | privateMode (mode : PrivateMode) (on : Bool)
  | softReset
  | rendition (params : List ℕ)
  | respond (bytes : List UInt8)
  | reportCursor
  | osc (payload : List UInt8)
  | invalid

inductive Operation where
  | motion (m : Motion)
  | edit (e : Edit)
  | set (s : Setting)
  | print (ch : Char)
  /-- Print the last character that was printed, if there is one. -/
  | printLast
  | lineFeed
  | index
  | nextLine
  | scrollUp (n : ℕ)
  /-- Pull the newest line of the history back. -/
  | pullBack
  | clearHistory
  | enterAlt (save : Bool)
  | exitAlt (restore : Bool)
  | saveCursor
  | restoreCursor

/-! ### What operations do -/

namespace Grid

variable (g : Grid)

def resetScrollRegion : Option Grid := do
  let lastRow ← Checked.sub g.rowCount 1
  g.setScrollRegion 0 lastRow

def move : Motion → Option Grid
  | .backspace => some g.backspace
  | .tab => g.tab
  | .backspaceToTab => g.backspaceToTab
  | .carriageReturn => some g.carriageReturn
  | .moveCursor drow dcol => g.moveCursor drow dcol
  | .setCol col => g.setCol col
  | .setRow row => g.setRow row
  | .setCursor row col => g.setCursor row col
  | .setScrollRegion top bottom => g.setScrollRegion top bottom
  | .resetScrollRegion => g.resetScrollRegion
  | .setOriginMode on => some (g.setOriginMode on)
  | .putTabStop on => some (g.putTabStop on)
  | .clearAllTabStops => some g.clearAllTabStops

def edit : Edit → Option Grid
  | .insertChars n => g.insertChars n
  | .deleteChars n => g.deleteChars n
  | .eraseChars n => g.eraseChars n
  | .eraseInLine mode => g.eraseInLine mode
  | .eraseInDisplay mode => g.eraseInDisplay mode
  | .insertLines n => g.insertLines n
  | .deleteLines n => (g.deleteLines n).map Prod.fst
  | .scrollDown n => g.scrollDown n
  | .reverseIndex => g.reverseIndex
  | .fillScreen ch => g.fillScreen ch

end Grid

/-- A private mode that is a flag of its own; the others leave the modes alone. -/
def TerminalModes.setPrivate (m : TerminalModes) (mode : PrivateMode) (set : Bool) :
    TerminalModes :=
  match mode with
  | .cursorKeys => { m with applicationCursorKeys := set }
  | .reverseVideo => { m with reverseVideo := set }
  | .autoWrap => { m with autoWrap := set }
  | .cursorBlink => { m with cursorBlink := set }
  | .cursorVisible => { m with cursorVisible := set }
  | .mouseNormal => { m with mouseMode := if set then .normal else .none }
  | .mouseButton => { m with mouseMode := if set then .button else .none }
  | .mouseAny => { m with mouseMode := if set then .any else .none }
  | .focusReporting => { m with focusReporting := set }
  | .bracketedPaste => { m with bracketedPaste := set }
  | .synchronizedOutput => { m with synchronizedOutput := set }
  | .columns132 | .origin | .autoRepeat | .alternateScreen | .sgrMouse | .alternateScreenSave
  | .saveCursor | .alternateScreenSaveCursor => m

namespace Terminal

variable (t : Terminal)

def set : Setting → Terminal
  | .lastChar ch => { t with lastChar := some ch }
  | .bell => { t with bell := true }
  | .insertMode on => t.setModes fun m => { m with insertMode := on }
  | .applicationKeypad on => t.setModes fun m => { m with applicationKeypad := on }
  | .modifyOtherKeys value => t.setModes fun m => { m with modifyOtherKeys := value }
  | .cursorShape shape =>
    { t.setModes fun m => { m with cursorShape := shape } with cursorDirty := true }
  | .privateMode mode on => { t.setModes (·.setPrivate mode on) with paneDirtyAll := true }
  | .softReset =>
    { selectionClear (resetSgr (t.setModes softModes)) with paneDirtyAll := true }
  | .rendition params => { t with attrs := sgr params t.attrs }
  | .respond bytes => t.queueResponse bytes
  | .reportCursor => t.queueResponse t.cursorReport
  | .osc payload => t.osc payload
  | .invalid => { t with invalidSequences := t.invalidSequences + 1 }

def operate (tables : UnicodeTables) : Operation → Option Terminal
  | .motion m => t.onGrid (·.move m)
  | .edit e => t.onGrid (·.edit e)
  | .set s => some (t.set s)
  | .print ch => t.printChar tables ch
  | .printLast =>
    match t.lastChar with
    | some ch => t.printChar tables ch
    | none => some t
  | .lineFeed => t.scrolling (·.lineFeed)
  | .index => t.scrolling (·.index)
  | .nextLine => t.scrolling (·.nextLine)
  | .scrollUp n => t.scrollUpLines n
  | .pullBack => t.restoreFromScrollback
  | .clearHistory => some { t with scrollback := t.scrollback.clear }
  | .enterAlt save => t.enterAltScreen save
  | .exitAlt restore => t.exitAltScreen restore
  | .saveCursor => some t.saveCursor
  | .restoreCursor => t.restoreCursor

def operateAll (tables : UnicodeTables) (ops : List Operation) : Option Terminal :=
  ops.foldlM (fun t op => t.operate tables op) t

end Terminal

/-! ### What actions come to -/

def reverseIndexOps : List Operation := [.edit .reverseIndex, .pullBack]

def softResetOps : List Operation :=
  [.motion (.setOriginMode false), .motion .resetScrollRegion, .motion .clearAllTabStops,
    .motion (.setCursor 0 0), .set .softReset]

def fullResetOps : List Operation := softResetOps ++ [.edit (.eraseInDisplay 2), .clearHistory]

def attributesOp : Operation := .set (.respond (0x1B :: Protocol.asBytes "[?1;2c"))

def controlOps : ControlCode → List Operation
  | .bell => [.set .bell]
  | .backspace => [.motion .backspace]
  | .tab => [.motion .tab]
  | .lineFeed | .verticalTab | .formFeed => [.lineFeed]
  | .carriageReturn => [.motion .carriageReturn]
  | .escape => []
  | .index => [.index]
  | .nextLine => [.nextLine]
  | .tabSet => [.motion (.putTabStop true)]
  | .reverseIndex => reverseIndexOps

def escOps : EscSequence → List Operation
  | .saveCursor => [.saveCursor]
  | .restoreCursor => [.restoreCursor]
  | .index => [.index]
  | .nextLine => [.nextLine]
  | .reverseIndex => reverseIndexOps
  | .tabSet => [.motion (.putTabStop true)]
  | .keypadApplication => [.set (.applicationKeypad true)]
  | .keypadNumeric => [.set (.applicationKeypad false)]
  | .fullReset => fullResetOps
  | .decid => [attributesOp]
  | .lineAttributes byte => if byte = 0x38 then [.edit (.fillScreen 'E')] else []

/-- What a private mode does beside its flag. -/
def privateModeOps (mode : PrivateMode) (set : Bool) : List Operation :=
  match mode with
  | .origin => [.motion (.setOriginMode set)]
  | .alternateScreen => [if set then .enterAlt false else .exitAlt false]
  | .alternateScreenSave | .alternateScreenSaveCursor =>
    [if set then .enterAlt true else .exitAlt true]
  | .saveCursor => [if set then .saveCursor else .restoreCursor]
  | _ => []

def privateCodeOps (code : ℕ) (set : Bool) : List Operation :=
  match PrivateMode.fromCode code with
  | some mode => privateModeOps mode set ++ [.set (.privateMode mode set)]
  | none => []

def ansiCodeOps (code : ℕ) (set : Bool) : List Operation :=
  match AnsiMode.fromCode code with
  | some .insert => [.set (.insertMode set)]
  | some .newline | none => []

def eraseDisplayOps (mode : ℕ) : List Operation :=
  if mode = 3 then [.clearHistory, .edit (.eraseInDisplay 2)] else [.edit (.eraseInDisplay mode)]

def clearTabOps : ℕ → List Operation
  | 0 => [.motion (.putTabStop false)]
  | 3 => [.motion .clearAllTabStops]
  | _ => []

def csiFinalOps (c : Csi) : List Operation :=
  let n := c.param 0 1
  match finalChar c with
  | '@' => [.edit (.insertChars n)]
  | 'A' => [.motion (.moveCursor (-n) 0)]
  | 'B' | 'e' => [.motion (.moveCursor n 0)]
  | 'C' | 'a' => [.motion (.moveCursor 0 n)]
  | 'D' => [.motion (.moveCursor 0 (-n))]
  | 'E' => [.motion (.moveCursor n 0), .motion .carriageReturn]
  | 'F' => [.motion (.moveCursor (-n) 0), .motion .carriageReturn]
  | 'G' => [.motion (.setCol (n - 1))]
  | 'H' | 'f' => [.motion (.setCursor (n - 1) (c.param 1 1 - 1))]
  | 'I' => List.replicate n (.motion .tab)
  | 'J' => eraseDisplayOps (min (c.param 0 0) 3)
  | 'K' => [.edit (.eraseInLine (min (c.param 0 0) 2))]
  | 'L' => [.edit (.insertLines n)]
  | 'M' => [.edit (.deleteLines n)]
  | 'P' => [.edit (.deleteChars n)]
  | 'S' => [.scrollUp n]
  | 'T' => [.edit (.scrollDown n)]
  | 'X' => [.edit (.eraseChars n)]
  | 'Z' => List.replicate n (.motion .backspaceToTab)
  | 'b' => List.replicate n .printLast
  | 'c' => if c.isAllZero then [attributesOp] else []
  | 'd' => [.motion (.setRow (n - 1))]
  | 'g' => clearTabOps (c.param 0 0)
  | 'h' => c.params.flatMap (ansiCodeOps · true)
  | 'l' => c.params.flatMap (ansiCodeOps · false)
  | 'm' => [.set (.rendition c.params)]
  | 'n' =>
    if c.param 0 0 = 5 then [.set (.respond (0x1B :: Protocol.asBytes "[0n"))]
    else if c.param 0 0 = 6 then [.set .reportCursor]
    else []
  | 'r' =>
    if c.privateMarker = 0 then [.motion (.setScrollRegion (n - 1) (c.param 1 1 - 1))] else []
  | 's' => if c.privateMarker = 0 then [.saveCursor] else []
  | 'u' => if c.privateMarker = 0 then [.restoreCursor] else []
  | '!' => if c.privateMarker = 0 then softResetOps else []
  | _ => [.set .invalid]

def csiOps (c : Csi) : List Operation :=
  if isPrivateMode c then c.params.flatMap (privateCodeOps · (c.finalByte == 0x68))
  else if isModifyOtherKeys c then
    [.set (.modifyOtherKeys (if c.privateMarker = 0x3E then min ((c.rawParam 1).getD 1) 2 else 0))]
  else if isCursorShape c then
    [.set (.cursorShape (cursorShapeOf (c.param 0 0)))]
  else csiFinalOps c

def operations : ParserAction → List Operation
  | .print ch => [.set (.lastChar ch), .print ch]
  | .control code => controlOps code
  | .csi c => csiOps c
  | .osc payload => [.set (.osc payload)]
  | .esc seq => escOps seq
  | .charsetSelect _ => []

/-! ### Actions are what they come to -/

namespace Terminal

variable {t : Terminal} {tables : UnicodeTables}

theorem operateAll_nil : t.operateAll tables [] = some t := rfl

theorem operateAll_cons (op : Operation) (ops : List Operation) :
    t.operateAll tables (op :: ops) = (t.operate tables op).bind (·.operateAll tables ops) :=
  List.foldlM_cons

theorem operateAll_append (ops ops' : List Operation) :
    t.operateAll tables (ops ++ ops') = (t.operateAll tables ops).bind (·.operateAll tables ops') :=
  List.foldlM_append

theorem operateAll_single (op : Operation) : t.operateAll tables [op] = t.operate tables op := by
  rw [operateAll_cons]
  exact Option.bind_fun_some _

/-- Storing lines changes nothing but the history and the view. -/
theorem pushAll_eq (t : Terminal) (lines : List Line) :
    ∃ scrollback viewport, t.pushAll lines = { t with scrollback, viewport } := by
  induction lines generalizing t with
  | nil => exact ⟨_, _, rfl⟩
  | cons line lines ih =>
    have hpush : ∃ scrollback viewport,
        t.pushScrollback line = { t with scrollback, viewport } := by
      unfold pushScrollback
      split <;> exact ⟨_, _, rfl⟩
    obtain ⟨s, v, hs⟩ := hpush
    obtain ⟨s', v', hs'⟩ := ih { t with scrollback := s, viewport := v }
    exact ⟨s', v', by rw [pushAll, List.foldl_cons, hs]; exact hs'⟩

theorem lastChar_printChar {ch : Char} {t' : Terminal} (h : t.printChar tables ch = some t') :
    t'.lastChar = t.lastChar := by
  obtain ⟨⟨grid, scrolled⟩, -, ht'⟩ := Option.bind_eq_some_iff.mp h
  obtain ⟨s, v, hpush⟩ := pushAll_eq { t with grid } scrolled.toList
  rw [← Option.some_inj.mp ht', hpush]

/-- A repeated motion. -/
theorem operateAll_motions {f : Grid → Option Grid} {m : Motion} (h : ∀ g : Grid, g.move m = f g)
    (n : ℕ) : t.operateAll tables (List.replicate n (.motion m)) = t.onGrid (iterateM f n) := by
  induction n generalizing t with
  | zero => rfl
  | succ n ih =>
    rw [List.replicate_succ, operateAll_cons]
    cases hf : f t.grid with
    | none => simp [operate, onGrid, iterateM, h, hf]
    | some grid =>
      have hiter : iterateM f (n + 1) t.grid = iterateM f n grid := by simp [iterateM, hf]
      simp only [operate, onGrid, h, hf, hiter, Option.bind_eq_bind, Option.bind_some]
      exact ih

theorem operateAll_printLast (n : ℕ) : t.operateAll tables (List.replicate n .printLast) =
    match t.lastChar with
    | some ch => iterateM (·.printChar tables ch) n t
    | none => some t := by
  induction n generalizing t with
  | zero => cases hlast : t.lastChar <;> rfl
  | succ n ih =>
    rw [List.replicate_succ, operateAll_cons]
    cases hlast : t.lastChar with
    | none => simpa [operate, hlast] using ih (t := t)
    | some ch =>
      simp only [operate, hlast, iterateM]
      cases hprint : t.printChar tables ch with
      | none => rfl
      | some t' =>
        have hlast' : t'.lastChar = some ch := (lastChar_printChar hprint).trans hlast
        simpa [hlast'] using ih (t := t')

theorem operateAll_flatMap {f : ℕ → List Operation} {step : Terminal → ℕ → Option Terminal}
    (h : ∀ (t : Terminal) (code : ℕ), t.operateAll tables (f code) = step t code)
    (codes : List ℕ) : t.operateAll tables (codes.flatMap f) = codes.foldlM step t := by
  induction codes generalizing t with
  | nil => rfl
  | cons code codes ih =>
    rw [List.flatMap_cons, operateAll_append, h, List.foldlM_cons]
    exact Option.bind_congr fun t' _ => ih

/-! The operations of each sequence, one lemma for a group of them. -/

theorem reverseIndex_eq : t.reverseIndex = t.operateAll tables reverseIndexOps := by
  rw [reverseIndexOps, operateAll_cons]
  exact Option.bind_congr fun t' _ => (operateAll_single .pullBack).symm

theorem softReset_eq : t.softReset = t.operateAll tables softResetOps := by
  simp only [softResetOps, operateAll_cons, operateAll_nil, operate, onGrid, Grid.move,
    Grid.resetScrollRegion, Option.bind_eq_bind, Option.bind_assoc, Option.bind_some]
  rfl

theorem fullReset_eq : t.fullReset = t.operateAll tables fullResetOps := by
  rw [fullResetOps, operateAll_append, ← softReset_eq]
  apply Option.bind_congr
  rintro t' -
  rw [operateAll_cons]
  exact Option.bind_congr fun t'' _ => (operateAll_single .clearHistory).symm

theorem control_eq (code : ControlCode) :
    t.control code = t.operateAll tables (controlOps code) := by
  cases code with
  | escape => rfl
  | reverseIndex => exact reverseIndex_eq
  | _ =>
    rw [controlOps, operateAll_single]
    rfl

theorem esc_eq (seq : EscSequence) : t.esc seq = t.operateAll tables (escOps seq) := by
  cases seq with
  | reverseIndex => exact reverseIndex_eq
  | fullReset => exact fullReset_eq
  | lineAttributes byte =>
    simp only [esc, escOps]
    split
    · rw [operateAll_single]
      rfl
    · rfl
  | _ =>
    rw [escOps, operateAll_single]
    rfl

theorem setPrivateCode_eq (code : ℕ) (set : Bool) :
    t.setPrivateCode code set = t.operateAll tables (privateCodeOps code set) := by
  -- a mode that is no flag is still marked as changed
  have hmark {mode : PrivateMode} (h : ∀ m : TerminalModes, m.setPrivate mode set = m) :
      (fun t : Terminal => some { t with paneDirtyAll := true }) =
        fun t => t.operateAll tables [.set (.privateMode mode set)] := by
    funext t
    rw [operateAll_single]
    simp only [operate, Terminal.set, setModes, h]
  unfold setPrivateCode privateCodeOps
  cases PrivateMode.fromCode code with
  | none => rfl
  | some mode =>
    dsimp only
    rw [operateAll_append]
    cases mode with
    | alternateScreen | alternateScreenSave | alternateScreenSaveCursor | saveCursor =>
      rw [privateModeOps, operateAll_single, ← hmark fun _ => rfl]
      cases set <;> rfl
    | origin =>
      rw [privateModeOps, operateAll_single, ← hmark fun _ => rfl]
      rfl
    | _ => rfl

theorem setAnsiCode_operates (code : ℕ) (set : Bool) :
    some (t.setAnsiCode code set) = t.operateAll tables (ansiCodeOps code set) := by
  unfold setAnsiCode ansiCodeOps
  cases AnsiMode.fromCode code with
  | none => rfl
  | some mode =>
    cases mode with
    | insert => rfl
    | newline => rfl

theorem setAnsiModes_eq (codes : List ℕ) (set : Bool) : some (t.setAnsiModes codes set) =
    t.operateAll tables (codes.flatMap (ansiCodeOps · set)) := by
  rw [operateAll_flatMap (fun t code => (setAnsiCode_operates code set).symm)]
  induction codes generalizing t with
  | nil => rfl
  | cons code codes ih => exact ih

theorem eraseDisplay_eq (mode : ℕ) :
    t.eraseDisplay mode = t.operateAll tables (eraseDisplayOps mode) := by
  unfold eraseDisplay eraseDisplayOps
  split
  · rw [operateAll_cons]
    exact (operateAll_single (.edit (.eraseInDisplay 2))).symm
  · exact (operateAll_single (.edit (.eraseInDisplay mode))).symm

/-- The function of a final byte, one case for each in the order of the dispatcher. -/
theorem csiFinal_eq (c : Csi) : t.csiFinal tables c = t.operateAll tables (csiFinalOps c) := by
  have hone {x : Option Terminal} {op : Operation} (h : x = t.operate tables op) :
      x = t.operateAll tables [op] := h.trans (operateAll_single op).symm
  have hrow (drow : ℤ) : (t.onGrid fun g => (g.moveCursor drow 0).map Grid.carriageReturn) =
      t.operateAll tables [.motion (.moveCursor drow 0), .motion .carriageReturn] := by
    simp only [operateAll_cons, operateAll_nil, operate, onGrid, Grid.move, Option.bind_eq_bind,
      Option.bind_assoc, Option.bind_some, Option.bind_map]
    rfl
  unfold csiFinal csiFinalOps
  dsimp only
  generalize finalChar c = final
  split
  · exact hone rfl
  · exact hone rfl
  · exact hone rfl
  · exact hone rfl
  · exact hone rfl
  · exact hone rfl
  · exact hone rfl
  · exact hrow _
  · exact hrow _
  · exact hone rfl
  · exact hone rfl
  · exact hone rfl
  · exact (operateAll_motions (m := .tab) (fun _ => rfl) _).symm
  · exact eraseDisplay_eq _
  · exact hone rfl
  · exact hone rfl
  · exact hone rfl
  · exact hone rfl
  · exact hone rfl
  · exact hone rfl
  · exact hone rfl
  · exact (operateAll_motions (m := .backspaceToTab) (fun _ => rfl) _).symm
  · exact (operateAll_printLast _).symm
  · split
    · exact hone rfl
    · rfl
  · exact hone rfl
  · change _ = t.operateAll tables (clearTabOps (c.param 0 0))
    generalize c.param 0 0 = mode
    match mode with
    | 0 => exact hone rfl
    | 1 | 2 => rfl
    | 3 => exact hone rfl
    | _ + 4 => rfl
  · exact setAnsiModes_eq _ _
  · exact setAnsiModes_eq _ _
  · exact hone rfl
  · split
    · exact hone rfl
    · split
      · exact hone rfl
      · rfl
  · split
    · exact hone rfl
    · rfl
  · split
    · exact hone rfl
    · rfl
  · split
    · exact hone rfl
    · rfl
  · split
    · exact softReset_eq
    · rfl
  · have hinvalid := hone (rfl : _ = t.operate tables (.set .invalid))
    refine hinvalid.trans ?_
    simp [*]

theorem csi_eq (c : Csi) : t.csi tables c = t.operateAll tables (csiOps c) := by
  unfold Terminal.csi csiOps
  split
  · exact (operateAll_flatMap (fun t code => (setPrivateCode_eq code _).symm) _).symm
  · split
    · rfl
    · split
      · rfl
      · exact csiFinal_eq c

/-- An action does what its operations do, one after the other. -/
theorem apply_eq (a : ParserAction) : t.apply tables a = t.operateAll tables (operations a) := by
  cases a with
  | print ch =>
    rw [operations, operateAll_cons]
    exact (operateAll_single (.print ch)).symm
  | control code => exact control_eq code
  | csi c => exact csi_eq c
  | osc payload => rfl
  | esc seq => exact esc_eq seq
  | charsetSelect _ => rfl

theorem applyAll_eq (actions : List ParserAction) :
    t.applyAll tables actions = t.operateAll tables (actions.flatMap operations) := by
  induction actions generalizing t with
  | nil => rfl
  | cons a actions ih =>
    rw [List.flatMap_cons, operateAll_append, ← apply_eq]
    exact Option.bind_congr fun t' _ => ih

end Terminal

/-! ### What motions leave alone -/

/-- A motion changes the cursor, the scroll region and the tab stops only. -/
theorem Grid.move_eq {g g' : Grid} {m : Motion} (h : g.move m = some g') :
    ∃ cursor scrollTop scrollBottom tabStops wrapPending originMode,
      g' = { g with cursor, scrollTop, scrollBottom, tabStops, wrapPending, originMode } := by
  have hcursor {g g' : Grid} {row col : ℕ} (h : g.setCursor row col = some g') :
      ∃ cursor, g' = { g with cursor, wrapPending := false } := by
    simp only [setCursor, Option.bind_eq_bind, Option.bind_eq_some_iff, Option.some.injEq] at h
    obtain ⟨_, -, _, -, rfl⟩ := h
    exact ⟨_, rfl⟩
  have hregion {top bottom : ℕ} (h : g.setScrollRegion top bottom = some g') :
      ∃ cursor scrollTop scrollBottom,
        g' = { g with cursor, scrollTop, scrollBottom, wrapPending := false } := by
    simp only [setScrollRegion, Option.bind_eq_bind, Option.bind_eq_some_iff] at h
    obtain ⟨_, -, h⟩ := h
    obtain ⟨_, rfl⟩ := hcursor h
    split <;> exact ⟨_, _, _, rfl⟩
  cases m with
  | backspace | carriageReturn | setOriginMode | putTabStop | clearAllTabStops =>
    cases h
    exact ⟨_, _, _, _, _, _, rfl⟩
  | tab =>
    simp only [move, Grid.tab, Option.bind_eq_bind, Option.bind_eq_some_iff,
      Option.some.injEq] at h
    obtain ⟨_, -, _, -, rfl⟩ := h
    exact ⟨_, _, _, _, _, _, rfl⟩
  | backspaceToTab =>
    simp only [move, Grid.backspaceToTab] at h
    split at h
    · obtain ⟨_, -, hg⟩ := Option.bind_eq_some_iff.mp h
      cases hg
      exact ⟨_, _, _, _, _, _, rfl⟩
    · cases h
      exact ⟨_, _, _, _, _, _, rfl⟩
  | moveCursor drow dcol =>
    simp only [move, Grid.moveCursor, Option.bind_eq_bind, Option.bind_eq_some_iff,
      Option.some.injEq] at h
    obtain ⟨_, -, _, -, rfl⟩ := h
    exact ⟨_, _, _, _, _, _, rfl⟩
  | setCol col =>
    simp only [move, Grid.setCol, Option.bind_eq_bind, Option.bind_eq_some_iff,
      Option.some.injEq] at h
    obtain ⟨_, -, rfl⟩ := h
    exact ⟨_, _, _, _, _, _, rfl⟩
  | setRow row =>
    simp only [move, Grid.setRow, Option.bind_eq_bind, Option.bind_eq_some_iff,
      Option.some.injEq] at h
    obtain ⟨_, -, rfl⟩ := h
    exact ⟨_, _, _, _, _, _, rfl⟩
  | setCursor row col =>
    obtain ⟨_, rfl⟩ := hcursor h
    exact ⟨_, _, _, _, _, _, rfl⟩
  | setScrollRegion top bottom =>
    obtain ⟨_, _, _, rfl⟩ := hregion h
    exact ⟨_, _, _, _, _, _, rfl⟩
  | resetScrollRegion =>
    obtain ⟨_, -, h⟩ := Option.bind_eq_some_iff.mp h
    obtain ⟨_, _, _, rfl⟩ := hregion h
    exact ⟨_, _, _, _, _, _, rfl⟩

/-! ### Operations within the bounds -/

section Bounds

variable {g : Grid} {c r : ℕ} (h : g.Sized c r)
include h

theorem Grid.Sized.resetScrollRegion : Returns g.resetScrollRegion (Sized c r) :=
  h.maxRow.bind fun lastRow _ => h.setScrollRegion 0 lastRow

theorem Grid.Sized.move (m : Motion) : Returns (g.move m) (Sized c r) := by
  cases m with
  | backspace => exact .pure h.backspace
  | tab => exact h.tab
  | backspaceToTab => exact h.backspaceToTab
  | carriageReturn => exact .pure h.carriageReturn
  | moveCursor drow dcol => exact h.moveCursor drow dcol
  | setCol col => exact h.setCol col
  | setRow row => exact h.setRow row
  | setCursor row col => exact h.setCursor row col
  | setScrollRegion top bottom => exact h.setScrollRegion top bottom
  | resetScrollRegion => exact h.resetScrollRegion
  | setOriginMode on => exact .pure (h.setOriginMode on)
  | putTabStop on => exact .pure (h.putTabStop on)
  | clearAllTabStops => exact .pure h.clearAllTabStops

theorem Grid.Sized.edit (e : Edit) : Returns (g.edit e) (Sized c r) := by
  cases e with
  | insertChars n => exact h.insertChars n
  | deleteChars n => exact h.deleteChars n
  | eraseChars n => exact h.eraseChars n
  | eraseInLine mode => exact h.eraseInLine mode
  | eraseInDisplay mode => exact h.eraseInDisplay mode
  | insertLines n => exact h.insertLines n
  | deleteLines n => exact (h.deleteLines n).map fun _ hg => hg
  | scrollDown n => exact h.scrollDownRegion n
  | reverseIndex => exact h.reverseIndex
  | fillScreen ch => exact h.fillScreen ch

end Bounds

namespace Terminal

variable {t : Terminal} {c r c₀ r₀ : ℕ}

theorem set_quiet (h : t.grid.Sized c r) (s : Setting) : Quiet c r t (t.set s) := by
  cases s with
  | softReset =>
    have hq : Quiet c r t (resetSgr (t.setModes softModes)) := .of_eq h rfl rfl rfl rfl rfl
    have hq' := hq.trans (selectionClear_quiet hq.sized)
    exact hq'.trans (.of_eq hq'.sized rfl rfl rfl rfl rfl)
  | respond bytes => exact queueResponse_quiet h bytes
  | reportCursor => exact queueResponse_quiet h t.cursorReport
  | osc payload => exact osc_quiet h payload
  | _ => exact .of_eq h rfl rfl rfl rfl rfl

/-- The screens keep their sizes, and a screen that is entered or left has one of them. -/
theorem operate_sizes (hs : t.Sizes c r c₀ r₀) (tables : UnicodeTables) (op : Operation) :
    Returns (t.operate tables op) fun t' => Advances t t' ∧
      (t'.Sizes c r c₀ r₀ ∨ t'.Sizes c r c r ∨ t'.Sizes c₀ r₀ c₀ r₀) := by
  have hkeeps {x : Option Terminal} (hx : Returns x (Keeps c r t)) : Returns x fun t' =>
      Advances t t' ∧ (t'.Sizes c r c₀ r₀ ∨ t'.Sizes c r c r ∨ t'.Sizes c₀ r₀ c₀ r₀) :=
    hx.mono fun t' hk => ⟨hk.toAdvances, .inl (hs.of_keeps hk)⟩
  have hquiet {x : Option Terminal} (hx : Returns x (Quiet c r t)) : Returns x fun t' =>
      Advances t t' ∧ (t'.Sizes c r c₀ r₀ ∨ t'.Sizes c r c r ∨ t'.Sizes c₀ r₀ c₀ r₀) :=
    hkeeps (hx.mono fun _ hq => hq.toKeeps)
  cases op with
  | motion m => exact hquiet (onGrid_quiet (f := (·.move m)) (hs.grid.move m))
  | edit e => exact hquiet (onGrid_quiet (f := (·.edit e)) (hs.grid.edit e))
  | set s => exact hquiet (.pure (set_quiet hs.grid s))
  | print ch => exact hquiet (printChar_quiet hs.grid tables ch)
  | printLast =>
    simp only [operate]
    cases t.lastChar with
    | none => exact hquiet (.pure (.refl hs.grid))
    | some ch => exact hquiet (printChar_quiet hs.grid tables ch)
  | lineFeed => exact hquiet (scrolling_quiet hs.grid.lineFeed)
  | index => exact hquiet (scrolling_quiet hs.grid.index)
  | nextLine => exact hquiet (scrolling_quiet hs.grid.nextLine)
  | scrollUp n => exact hquiet (scrollUpLines_quiet hs.grid n)
  | pullBack => exact hkeeps ((restoreFromScrollback_spec hs.grid).mono fun _ ht' => ht'.1)
  | clearHistory => exact hkeeps (.pure ⟨⟨rfl, List.prefix_rfl⟩, hs.grid, rfl, rfl⟩)
  | enterAlt save =>
    cases hmain : t.altGrid with
    | true =>
      simp only [operate, enterAltScreen, hmain, if_true]
      exact .pure ⟨.refl t, .inl hs⟩
    | false =>
      apply (enterAltScreen_spec hs.grid hmain save).mono
      rintro t' ⟨hadv, hg, halt, hsaved, -⟩
      refine ⟨hadv, .inr (.inl ⟨hg, ?_, by rw [halt, hsaved]; rfl⟩)⟩
      rw [hsaved]
      rintro _ ⟨⟩
      split
      · exact (saveCursor_quiet hs.grid).sized
      · exact hs.grid
  | exitAlt restore =>
    cases halt : t.altGrid with
    | true =>
      apply (exitAltScreen_spec hs halt restore).mono
      exact fun t' ht' => ⟨ht'.1, .inr (.inr ht'.2)⟩
    | false =>
      simp only [operate, exitAltScreen, halt, Bool.false_eq_true, if_false]
      exact .pure ⟨.refl t, .inl hs⟩
  | saveCursor => exact hquiet (.pure (saveCursor_quiet hs.grid))
  | restoreCursor => exact hquiet (restoreCursor_quiet hs.grid)

theorem operate_valid (h : t.Valid) (tables : UnicodeTables) (op : Operation) :
    Returns (t.operate tables op) fun t' => Advances t t' ∧ t'.Valid := by
  obtain ⟨⟨c, r, c₀, r₀, hs⟩, hcap⟩ := h
  apply (operate_sizes hs tables op).mono
  rintro t' ⟨hadv, hsizes⟩
  have hconfig : t'.config = t.config := congrArg Host.config hadv.host
  refine ⟨hadv, ?_, hconfig ▸ hcap⟩
  obtain hs' | hs' | hs' := hsizes <;> exact ⟨_, _, _, _, hs'⟩

/-- The operations that bytes come to. -/
def feedOps (t : Terminal) (bytes : List UInt8) : List Operation :=
  (t.parser.feed bytes).2.flatMap operations

theorem feed_eq (tables : UnicodeTables) (bytes : List UInt8) : t.feed tables bytes =
    ((t.receive bytes).operateAll tables (t.feedOps bytes)).map
      (·.settle t.modes.synchronizedOutput) := by
  rw [feed, applyAll_eq, feedOps, Option.map_eq_bind]
  rfl

end Terminal

end Ferrokey.Terminal
