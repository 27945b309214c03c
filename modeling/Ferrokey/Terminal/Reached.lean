import Ferrokey.Terminal.Operations

/-! # The history of a terminal in use

Whatever the host asks for, the history never holds more lines than its capacity, and
they all have its width. Each operation does one of four things to the history and the
view: it stores lines, takes the newest back, empties the history or returns the view.
-/

set_option linter.dupNamespace false

namespace Ferrokey.Terminal

/-! ### Bounded histories -/

/-- So many lines at most, of the width of the ring. -/
structure Scrollback.Fits (maxLines : ℕ) (s : Scrollback) : Prop where
  maxLines_eq : s.maxLines = maxLines
  cols_pos : 0 < s.cols
  length : s.lines.length ≤ maxLines
  cols : ∀ line ∈ s.lines, line.length = s.cols

namespace Scrollback

variable {s : Scrollback} {maxLines : ℕ}

theorem push_maxLines (s : Scrollback) (line : Line) : (s.push line).1.maxLines = s.maxLines := rfl

theorem Fits.push (h : s.Fits maxLines) (hpos : 0 < maxLines) (line : Line) :
    (s.push line).1.Fits maxLines := by
  have hkept : ∀ line' ∈ (if s.lines.length == s.maxLines then s.lines.tail else s.lines),
      line' ∈ s.lines := by
    intro line' hmem
    split at hmem
    · exact List.mem_of_mem_tail hmem
    · exact hmem
  constructor
  · exact h.maxLines_eq
  · exact h.cols_pos
  · have hmax := h.maxLines_eq
    have hlen := h.length
    simp only [Scrollback.push, List.length_append, List.length_singleton]
    split
    next hfull =>
      rw [List.length_tail]
      omega
    next hfree =>
      rw [beq_iff_eq] at hfree
      omega
  · intro line' hmem
    rcases List.mem_append.mp hmem with hmem | hmem
    · exact h.cols line' (hkept line' hmem)
    · rw [List.mem_singleton.mp hmem]
      exact length_normalise s.cols line

theorem Fits.pushAll (h : s.Fits maxLines) (hpos : 0 < maxLines) (lines : List Line) :
    (s.pushAll lines).Fits maxLines := by
  induction lines generalizing s with
  | nil => exact h
  | cons line lines ih => exact ih (h.push hpos line)

/-- The lines are stored after those that are there, and the oldest ones of all are evicted for
which there is no room. -/
theorem Fits.pushAll_lines (h : s.Fits maxLines) (hpos : 0 < maxLines) (lines : List Line) :
    (s.pushAll lines).lines = (s.lines ++ lines.map (normalise s.cols)).drop
      (s.lines.length + lines.length - maxLines) := by
  induction lines generalizing s with
  | nil =>
    have hlen := h.length
    simp [Scrollback.pushAll, Nat.sub_eq_zero_of_le hlen]
  | cons line lines ih =>
    have hlen := h.length
    have hmax := h.maxLines_eq
    rw [Scrollback.pushAll, List.foldl_cons]
    refine (ih (h.push hpos line)).trans ?_
    simp only [Scrollback.push, List.length_cons, List.map_cons]
    split
    next hfull =>
      rw [beq_iff_eq] at hfull
      obtain ⟨oldest, rest, hs⟩ : ∃ oldest rest, s.lines = oldest :: rest :=
        List.exists_cons_of_length_pos (by omega)
      have hcount : (oldest :: rest).length + (lines.length + 1) - maxLines =
          (rest.length + 1 + lines.length - maxLines) + 1 := by
        rw [hs] at hfull
        simp only [List.length_cons] at hfull ⊢
        omega
      rw [hs, hcount, List.cons_append, List.drop_succ_cons]
      simp
    next hfree =>
      rw [beq_iff_eq] at hfree
      simp only [List.length_append, List.length_singleton, List.append_assoc,
        List.singleton_append]
      congr 1
      omega

/-- Lines for which there is room are stored after those that are there. -/
theorem pushAll_of_room {s : Scrollback} {lines : List Line}
    (h : s.lines.length + lines.length ≤ s.maxLines) :
    s.pushAll lines = { s with lines := s.lines ++ lines.map (normalise s.cols) } := by
  induction lines generalizing s with
  | nil => simp [Scrollback.pushAll]
  | cons line lines ih =>
    rw [List.length_cons] at h
    have hpush : (s.push line).1 = { s with lines := s.lines ++ [normalise s.cols line] } := by
      have hroom : (s.lines.length == s.maxLines) = false := by
        rw [beq_eq_false_iff_ne]
        omega
      simp [Scrollback.push, hroom]
    rw [Scrollback.pushAll, List.foldl_cons, hpush]
    refine (ih (by simp only [List.length_append, List.length_singleton]; omega)).trans ?_
    simp

/-- Lines that are left out leave a history as bounded as it was. -/
theorem Fits.sublist (h : s.Fits maxLines) {lines : List Line} (hsub : lines.Sublist s.lines) :
    Fits maxLines { s with lines } where
  maxLines_eq := h.maxLines_eq
  cols_pos := h.cols_pos
  length := hsub.length_le.trans h.length
  cols line hmem := h.cols line (hsub.subset hmem)

theorem Fits.popNewest (h : s.Fits maxLines) : s.popNewest.1.Fits maxLines :=
  h.sublist (List.dropLast_sublist _)

theorem Fits.clear (h : s.Fits maxLines) : s.clear.Fits maxLines :=
  h.sublist (List.nil_sublist _)

theorem Fits.empty (maxLines : ℕ) {cols : ℕ} (hcols : 0 < cols) :
    Fits maxLines ⟨[], maxLines, cols⟩ where
  maxLines_eq := rfl
  cols_pos := hcols
  length := Nat.zero_le _
  cols := by simp

end Scrollback

/-! ### What operations do to the history and the view -/

namespace Terminal

variable {t t' : Terminal} {tables : UnicodeTables}

/-- The history, its capacity and the view into it stay, and so does the parser. -/
structure SameHistory (t t' : Terminal) : Prop where
  scrollback : t'.scrollback = t.scrollback
  viewport : t'.viewport = t.viewport
  config : t'.config = t.config
  parser : t'.parser = t.parser

theorem SameHistory.refl (t : Terminal) : SameHistory t t := ⟨rfl, rfl, rfl, rfl⟩

/-- The texts that a program can set. -/
def texts (t : Terminal) : List Char × List Char × List Char := (t.title, t.cwd, t.hyperlink)

/-- What only bytes, sizes and the view into the history have an effect on. -/
def standing (t : Terminal) :
    Scrollback × Viewport × TerminalConfig × Parser × List Char × List Char × List Char :=
  (t.scrollback, t.viewport, t.config, t.parser, t.texts)

theorem SameHistory.of_standing (h : t'.standing = t.standing) : SameHistory t t' where
  scrollback := congrArg (·.1) h
  viewport := congrArg (·.2.1) h
  config := congrArg (·.2.2.1) h
  parser := congrArg (·.2.2.2.1) h

theorem texts_of_standing (h : t'.standing = t.standing) : t'.texts = t.texts :=
  congrArg (·.2.2.2.2) h

/-- The operations that take lines from the history. -/
def takesLines : Operation → Bool
  | .pullBack | .clearHistory => true
  | _ => false

/-- The operations that may scroll lines out at the top. -/
def scrollsUp : Operation → Bool
  | .print _ | .printLast | .lineFeed | .index | .nextLine | .scrollUp _ => true
  | _ => false

/-- What an operation can do to the history and the view. -/
inductive HistoryStep (t t' : Terminal) : Operation → Prop where
  | same {op : Operation} (keeps : takesLines op = false) (same : SameHistory t t') :
    HistoryStep t t' op
  | store {op : Operation} (scrolls : scrollsUp op = true) (lines : List Line)
    (same : SameHistory (t.pushAll lines) t') : HistoryStep t t' op
  | pullBack (history : t'.scrollback = t.scrollback.popNewest.1)
    (view : t'.viewport = t.viewport) (parser : t'.parser = t.parser) : HistoryStep t t' .pullBack
  | clearHistory (history : t'.scrollback = t.scrollback.clear)
    (view : t'.viewport = t.viewport) (parser : t'.parser = t.parser) :
    HistoryStep t t' .clearHistory
  | enterAlt {save : Bool} (history : t'.scrollback = t.scrollback)
    (view : t'.viewport = t.viewport.returnToNewest) (parser : t'.parser = t.parser) :
    HistoryStep t t' (.enterAlt save)

theorem onGrid_standing {f : Grid → Option Grid} (h : t.onGrid f = some t') :
    t'.standing = t.standing := by
  obtain ⟨grid, -, ht'⟩ := Option.bind_eq_some_iff.mp h
  cases ht'
  rfl

/-- Storing lines and changing the screen do not meet. -/
theorem pushAll_onScreen (t : Terminal) (grid : Grid) (lines : List Line) :
    pushAll { t with grid } lines = { t.pushAll lines with grid } := by
  induction lines generalizing t with
  | nil => rfl
  | cons line lines ih =>
    have hpush : pushScrollback { t with grid } line = { t.pushScrollback line with grid } := by
      unfold pushScrollback
      dsimp only
      split <;> rfl
    rw [pushAll, List.foldl_cons, hpush]
    exact ih (t.pushScrollback line)

/-- Scrolling changes the screen, the history and the view. -/
theorem scrolling_eq {f : Grid → Option (Grid × Option Line)} (h : t.scrolling f = some t') :
    ∃ grid scrolled scrollback viewport, f t.grid = some (grid, scrolled) ∧
      t' = { t with grid, scrollback, viewport } := by
  obtain ⟨⟨grid, scrolled⟩, hf, ht'⟩ := Option.bind_eq_some_iff.mp h
  obtain ⟨s, v, hpush⟩ := pushAll_eq { t with grid } scrolled.toList
  dsimp only at ht'
  rw [hpush] at ht'
  cases ht'
  exact ⟨grid, scrolled, s, v, hf, rfl⟩

theorem scrolling_historyStep {f : Grid → Option (Grid × Option Line)} {op : Operation}
    (hop : scrollsUp op = true) (h : t.scrolling f = some t') : HistoryStep t t' op := by
  obtain ⟨⟨grid, scrolled⟩, -, ht'⟩ := Option.bind_eq_some_iff.mp h
  dsimp only at ht'
  rw [pushAll_onScreen] at ht'
  cases ht'
  exact .store hop scrolled.toList ⟨rfl, rfl, rfl, rfl⟩

theorem queueResponse_standing (bytes : List UInt8) :
    (t.queueResponse bytes).standing = t.standing := by
  unfold queueResponse
  split <;> rfl

theorem selectionClear_standing (t : Terminal) : t.selectionClear.standing = t.standing := by
  unfold selectionClear
  split <;> rfl

/-- Texts are set by commands only. -/
theorem set_standing {s : Setting} (hs : ∀ payload, s ≠ .osc payload) :
    (t.set s).standing = t.standing := by
  cases s with
  | osc payload => exact absurd rfl (hs payload)
  | softReset => exact selectionClear_standing (resetSgr (t.setModes softModes))
  | respond bytes => exact queueResponse_standing bytes
  | reportCursor => exact queueResponse_standing t.cursorReport
  | _ => rfl

theorem set_sameHistory (s : Setting) : SameHistory t (t.set s) := by
  by_cases hs : ∃ payload, s = .osc payload
  · obtain ⟨payload, rfl⟩ := hs
    simp only [Terminal.set, Terminal.osc]
    split
    case h_11 => split <;> exact ⟨rfl, rfl, rfl, rfl⟩
    all_goals exact ⟨rfl, rfl, rfl, rfl⟩
  · exact .of_standing (set_standing fun payload heq => hs ⟨payload, heq⟩)

theorem set_same (s : Setting) : SameScreens t (t.set s) := by
  cases s with
  | softReset =>
    simp only [Terminal.set, selectionClear]
    split <;> exact ⟨rfl, rfl, rfl, rfl⟩
  | respond bytes =>
    simp only [Terminal.set, queueResponse]
    split <;> exact ⟨rfl, rfl, rfl, rfl⟩
  | reportCursor =>
    simp only [Terminal.set, queueResponse]
    split <;> exact ⟨rfl, rfl, rfl, rfl⟩
  | osc payload =>
    simp only [Terminal.set, Terminal.osc]
    split
    case h_11 => split <;> exact ⟨rfl, rfl, rfl, rfl⟩
    all_goals exact ⟨rfl, rfl, rfl, rfl⟩
  | _ => exact ⟨rfl, rfl, rfl, rfl⟩

theorem restoreCursor_standing (h : t.restoreCursor = some t') : t'.standing = t.standing := by
  obtain ⟨t'', hgrid, ht'⟩ := Option.bind_eq_some_iff.mp h
  have hsame : t''.standing = t.standing := onGrid_standing hgrid
  cases ht'
  exact hsame

theorem operate_historyStep {op : Operation} (h : t.operate tables op = some t') :
    HistoryStep t t' op := by
  cases op with
  | motion m => exact .same rfl (.of_standing (onGrid_standing (f := (·.move m)) h))
  | edit e => exact .same rfl (.of_standing (onGrid_standing (f := (·.edit e)) h))
  | set s =>
    cases h
    exact .same rfl (set_sameHistory s)
  | print ch => exact scrolling_historyStep rfl (f := (·.print tables ch t.attrs)) h
  | printLast =>
    simp only [operate] at h
    split at h
    next ch _ => exact scrolling_historyStep rfl (f := (·.print tables ch t.attrs)) h
    next =>
      cases h
      exact .same rfl (.refl t)
  | lineFeed => exact scrolling_historyStep rfl (f := (·.lineFeed)) h
  | index => exact scrolling_historyStep rfl (f := (·.index)) h
  | nextLine => exact scrolling_historyStep rfl (f := (·.nextLine)) h
  | scrollUp n =>
    simp only [operate, scrollUpLines, Option.bind_eq_bind, Option.bind_eq_some_iff,
      Option.some.injEq] at h
    obtain ⟨full, -, ⟨grid, scrolled⟩, -, rfl⟩ := h
    rw [pushAll_onScreen]
    exact .store rfl _ ⟨rfl, rfl, rfl, rfl⟩
  | pullBack =>
    simp only [operate, restoreFromScrollback] at h
    split at h
    next scrollback line hpop =>
      have hsame := SameHistory.of_standing (onGrid_standing h)
      exact .pullBack (hsame.scrollback.trans (congrArg Prod.fst hpop).symm) hsame.viewport
        hsame.parser
    next scrollback hpop =>
      cases h
      have hnil : t.scrollback.lines = [] :=
        List.getLast?_eq_none_iff.mp (congrArg Prod.snd hpop)
      exact .pullBack (by rw [Scrollback.popNewest_of_nil hnil]) rfl rfl
  | clearHistory =>
    cases h
    exact .clearHistory rfl rfl rfl
  | enterAlt save =>
    simp only [operate, enterAltScreen] at h
    split at h
    · cases h
      exact .same rfl (.refl t)
    · split at h
      · cases h
        cases save <;> exact .enterAlt rfl rfl rfl
      · cases h
  | exitAlt restore =>
    simp only [operate, exitAltScreen] at h
    split at h
    · split at h
      · exact .same rfl (.of_standing ((restoreCursor_standing h).trans rfl))
      · cases h
        exact .same rfl ⟨rfl, rfl, rfl, rfl⟩
    · cases h
      exact .same rfl (.refl t)
  | saveCursor =>
    cases h
    exact .same rfl ⟨rfl, rfl, rfl, rfl⟩
  | restoreCursor => exact .same rfl (.of_standing (restoreCursor_standing h))

theorem settle_standing (synced : Bool) : (t.settle synced).standing = t.standing := by
  unfold settle
  split
  · rfl
  · unfold markDirtyFromGrid
    dsimp only
    split <;> rfl

theorem settle_sameHistory (synced : Bool) : SameHistory t (t.settle synced) :=
  .of_standing (settle_standing synced)

/-! ### Calls of the host -/

theorem sendInput_standing (bytes : List UInt8) : (t.sendInput bytes).1.standing = t.standing := by
  unfold sendInput
  split
  · rfl
  · split <;> rfl

theorem writeAll_standing (bytes : List UInt8) (answers : List WriteAnswer) :
    (t.writeAll bytes answers).1.standing = t.standing := by
  unfold writeAll
  split <;> rfl

theorem flush_standing (answers : List WriteAnswer) :
    (t.flush answers).1.standing = t.standing := by
  have hpending : (t.flushPending answers).1.standing = t.standing := writeAll_standing _ _
  have hkeys (s : Terminal) (answers) : (s.flushKeys answers).1.standing = s.standing :=
    writeAll_standing _ _
  have hresponse (s : Terminal) (answers) : (s.flushResponse answers).1.standing = s.standing :=
    writeAll_standing _ _
  exact (hresponse _ _).trans ((hkeys _ _).trans hpending)

theorem startSession_standing {answer : Except TerminalError Unit}
    {out : Terminal × Except TerminalError Unit} (h : t.startSession answer = some out) :
    out.1.standing = t.standing := by
  unfold startSession at h
  split at h
  · cases h
    rfl
  · split at h
    · cases h
      rfl
    · obtain ⟨t', hclear, hout⟩ := Option.bind_eq_some_iff.mp h
      cases hout
      unfold clearScreen at hclear
      split at hclear
      · cases hclear
        rfl
      · cases hclear

/-- The calls that feed bytes, resize, scroll or restart. -/
def movesHistory : TerminalOp → Bool
  | .feed _ | .resize .. | .scrollUp _ | .scrollDown _ | .returnToNewest | .restart _ => true
  | _ => false

theorem perform_standing {op : TerminalOp} (hop : movesHistory op = false)
    {out : Terminal × Reply} (h : t.perform tables op = some out) :
    out.1.standing = t.standing := by
  cases op with
  | feed | resize | scrollUp | scrollDown | returnToNewest | restart => cases hop
  | selectionStart pos mode =>
    obtain ⟨t', ht', rfl⟩ := Option.map_eq_some_iff.mp h
    unfold selectionStart at ht'
    split at ht'
    · obtain ⟨_, -, ht''⟩ := Option.bind_eq_some_iff.mp ht'
      cases ht''
      rfl
    · cases ht'
      rfl
  | selectionExtend pos =>
    obtain ⟨t', ht', rfl⟩ := Option.map_eq_some_iff.mp h
    unfold selectionExtend at ht'
    split at ht'
    · cases ht'
      rfl
    · split at ht'
      · obtain ⟨_, -, ht''⟩ := Option.bind_eq_some_iff.mp ht'
        cases ht''
        rfl
      · cases ht'
        rfl
  | selectionClear =>
    cases h
    exact selectionClear_standing t
  | startSession answer =>
    obtain ⟨out', hout', rfl⟩ := Option.map_eq_some_iff.mp h
    exact startSession_standing hout'
  | shutdown | cancelPaste =>
    cases h
    rfl
  | sendInput bytes =>
    cases h
    exact sendInput_standing bytes
  | keyInput encoded =>
    cases h
    simp only [keyInput]
    split <;> rfl
  | paste text =>
    cases h
    simp only [paste]
    split
    · rfl
    · split
      · rfl
      · split
        · rfl
        · exact sendInput_standing _
  | confirmPaste =>
    cases h
    simp only [confirmPaste]
    split
    · rfl
    · split
      · rfl
      · exact (sendInput_standing _).trans rfl
  | tapPaste clipboard =>
    cases h
    simp only [tapPaste]
    split
    · rfl
    · split
      · rfl
      · exact sendInput_standing _
  | flush answers =>
    cases h
    exact flush_standing answers

theorem perform_sameHistory {op : TerminalOp} (hop : movesHistory op = false)
    {out : Terminal × Reply} (h : t.perform tables op = some out) : SameHistory t out.1 :=
  .of_standing (perform_standing hop h)

/-- The lines are stored anew, or the history stays; the view stays. -/
structure Restores (t t' : Terminal) : Prop where
  scrollback : t'.scrollback = t.scrollback ∨ ∃ cols, 0 < cols ∧
    t'.scrollback = Scrollback.pushAll ⟨[], t.config.scrollbackLines, cols⟩ t.scrollback.lines
  viewport : t'.viewport = t.viewport
  config : t'.config = t.config
  parser : t'.parser = t.parser

theorem SameHistory.restores (h : SameHistory t t') : Restores t t' :=
  ⟨.inl h.scrollback, h.viewport, h.config, h.parser⟩

theorem newScrollback_ok {maxLines cols : ℕ} {s : Scrollback}
    (h : Scrollback.new maxLines cols = .ok s) : 0 < cols ∧ s = ⟨[], maxLines, cols⟩ := by
  unfold Scrollback.new at h
  split at h
  · cases h
  · split at h
    next => cases h
    next hcols =>
      cases h
      exact ⟨Nat.pos_of_ne_zero hcols, rfl⟩

theorem resizeCells_restores {size : Winsize} {out : Terminal × Except TerminalError Unit}
    (h : t.resizeCells size = some out) : Restores t out.1 := by
  obtain ⟨resized, -, hout⟩ := Option.bind_eq_some_iff.mp h
  cases resized with
  | error e =>
    cases hout
    exact (SameHistory.refl t).restores
  | ok grid =>
    dsimp only at hout
    split at hout
    next e _ =>
      cases hout
      exact ⟨.inl rfl, rfl, rfl, rfl⟩
    next scrollback hnew =>
      cases hout
      obtain ⟨hcols, rfl⟩ := newScrollback_ok hnew
      exact ⟨.inr ⟨size.cols, hcols, rfl⟩, rfl, rfl, rfl⟩

theorem reportSize_standing (size : Winsize) (answer : Except String Unit) :
    (t.reportSize size answer).1.standing = t.standing := by
  unfold reportSize
  split <;> rfl

theorem Restores.of_same {t'' : Terminal} (h : Restores t t') (hs : SameHistory t' t'') :
    Restores t t'' := by
  refine ⟨?_, hs.viewport.trans h.viewport, hs.config.trans h.config, hs.parser.trans h.parser⟩
  rw [hs.scrollback]
  exact h.scrollback

theorem resize_restores {width height : ℕ} {answer : Except String Unit}
    {out : Terminal × Except TerminalError Unit} (h : t.resize width height answer = some out) :
    Restores t out.1 := by
  unfold resize at h
  split at h
  · cases h
    exact (SameHistory.refl t).restores
  · dsimp only at h
    split at h
    · cases h
      exact ⟨.inl rfl, rfl, rfl, rfl⟩
    · obtain ⟨⟨t', result⟩, hcells, hout⟩ := Option.bind_eq_some_iff.mp h
      have hrestores := resizeCells_restores hcells
      cases result with
      | error e =>
        cases hout
        exact hrestores
      | ok _ =>
        have hreport := SameHistory.of_standing
          (reportSize_standing (t := t') (cellsFor t.metrics width height) answer)
        dsimp only at hout
        split at hout
        next t'' e heq =>
          cases hout
          exact hrestores.of_same (heq ▸ hreport)
        next t'' heq =>
          cases hout
          rw [heq] at hreport
          have hsame : SameHistory t' t'' := hreport
          exact hrestores.of_same ⟨hsame.scrollback, hsame.viewport, hsame.config, hsame.parser⟩

/-- The active screen stays or is given a new size; the other one and the rendition stay. -/
structure ResizesGrid (t t' : Terminal) : Prop where
  grid : t'.grid = t.grid ∨ ∃ cols rows, t.grid.resize cols rows = some (.ok t'.grid)
  saved : t'.saved = t.saved
  attrs : t'.attrs = t.attrs

theorem resizeCells_resizesGrid {size : Winsize} {out : Terminal × Except TerminalError Unit}
    (h : t.resizeCells size = some out) : ResizesGrid t out.1 := by
  obtain ⟨resized, hgrid, hout⟩ := Option.bind_eq_some_iff.mp h
  cases resized with
  | error e =>
    cases hout
    exact ⟨.inl rfl, rfl, rfl⟩
  | ok grid =>
    dsimp only at hout
    split at hout <;>
    · cases hout
      exact ⟨.inr ⟨_, _, hgrid⟩, rfl, rfl⟩

theorem ResizesGrid.reportSize (h : ResizesGrid t t') (size : Winsize)
    (answer : Except String Unit) : ResizesGrid t (t'.reportSize size answer).1 := by
  unfold Terminal.reportSize
  split <;> exact ⟨h.grid, h.saved, h.attrs⟩

theorem resize_resizesGrid {width height : ℕ} {answer : Except String Unit}
    {out : Terminal × Except TerminalError Unit} (h : t.resize width height answer = some out) :
    ResizesGrid t out.1 := by
  unfold resize at h
  split at h
  · cases h
    exact ⟨.inl rfl, rfl, rfl⟩
  · dsimp only at h
    split at h
    · cases h
      exact ⟨.inl rfl, rfl, rfl⟩
    · obtain ⟨⟨t', result⟩, hcells, hout⟩ := Option.bind_eq_some_iff.mp h
      have hgrid := resizeCells_resizesGrid hcells
      cases result with
      | error e =>
        cases hout
        exact hgrid
      | ok _ =>
        have hreport := hgrid.reportSize (cellsFor t.metrics width height) answer
        dsimp only at hout hreport
        split at hout
        next t'' e heq =>
          cases hout
          rw [heq] at hreport
          exact hreport
        next t'' heq =>
          cases hout
          rw [heq] at hreport
          exact ⟨hreport.grid, hreport.saved, hreport.attrs⟩

/-- A restart empties the history and returns the view. -/
theorem restart_history (h : t.Valid) {answer : Except TerminalError Unit}
    {out : Terminal × Except TerminalError Unit} (hout : t.restart answer = some out) :
    out.1.scrollback = t.scrollback.clear ∧ out.1.viewport = .default ∧
      out.1.config = t.config ∧ out.1.parser = t.parser := by
  obtain ⟨c, r, c₀, r₀, hs⟩ := h.sizes
  obtain ⟨g, hnew, -⟩ := Grid.new_sized hs.grid.bounds
  have hnew' : Grid.new t.shutdown.grid.cols t.shutdown.grid.rowCount = .ok g := by
    rw [← hnew, ← hs.grid.cols_eq, ← hs.grid.rowCount_eq]
    rfl
  simp only [restart, hnew'] at hout
  have hsame := SameHistory.of_standing (startSession_standing hout)
  exact ⟨hsame.scrollback, hsame.viewport, hsame.config, hsame.parser⟩

/-! ### Terminals in use -/

/-- A terminal within its bounds whose history fits. -/
structure Kept (t : Terminal) : Prop extends Valid t where
  history : t.scrollback.Fits t.config.scrollbackLines

theorem Kept.capacity_pos (h : t.Kept) : 0 < t.config.scrollbackLines :=
  Nat.lt_of_lt_of_le (by decide) h.capacity.1

theorem pushAll_scrollback (t : Terminal) (lines : List Line) : (t.pushAll lines).scrollback =
    if t.altGrid then t.scrollback else t.scrollback.pushAll lines := by
  induction lines generalizing t with
  | nil => simp [pushAll, Scrollback.pushAll]
  | cons line lines ih =>
    rw [pushAll, List.foldl_cons]
    refine (ih _).trans ?_
    cases halt : t.altGrid with
    | true => simp [pushScrollback, halt]
    | false => simp [pushScrollback, halt, Scrollback.pushAll]

/-- What storing lines does to the view depends on the history and the view alone. -/
theorem pushAll_viewport_congr (halt : t'.altGrid = t.altGrid)
    (hscroll : t'.scrollback = t.scrollback) (hview : t'.viewport = t.viewport)
    (lines : List Line) : (t'.pushAll lines).viewport = (t.pushAll lines).viewport := by
  induction lines generalizing t t' with
  | nil => exact hview
  | cons line lines ih =>
    apply ih
    all_goals
      unfold pushScrollback
      rw [halt]
      split
      · assumption
      · simp only [hscroll, hview]

theorem operate_fits (h : t.Kept) {op : Operation} (hop : t.operate tables op = some t') :
    t'.scrollback.Fits t.config.scrollbackLines := by
  cases operate_historyStep hop with
  | same _ hsame => exact hsame.scrollback ▸ h.history
  | store _ lines hsame =>
    rw [hsame.scrollback, pushAll_scrollback]
    split
    · exact h.history
    · exact h.history.pushAll h.capacity_pos lines
  | pullBack history view => exact history ▸ h.history.popNewest
  | clearHistory history view => exact history ▸ h.history.clear
  | enterAlt history view => exact history ▸ h.history

theorem operate_kept (h : t.Kept) (tables : UnicodeTables) (op : Operation) :
    Returns (t.operate tables op) fun t' => Advances t t' ∧ t'.Kept := by
  obtain ⟨t', ht', hadv, hv⟩ := operate_valid h.toValid tables op
  have hconfig : t'.config = t.config := congrArg Host.config hadv.host
  exact ⟨t', ht', hadv, hv, hconfig ▸ operate_fits h ht'⟩

theorem Kept.of_quiet {c r c₀ r₀ : ℕ} (h : t.Kept) (hs : t.Sizes c r c₀ r₀) (hq : Quiet c r t t')
    (hsame : SameHistory t t') : t'.Kept where
  toValid := h.toValid.of_quiet hs hq
  history := by
    rw [hsame.scrollback, hsame.config]
    exact h.history

theorem Kept.receive (h : t.Kept) (bytes : List UInt8) : (t.receive bytes).Kept := by
  obtain ⟨c, r, c₀, r₀, hs⟩ := h.sizes
  exact ⟨h.toValid.of_quiet hs (receive_quiet hs.grid bytes), h.history⟩

theorem Kept.settle (h : t.Kept) (synced : Bool) : (t.settle synced).Kept := by
  obtain ⟨c, r, c₀, r₀, hs⟩ := h.sizes
  exact h.of_quiet hs (settle_quiet hs.grid synced) (settle_sameHistory synced)

/-- What every operation keeps that meets a condition is kept by bytes all of whose operations
meet it, up to what follows the operations. -/
theorem feed_along {bytes : List UInt8} (Inv : Terminal → Prop)
    {C : Terminal → Operation → Prop} (h : t.Kept) (hstart : Inv (t.receive bytes))
    (hop : ∀ t t' : Terminal, ∀ op, t.Kept → Inv t → C t op → t.operate tables op = some t' →
      Inv t')
    (hC : Along (fun t op => t.operate tables op) C (t.receive bytes) (t.feedOps bytes)) :
    Returns (t.feed tables bytes) fun t' => ∃ t'' : Terminal, t''.Kept ∧ Inv t'' ∧
      t' = t''.settle t.modes.synchronizedOutput := by
  have hall : Returns ((t.receive bytes).operateAll tables (t.feedOps bytes))
      fun t' => t'.Kept ∧ Inv t' := by
    refine Returns.foldlM_along (fun t => t.Kept ∧ Inv t) ?_ ⟨h.receive bytes, hstart⟩ hC
    rintro t op ⟨hk, hinv⟩ hc
    obtain ⟨t', ht', -, hk'⟩ := operate_kept hk tables op
    exact ⟨t', ht', hk', hop t t' op hk hinv hc ht'⟩
  rw [feed_eq]
  exact hall.map fun t' ht' => ⟨t', ht'.1, ht'.2, rfl⟩

/-- Only the bytes that are fed go to the parser. -/
theorem parser_operate {op : Operation} (h : t.operate tables op = some t') :
    t'.parser = t.parser := by
  cases operate_historyStep h with
  | same _ hsame => exact hsame.parser
  | store _ lines hsame =>
    obtain ⟨s, v, hpush⟩ := pushAll_eq t lines
    rw [hsame.parser, hpush]
  | pullBack _ _ hparser => exact hparser
  | clearHistory _ _ hparser => exact hparser
  | enterAlt _ _ hparser => exact hparser

theorem parser_operateAll {ops : List Operation} (h : t.operateAll tables ops = some t') :
    t'.parser = t.parser := by
  induction ops generalizing t with
  | nil =>
    cases h
    rfl
  | cons op ops ih =>
    rw [operateAll_cons] at h
    obtain ⟨t₁, hop, hrest⟩ := Option.bind_eq_some_iff.mp h
    exact (ih hrest).trans (parser_operate hop)

theorem parser_feed {bytes : List UInt8} (h : t.feed tables bytes = some t') :
    t'.parser = (t.parser.feed bytes).1 := by
  rw [feed_eq] at h
  obtain ⟨t₁, hall, rfl⟩ := Option.map_eq_some_iff.mp h
  exact (settle_sameHistory _).parser.trans (parser_operateAll hall)

theorem parser_perform (h : t.Valid) {op : TerminalOp} {out : Terminal × Reply}
    (hout : t.perform tables op = some out) :
    ∃ bytes, out.1.parser = (t.parser.feed bytes).1 := by
  have hquiet (hsame : out.1.parser = t.parser) : ∃ bytes, out.1.parser = (t.parser.feed bytes).1 :=
    ⟨[], hsame⟩
  cases op with
  | feed bytes =>
    obtain ⟨t', ht', rfl⟩ := Option.map_eq_some_iff.mp hout
    exact ⟨bytes, parser_feed ht'⟩
  | resize width height answer =>
    obtain ⟨out', hout', rfl⟩ := Option.map_eq_some_iff.mp hout
    exact hquiet (resize_restores hout').parser
  | scrollUp n | scrollDown n | returnToNewest =>
    cases hout
    exact hquiet rfl
  | restart answer =>
    obtain ⟨out', hout', rfl⟩ := Option.map_eq_some_iff.mp hout
    exact hquiet (restart_history h hout').2.2.2
  | _ => exact hquiet (perform_sameHistory (by rfl) hout).parser

theorem perform_kept (h : t.Kept) (tables : UnicodeTables) (op : TerminalOp) :
    Returns (t.perform tables op) fun out => out.1.Kept := by
  obtain ⟨out, hout, hv⟩ := perform_valid h.toValid tables op
  refine ⟨out, hout, hv, ?_⟩
  cases op with
  | feed bytes =>
    obtain ⟨t', ht', rfl⟩ := Option.map_eq_some_iff.mp hout
    have hfeed : Returns (t.feed tables bytes) fun t' => ∃ t'' : Terminal, t''.Kept ∧ True ∧
        t' = t''.settle t.modes.synchronizedOutput :=
      feed_along (fun _ => True) (C := fun _ _ => True) h trivial
        (fun _ _ _ _ _ _ _ => trivial) (along_of_forall fun _ _ => trivial)
    obtain ⟨t', ht'', t'', hk, -, rfl⟩ := hfeed
    obtain rfl := Option.some_inj.mp (ht'.symm.trans ht'')
    exact (hk.settle _).history
  | resize width height answer =>
    obtain ⟨out', hout', rfl⟩ := Option.map_eq_some_iff.mp hout
    have hr := resize_restores hout'
    dsimp only
    rw [hr.config]
    rcases hr.scrollback with hsame | ⟨cols, hcols, hstored⟩
    · exact hsame ▸ h.history
    · rw [hstored]
      exact (Scrollback.Fits.empty _ hcols).pushAll h.capacity_pos _
  | scrollUp n | scrollDown n | returnToNewest =>
    cases hout
    exact h.history
  | restart answer =>
    obtain ⟨out', hout', rfl⟩ := Option.map_eq_some_iff.mp hout
    obtain ⟨hclear, -, hconfig, -⟩ := restart_history h.toValid hout'
    dsimp only
    rw [hclear, hconfig]
    exact h.history.clear
  | _ =>
    have hsame := perform_sameHistory (by rfl) hout
    rw [hsame.scrollback, hsame.config]
    exact h.history

/-- What every call keeps that meets a condition is kept by a run of calls that all meet it. -/
theorem performAll_along (Inv : Terminal → Prop) {P : TerminalOp → Prop}
    {C : Terminal → TerminalOp → Prop} (hk : t.Kept) (hstart : Inv t)
    (hstep : ∀ t : Terminal, ∀ op, t.Kept → Inv t → P op → C t op →
      Returns (t.perform tables op) fun out => Inv out.1) {ops : List TerminalOp}
    (hP : ∀ op ∈ ops, P op)
    (hC : Along (fun t op => (t.perform tables op).map Prod.fst) C t ops) :
    Returns (t.performAll tables ops) Inv := by
  induction ops generalizing t with
  | nil => exact .pure hstart
  | cons op ops ih =>
    obtain ⟨hop, hrest⟩ := hC
    obtain ⟨out, hout, hinv, hk'⟩ := (hstep t op hk hstart (hP op List.mem_cons_self) hop).and
      (perform_kept hk tables op)
    have hfirst : (t.perform tables op).map Prod.fst = some out.1 := by rw [hout]; rfl
    rw [performAll, List.foldlM_cons, hfirst]
    exact ih hk' hinv (fun op' hmem => hP op' (List.mem_cons_of_mem op hmem)) (hrest out.1 hfirst)

/-- What a new terminal starts with. -/
structure Fresh (config : TerminalConfig) (t : Terminal) : Prop where
  grid : Grid.new 80 24 = .ok t.grid
  saved : t.saved = none
  scrollback : t.scrollback = ⟨[], config.scrollbackLines, 80⟩
  viewport : t.viewport = .default
  modes : t.modes = .default
  attrs : t.attrs = .default
  parser : t.parser = .new

theorem new_fresh {config : TerminalConfig} {metrics : CellMetrics}
    (h : Terminal.new config metrics = .ok t) : Fresh config t := by
  cases hscroll : Scrollback.new config.scrollbackLines 80 with
  | error e =>
    simp only [Terminal.new, hscroll, Except.mapError] at h
    cases h
  | ok scrollback =>
    simp only [Terminal.new, hscroll, Except.mapError] at h
    cases h
    exact ⟨rfl, rfl, (newScrollback_ok hscroll).2, rfl, rfl, rfl, rfl⟩

theorem new_kept {config : TerminalConfig} {metrics : CellMetrics}
    (h : Terminal.new config metrics = .ok t) : t.Kept := by
  obtain ⟨hv, -, hhost, -⟩ := new_spec h
  have hconfig : t.config = config := congrArg Host.config hhost
  refine ⟨hv, ?_⟩
  rw [(new_fresh h).scrollback, hconfig]
  exact .empty _ (by decide)

/-- What the host can come to with a new terminal. -/
def Reachable (tables : UnicodeTables) (t : Terminal) : Prop :=
  ∃ config metrics t₀ ops, Terminal.new config metrics = .ok t₀ ∧
    performAll tables t₀ ops = some t

theorem Reachable.kept (h : Reachable tables t) : t.Kept := by
  obtain ⟨config, metrics, t₀, ops, hnew, hrun⟩ := h
  have hkept : Returns (t₀.performAll tables ops) Kept := by
    apply Returns.foldlM Kept
    · exact fun t' ht' op _ => (perform_kept ht' tables op).map fun _ hout => hout
    · exact new_kept hnew
  obtain ⟨t', ht', hk⟩ := hkept
  exact Option.some_inj.mp (ht'.symm.trans hrun) ▸ hk

end Terminal

end Ferrokey.Terminal
