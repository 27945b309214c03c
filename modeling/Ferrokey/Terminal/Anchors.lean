import Ferrokey.Terminal.Highlight
import Ferrokey.Terminal.Plain

/-! # Selections in the history

A selection lies between rows of the document, and the oldest line of the history is its
first row. As long as no line is evicted, a row of the history keeps its line while text
is printed. From the first eviction on the lines move up, and the selection stays.
-/

set_option linter.dupNamespace false

namespace Ferrokey.Terminal

namespace Terminal

variable {t t' : Terminal} {tables : UnicodeTables} {bytes : List UInt8}

/-! ### The document after text -/

/-- How many lines text adds to the history. -/
def storedBy (tables : UnicodeTables) (t : Terminal) (bytes : List UInt8) : ℕ :=
  if t.altGrid then 0 else ((t.written tables bytes).map (·.2.length)).getD 0

/-- How many lines are evicted for them. -/
def evictedBy (tables : UnicodeTables) (t : Terminal) (bytes : List UInt8) : ℕ :=
  t.scrollback.len + t.storedBy tables bytes - t.scrollback.maxLines

/-- The terminal after text that writes a screen and scrolls lines out. -/
structure Written (g : Grid) (lines : List Line) (t t' : Terminal) : Prop where
  scrollback : t'.scrollback = (t.pushAll lines).scrollback
  viewport : t'.viewport = (t.pushAll lines).viewport
  rows : t'.grid.rows = g.rows
  rowCount : t'.grid.rowCount = g.rowCount
  selection : t'.selection = t.selection
  altGrid : t'.altGrid = t.altGrid
  visibleRows : t'.visibleRows = t.visibleRows

theorem settle_written (t : Terminal) (bytes : List UInt8) (g : Grid) (lines : List Line)
    (lastChar : Option Char) (synced : Bool) : Written g lines t
      ((pushAll { t.receive bytes with grid := g, lastChar } lines).settle synced) := by
  have hscroll : (pushAll { t.receive bytes with grid := g, lastChar } lines).scrollback =
      (t.pushAll lines).scrollback := by
    rw [pushAll_scrollback, pushAll_scrollback]
    rfl
  have hview : (pushAll { t.receive bytes with grid := g, lastChar } lines).viewport =
      (t.pushAll lines).viewport := by
    apply pushAll_viewport_congr <;> rfl
  obtain ⟨s, v, hpush⟩ := pushAll_eq { t.receive bytes with grid := g, lastChar } lines
  rw [hpush] at hscroll hview ⊢
  unfold settle
  split
  · exact ⟨hscroll, hview, rfl, rfl, rfl, rfl, rfl⟩
  · unfold markDirtyFromGrid
    dsimp only
    split <;> exact ⟨hscroll, hview, rfl, rfl, rfl, rfl, rfl⟩

theorem feed_written (hplain : t.PlainText bytes) {g : Grid} {lines : List Line}
    (hg : t.written tables bytes = some (g, lines)) :
    Returns (t.feed tables bytes) (Written g lines t) := by
  obtain ⟨lastChar, hfeed⟩ := feed_plain hplain hg
  exact .of_eq hfeed (settle_written t bytes g lines lastChar _)

/-- The history after text. -/
theorem Written.history {g : Grid} {lines : List Line} (h : Written g lines t t') (hk : t.Kept)
    (hmain : t.altGrid = false) (hg : t.written tables bytes = some (g, lines)) :
    t'.scrollback.lines = (t.scrollback.lines ++ lines.map (normalise t.scrollback.cols)).drop
      (t.evictedBy tables bytes) := by
  have hstored : t.storedBy tables bytes = lines.length := by simp [storedBy, hmain, hg]
  rw [h.scrollback, pushAll_scrollback, hmain, evictedBy, hstored, hk.history.maxLines_eq]
  exact hk.history.pushAll_lines hk.capacity_pos lines

/-! ### Rows of the history -/

theorem charsOf_history {i : ℕ} (hi : i < t.scrollback.len) :
    t.charsOf i = ((t.scrollback.lines[i]?).getD []).map Cell.ch := by
  have hlt : ((i : ℤ) < t.scrollback.len) := by exact_mod_cast hi
  simp only [charsOf, lineChars, if_neg (not_lt.mpr (Int.natCast_nonneg i)), if_pos hlt,
    Option.getD_some, Scrollback.fromTop, Int.toNat_natCast]
  cases t.scrollback.lines[i]? <;> rfl

/-- Two documents that agree on the selected rows have the same selected text. -/
theorem selectedText_congr (h : t.Valid) (h' : t'.Valid) {s : Selection}
    (hs : t.selection = some s) (hs' : t'.selection = some s)
    (hrows : ∀ row, s.start.row ≤ row → row ≤ s.finish.row → t'.charsOf row = t.charsOf row) :
    t'.selectedText = t.selectedText := by
  by_cases hlone : s.isLone
  · rw [selectedText_lone hs hlone, selectedText_lone hs' hlone]
  · rw [selectedText_eq h hs hlone, selectedText_eq h' hs' hlone]
    congr 2
    apply List.flatMap_congr
    intro row hrow
    obtain ⟨hlo, hhi⟩ := mem_span.mp hrow
    simp only [columnsRead, charAt, hrows row hlo hhi]

/-! ### Selections that stay -/

/-- The terminal with another history. -/
def withHistory (t : Terminal) (lines : List Line) : Terminal :=
  { t with scrollback := { t.scrollback with lines } }

/-- The terminal with another selection. -/
def withSelection (t : Terminal) (s : Selection) : Terminal := { t with selection := some s }

/-- Whatever the lines of the history, the text of a selection in it stays when bytes are fed,
unless a selected line is evicted. -/
def AnchorsHold (tables : UnicodeTables) (t : Terminal) (bytes : List UInt8) : Prop :=
  ∀ lines, lines.length = t.scrollback.len → (∀ line ∈ lines, line.length = t.scrollback.cols) →
    ∀ s : Selection, (t.evictedBy tables bytes : ℤ) ≤ s.start.row →
      s.finish.row < t.scrollback.len →
      Returns (((t.withHistory lines).withSelection s).feed tables bytes) fun t' =>
        t'.selectedText = ((t.withHistory lines).withSelection s).selectedText

theorem Kept.withHistory (h : t.Kept) {lines : List Line} (hlen : lines.length = t.scrollback.len)
    (hcols : ∀ line ∈ lines, line.length = t.scrollback.cols) (s : Selection) :
    ((t.withHistory lines).withSelection s).Kept where
  toValid := h.toValid.of_same ⟨rfl, rfl, rfl, rfl⟩
  history := ⟨h.history.maxLines_eq, h.history.cols_pos, hlen.trans_le h.history.length, hcols⟩

/-- A history of lines of one glyph each, but for one line. -/
def oddHistory (t : Terminal) (row : ℕ) (odd : Char) : List Line :=
  (List.replicate t.scrollback.len (List.replicate t.scrollback.cols
    { Cell.default with ch := 'a' })).set row
      (List.replicate t.scrollback.cols { Cell.default with ch := odd })

theorem Written.evictedBy {g : Grid} {stored lines : List Line} {s : Selection}
    (hg : t.written tables bytes = some (g, stored)) (hlen : lines.length = t.scrollback.len) :
    ((t.withHistory lines).withSelection s).evictedBy tables bytes =
      t.evictedBy tables bytes := by
  have hg' : ((t.withHistory lines).withSelection s).written tables bytes = some (g, stored) := hg
  have hlen' : ((t.withHistory lines).withSelection s).scrollback.len = t.scrollback.len := hlen
  have hstored : ((t.withHistory lines).withSelection s).storedBy tables bytes =
      t.storedBy tables bytes := by
    rw [storedBy, hg', storedBy, hg]
    rfl
  rw [Terminal.evictedBy, hlen', hstored, Terminal.evictedBy]
  rfl

/-- The text of a selection of one cell, as a line, is the character of this cell. -/
theorem selectedText_cell (h : t.Valid) {row : ℤ}
    (hs : t.selection = some ⟨⟨row, 0⟩, ⟨row, 0⟩, .line⟩) :
    t.selectedText = some (some (t.charAt ⟨row, 0⟩)) := by
  have hcols : (t.columnsRead ⟨row, 0⟩ ⟨row, 0⟩ row).flatMap (fun col => t.charAt ⟨row, col⟩) =
      t.charAt ⟨row, 0⟩ := by
    by_cases hnil : t.charsOf row = []
    · simp [columnsRead, charAt, hnil]
    · have hpos := List.length_pos_iff.mpr hnil
      have hmin : min (0 : ℤ) ((t.charsOf row).length - 1) = 0 := by omega
      simp [columnsRead, hnil, hmin, span]
  have hrows : span row row = [row] := by simp [span]
  rw [selectedText_eq h hs (by simp [Selection.isLone])]
  simp [Selection.start, Selection.finish, CellPos.le, hrows, hcols, breakAfter]

theorem oddHistory_length (row : ℕ) (odd : Char) :
    (t.oddHistory row odd).length = t.scrollback.len := by
  simp [oddHistory]

theorem oddHistory_cols {row : ℕ} {odd : Char} {l : Line} (hl : l ∈ t.oddHistory row odd) :
    l.length = t.scrollback.cols := by
  rcases List.mem_or_eq_of_mem_set hl with hl | rfl
  · rw [List.eq_of_mem_replicate hl, List.length_replicate]
  · rw [List.length_replicate]

theorem charAt_oddHistory (h : 0 < t.scrollback.cols) {row : ℕ} (hrow : row < t.scrollback.len)
    {odd : Char} (hodd : odd ≠ '\x00') (s : Selection) :
    ((t.withHistory (t.oddHistory row odd)).withSelection s).charAt ⟨row, 0⟩ = [odd] := by
  have hlen : row < ((t.withHistory (t.oddHistory row odd)).withSelection s).scrollback.len :=
    hrow.trans_eq (oddHistory_length row odd).symm
  have hget : (t.oddHistory row odd)[row]? =
      some (List.replicate t.scrollback.cols { Cell.default with ch := odd }) := by
    rw [oddHistory, List.getElem?_set_self (by simpa using hrow)]
  have hchars : ((t.withHistory (t.oddHistory row odd)).withSelection s).charsOf row =
      List.replicate t.scrollback.cols odd := by
    rw [charsOf_history hlen]
    simp [withHistory, withSelection, hget]
  simp [charAt, hchars, h, hodd]

/-- A character that the odd line can have and that does not come to its row. -/
theorem exists_odd (t : Terminal) {row : ℕ} (hrow : 0 < row) (stored : List Line) :
    ∃ odd : Char, odd ≠ '\x00' ∧ ((t.oddHistory row odd ++ stored)[row + row]?.bind
      fun moved => (moved.map Cell.ch)[0]?) ≠ some odd := by
  have hsame (odd odd' : Char) : (t.oddHistory row odd ++ stored)[row + row]? =
      (t.oddHistory row odd' ++ stored)[row + row]? := by
    simp only [List.getElem?_append, oddHistory_length]
    congr 1
    rw [oddHistory, oddHistory, List.getElem?_set_ne (by omega), List.getElem?_set_ne (by omega)]
  by_cases hb : ((t.oddHistory row 'b' ++ stored)[row + row]?.bind
      fun moved => (moved.map Cell.ch)[0]?) = some 'b'
  · exact ⟨'c', by decide, by rw [hsame 'c' 'b', hb]; decide⟩
  · exact ⟨'b', by decide, hb⟩

/-- Selections in the history keep their text exactly if no line is evicted, or every line. -/
theorem anchorsHold_iff (h : Reachable tables t) (hmain : t.altGrid = false)
    (hplain : t.PlainText bytes) : t.AnchorsHold tables bytes ↔
      t.evictedBy tables bytes = 0 ∨ t.scrollback.len ≤ t.evictedBy tables bytes := by
  have hk := h.kept
  obtain ⟨⟨g, stored⟩, hg, -⟩ := written_returns hk.toValid tables bytes
  constructor
  · intro hanchors
    by_contra hsome
    obtain ⟨m, hm⟩ : ∃ m, t.evictedBy tables bytes = m := ⟨_, rfl⟩
    rw [hm] at hsome
    -- the odd line is the first that stays, and another one comes to its row
    obtain ⟨odd, hodd, hdiffers⟩ := exists_odd t (show 0 < m by omega)
      (stored.map (normalise t.scrollback.cols))
    obtain ⟨s, hs⟩ : ∃ s : Selection, s = ⟨⟨m, 0⟩, ⟨m, 0⟩, .line⟩ := ⟨_, rfl⟩
    have hstart : s.start.row = m := by simp [hs, Selection.start]
    have hfinish : s.finish.row = m := by simp [hs, Selection.finish]
    obtain ⟨t', hfeed, htext⟩ := hanchors _ (oddHistory_length m odd)
      (fun _ => oddHistory_cols) s (by omega) (by omega)
    have hk₁ := hk.withHistory (oddHistory_length m odd) (fun _ => oddHistory_cols) s
    obtain ⟨t'', hfeed', hw⟩ := feed_written
      (t := (t.withHistory (t.oddHistory m odd)).withSelection s) hplain hg
    obtain rfl := Option.some_inj.mp (hfeed.symm.trans hfeed')
    obtain ⟨t'', hfeed'', -, hv'⟩ := feed_valid hk₁.toValid tables bytes
    obtain rfl := Option.some_inj.mp (hfeed.symm.trans hfeed'')
    have hhistory := hw.history hk₁ hmain hg
    rw [Written.evictedBy hg (oddHistory_length m odd), hm] at hhistory
    rw [selectedText_cell hv' (hw.selection.trans (congrArg some hs)),
      selectedText_cell hk₁.toValid (congrArg some hs),
      charAt_oddHistory hk.history.cols_pos (by omega) hodd, Option.some_inj, Option.some_inj]
      at htext
    have hfits := hk.history.length
    have hlen : m < t'.scrollback.len := by
      have hlines : (t'.scrollback.lines).length = t.scrollback.len + stored.length - m := by
        rw [hhistory]
        exact (List.length_drop).trans (by simp [withHistory, withSelection, oddHistory_length])
      have hmax := hk.history.maxLines_eq
      have hcount : t.evictedBy tables bytes = t.scrollback.len + stored.length -
          t.scrollback.maxLines := by simp [evictedBy, storedBy, hmain, hg]
      simp only [Scrollback.len] at *
      omega
    have hmem : odd ∈ (t'.charsOf m)[0]?.toList := by
      have hread : odd ∈ t'.charAt ⟨m, 0⟩ := htext ▸ List.mem_singleton_self odd
      exact (List.mem_filter.mp hread).1
    apply hdiffers
    rw [Option.mem_toList, charsOf_history hlen, hhistory, List.getElem?_drop] at hmem
    simp only [withHistory, withSelection] at hmem
    cases hmoved : (t.oddHistory m odd ++ stored.map (normalise t.scrollback.cols))[m + m]? with
    | none => simp [hmoved] at hmem
    | some moved => simpa [hmoved] using hmem
  · rintro hnone lines hlen hcols s hevicted hfinish
    have hk₁ := hk.withHistory hlen hcols s
    have hg₁ : ((t.withHistory lines).withSelection s).written tables bytes = some (g, stored) := hg
    obtain ⟨t', hfeed, hw⟩ := feed_written (t := (t.withHistory lines).withSelection s) hplain hg₁
    refine ⟨t', hfeed, ?_⟩
    obtain ⟨t'', hfeed', -, hv'⟩ := feed_valid hk₁.toValid tables bytes
    obtain rfl := Option.some_inj.mp (hfeed.symm.trans hfeed')
    have horder := s.start_le.1
    have hzero : t.evictedBy tables bytes = 0 := by omega
    have hhistory := hw.history hk₁ hmain hg₁
    rw [Written.evictedBy hg hlen, hzero, List.drop_zero] at hhistory
    apply selectedText_congr hk₁.toValid hv' rfl hw.selection
    intro row hlo hhi
    obtain ⟨i, rfl⟩ := Int.eq_ofNat_of_zero_le (a := row) (by omega)
    have hi : i < lines.length := by omega
    have hi' : i < t'.scrollback.len := by
      rw [Scrollback.len, hhistory, List.length_append]
      exact Nat.lt_add_right _ hi
    rw [charsOf_history hi', charsOf_history (t := (t.withHistory lines).withSelection s) hi,
      hhistory]
    exact congrArg (fun row : Option Line => (row.getD []).map Cell.ch)
      (List.getElem?_append_left hi)

/-- A hundred lines leave a pane of two rows, the second of which has a letter and is selected. -/
def markedLine : List TerminalOp :=
  [.resize 64 64 (.ok ()), .feed (0x0A :: 0x61 :: List.replicate 100 0x0A),
    .selectionStart ⟨1, 0⟩ .line]

/-- A terminal whose history is full. -/
def fullHistory : Option Terminal := do
  let t ← (Terminal.new { TerminalConfig.default with scrollbackLines := 100 } fontCells).toOption
  t.performAll asciiTables markedLine

theorem fullHistory_some : ∃ t, fullHistory = some t :=
  Option.isSome_iff_exists.mp (by decide +kernel)

theorem fullHistory_reachable (h : fullHistory = some t) : Reachable asciiTables t := by
  obtain ⟨t₀, hnew⟩ : ∃ t₀, Terminal.new { TerminalConfig.default with scrollbackLines := 100 }
    fontCells = .ok t₀ := ⟨_, rfl⟩
  refine ⟨_, _, t₀, markedLine, hnew, ?_⟩
  simpa only [fullHistory, hnew, Except.toOption, Option.bind_eq_bind, Option.bind_some] using h

theorem fullHistory_main (h : fullHistory = some t) : t.altGrid = false ∧ t.PlainText [0x0A] := by
  have hstate : fullHistory.map (fun t => (t.altGrid, (t.parser.feed [0x0A]).2)) =
      some (false, [.control .lineFeed]) := by decide +kernel
  rw [h, Option.map_some, Option.some_inj, Prod.mk_inj] at hstate
  refine ⟨hstate.1, ?_⟩
  rw [PlainText, hstate.2]
  intro a ha
  rw [List.mem_singleton.mp ha]
  rfl

theorem fullHistory_anchorsHold_iff : ∃ t, fullHistory = some t ∧
    (t.AnchorsHold asciiTables [0x0A] ↔
      t.evictedBy asciiTables [0x0A] = 0 ∨ t.scrollback.len ≤ t.evictedBy asciiTables [0x0A]) := by
  obtain ⟨t, ht⟩ := fullHistory_some
  obtain ⟨hmain, hplain⟩ := fullHistory_main ht
  exact ⟨t, ht, anchorsHold_iff (fullHistory_reachable ht) hmain hplain⟩

/-- One line is evicted, and the selected line, which is not that line, moves from the
selection. -/
theorem fullHistory_not_anchored : ∃ t t' s, Reachable asciiTables t ∧ t.altGrid = false ∧
    t.PlainText [0x0A] ∧ t.selection = some s ∧
    t.evictedBy asciiTables [0x0A] ≤ s.start.row ∧ s.finish.row < t.scrollback.len ∧
    t.feed asciiTables [0x0A] = some t' ∧ t'.selectedText ≠ t.selectedText := by
  obtain ⟨t, ht⟩ := fullHistory_some
  obtain ⟨hmain, hplain⟩ := fullHistory_main ht
  have hreach := fullHistory_reachable ht
  obtain ⟨t', hfeed, -⟩ := feed_valid hreach.kept.toValid asciiTables [0x0A]
  have hstate : fullHistory.map (fun t =>
      (t.scrollback.len, t.evictedBy asciiTables [0x0A], t.selection)) =
        some (100, 1, some ⟨⟨1, 0⟩, ⟨1, 0⟩, .line⟩) := by decide +kernel
  have htext : fullHistory.map selectedText = some (some (some ['a'])) := by decide +kernel
  have htext' : (fullHistory.bind (·.feed asciiTables [0x0A])).map selectedText =
      some (some (some [])) := by decide +kernel
  rw [ht] at hstate htext htext'
  rw [Option.bind_some, hfeed] at htext'
  simp only [Option.map_some, Option.some_inj, Prod.mk_inj] at hstate htext htext'
  refine ⟨t, t', _, hreach, hmain, hplain, hstate.2.2, ?_, ?_, hfeed, ?_⟩
  · rw [hstate.2.1]
    decide
  · rw [hstate.1]
    decide
  · rw [htext, htext']
    decide

end Terminal

end Ferrokey.Terminal
