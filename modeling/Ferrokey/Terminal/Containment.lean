import Ferrokey.Framing.Utf8
import Ferrokey.Terminal.Reached

/-! # Texts from operating system commands

A program can set a title, a directory and a link, with bytes of its own choice. What is
kept of them has no control character and a bounded length, and is cut between
characters. Nothing else of the terminal is changed by such a command but two counters.
-/

set_option linter.dupNamespace false

namespace Ferrokey.Terminal

open Framing

/-- The bytes of a text, so many at most, cut where a character ends. -/
def truncateBytes (bytes : List UInt8) (max : ℕ) : List UInt8 :=
  if bytes.length ≤ max then bytes else bytes.take (boundaryBelow bytes max)

section Texts

variable {s text : List Char} {max : ℕ}

theorem utf8Bytes_cons (c : Char) (s : List Char) :
    utf8Bytes (c :: s) = String.utf8EncodeChar c ++ utf8Bytes s := List.flatMap_cons

theorem prefix_truncateUtf8 (s : List Char) (max : ℕ) : truncateUtf8 s max <+: s := by
  induction s generalizing max with
  | nil => exact List.prefix_rfl
  | cons c s ih =>
    rw [truncateUtf8]
    split
    · exact List.cons_prefix_cons.mpr ⟨rfl, ih _⟩
    · exact List.nil_prefix

theorem truncateUtf8_of_length_le (h : (utf8Bytes s).length ≤ max) : truncateUtf8 s max = s := by
  induction s generalizing max with
  | nil => rfl
  | cons c s ih =>
    rw [utf8Bytes_cons, List.length_append, String.length_utf8EncodeChar] at h
    rw [truncateUtf8, if_pos (by omega), ih (by omega)]

theorem take_boundaryBelow (s : List Char) (h : max < (utf8Bytes s).length) :
    (utf8Bytes s).take (boundaryBelow (utf8Bytes s) max) = utf8Bytes (truncateUtf8 s max) := by
  induction s generalizing max with
  | nil => cases h
  | cons c s ih =>
    have hlen := String.length_utf8EncodeChar c
    rw [utf8Bytes_cons, List.length_append, hlen] at h
    rw [utf8Bytes_cons, truncateUtf8]
    split
    next hfits =>
      obtain ⟨rest, rfl⟩ := Nat.exists_eq_add_of_le hfits
      rw [← hlen, boundaryBelow_append, List.take_length_add_append, Nat.add_sub_cancel_left,
        utf8Bytes_cons, ih (by omega)]
    next hcut =>
      rw [boundaryBelow_char (by omega)]
      rfl

/-- A text is cut as its bytes are. -/
theorem utf8Bytes_truncateUtf8 (s : List Char) (max : ℕ) :
    utf8Bytes (truncateUtf8 s max) = truncateBytes (utf8Bytes s) max := by
  unfold truncateBytes
  split
  next hfits => rw [truncateUtf8_of_length_le hfits]
  next hlong => rw [take_boundaryBelow s (not_le.mp hlong)]

/-- A text holds what of a value fits in so many bytes, up to where a character ends. -/
structure CutAt (max : ℕ) (value text : List Char) : Prop where
  start : text <+: value
  bytes : utf8Bytes text = truncateBytes (utf8Bytes value) max

theorem cutAt_truncateUtf8 (s : List Char) (max : ℕ) : CutAt max s (truncateUtf8 s max) :=
  ⟨prefix_truncateUtf8 s max, utf8Bytes_truncateUtf8 s max⟩

/-- A text without control characters, of so many bytes at most. -/
structure Contained (max : ℕ) (text : List Char) : Prop where
  clean : ∀ c ∈ text, isControl c = false
  length : (utf8Bytes text).length ≤ max

theorem length_truncateBytes (bytes : List UInt8) (max : ℕ) :
    (truncateBytes bytes max).length ≤ max := by
  unfold truncateBytes
  split
  next hfits => exact hfits
  next hlong => exact (List.length_take_le _ _).trans (boundaryBelow_le bytes max)

theorem CutAt.contained (h : CutAt max (sanitizeOscValue s) text) : Contained max text where
  clean c hc := by simpa using (List.mem_filter.mp (h.start.subset hc)).2
  length := h.bytes ▸ length_truncateBytes _ max

end Texts

/-! ### A command -/

/-- The decoded payload, up to the first null byte. -/
def oscText (payload : List UInt8) : List Char := fromUtf8Lossy (payload.takeWhile (· != 0))

/-- What stands before the first semicolon, and what stands behind it without control characters. -/
def oscKind (payload : List UInt8) : List Char :=
  ((splitOnce ';' (oscText payload)).getD (oscText payload, [])).1

def oscValue (payload : List UInt8) : List Char :=
  sanitizeOscValue ((splitOnce ';' (oscText payload)).getD (oscText payload, [])).2

namespace Terminal

variable {t t' : Terminal} {tables : UnicodeTables}

/-- A command changes three texts and two counters at most. -/
structure OscChanges (t : Terminal) (payload : List UInt8) (t' : Terminal) : Prop where
  only : ∃ title cwd hyperlink oscClipboardDenied invalidSequences,
    t' = { t with title, cwd, hyperlink, oscClipboardDenied, invalidSequences }
  clipboard : String.ofList (oscKind payload) = "52" →
    t' = { t with oscClipboardDenied := t.oscClipboardDenied + 1 }
  noClipboard : String.ofList (oscKind payload) ≠ "52" →
    t'.oscClipboardDenied = t.oscClipboardDenied
  counted : t'.invalidSequences = t.invalidSequences ∨
    t' = { t with invalidSequences := t.invalidSequences + 1 }
  title : t'.title = t.title ∨ CutAt 512 (oscValue payload) t'.title
  cwd : t'.cwd = t.cwd ∨ CutAt 1024 (oscValue payload) t'.cwd
  hyperlink : t'.hyperlink = t.hyperlink ∨ ∃ params url,
    splitOnce ';' (oscValue payload) = some (params, url) ∧
      CutAt 1024 (sanitizeOscValue url) t'.hyperlink

/-- A command that sets texts. -/
theorem OscChanges.of_ne {payload : List UInt8} {kind : String}
    (hkind : String.ofList (oscKind payload) = kind) (hne : kind ≠ "52")
    {title cwd hyperlink : List Char} (heq : t' = { t with title, cwd, hyperlink })
    (htitle : title = t.title ∨ CutAt 512 (oscValue payload) title)
    (hcwd : cwd = t.cwd ∨ CutAt 1024 (oscValue payload) cwd)
    (hlink : hyperlink = t.hyperlink ∨ ∃ params url,
      splitOnce ';' (oscValue payload) = some (params, url) ∧
        CutAt 1024 (sanitizeOscValue url) hyperlink) : OscChanges t payload t' := by
  subst heq
  constructor
  · exact ⟨title, cwd, hyperlink, _, _, rfl⟩
  · exact fun h52 => absurd (hkind.symm.trans h52) hne
  · exact fun _ => rfl
  · exact .inl rfl
  · exact htitle
  · exact hcwd
  · exact hlink

theorem osc_changes (t : Terminal) (payload : List UInt8) :
    OscChanges t payload (t.osc payload) := by
  simp only [Terminal.osc]
  split
  case h_1 h | h_2 h =>
    exact .of_ne h (by decide) rfl (.inr (cutAt_truncateUtf8 _ _)) (.inl rfl) (.inl rfl)
  case h_10 h =>
    exact .of_ne h (by decide) rfl (.inl rfl) (.inr (cutAt_truncateUtf8 _ _)) (.inl rfl)
  case h_11 h =>
    split
    next params url hsplit =>
      exact .of_ne h (by decide) rfl (.inl rfl) (.inl rfl)
        (.inr ⟨params, url, hsplit, cutAt_truncateUtf8 _ _⟩)
    next => exact .of_ne h (by decide) rfl (.inl rfl) (.inl rfl) (.inl rfl)
  case h_12 h =>
    constructor
    · exact ⟨_, _, _, _, _, rfl⟩
    · exact fun _ => rfl
    · exact fun hne => absurd h hne
    all_goals exact .inl rfl
  case h_13 hne =>
    constructor
    · exact ⟨_, _, _, _, _, rfl⟩
    · exact fun h52 => absurd h52 hne
    · exact fun _ => rfl
    · exact .inr rfl
    all_goals exact .inl rfl
  all_goals next h => exact .of_ne h (by decide) rfl (.inl rfl) (.inl rfl) (.inl rfl)

/-! ### The texts of a terminal in use -/

/-- The texts are within their bounds. -/
structure TextsContained (t : Terminal) : Prop where
  title : Contained 512 t.title
  cwd : Contained 1024 t.cwd
  hyperlink : Contained 1024 t.hyperlink

theorem TextsContained.of_texts (h : t.TextsContained) (heq : t'.texts = t.texts) :
    t'.TextsContained := by
  obtain ⟨htitle, hrest⟩ := Prod.mk.inj heq
  obtain ⟨hcwd, hlink⟩ := Prod.mk.inj hrest
  exact ⟨htitle ▸ h.title, hcwd ▸ h.cwd, hlink ▸ h.hyperlink⟩

theorem TextsContained.osc (h : t.TextsContained) (payload : List UInt8) :
    (t.osc payload).TextsContained := by
  have hc := osc_changes t payload
  constructor
  · rcases hc.title with heq | hcut
    · exact heq ▸ h.title
    · exact hcut.contained
  · rcases hc.cwd with heq | hcut
    · exact heq ▸ h.cwd
    · exact hcut.contained
  · rcases hc.hyperlink with heq | ⟨_, _, -, hcut⟩
    · exact heq ▸ h.hyperlink
    · exact hcut.contained

theorem scrolling_texts {f : Grid → Option (Grid × Option Line)} (h : t.scrolling f = some t') :
    t'.texts = t.texts := by
  obtain ⟨grid, scrolled, scrollback, viewport, -, rfl⟩ := scrolling_eq h
  rfl

theorem TextsContained.set (h : t.TextsContained) (s : Setting) : (t.set s).TextsContained := by
  by_cases hs : ∃ payload, s = .osc payload
  · obtain ⟨payload, rfl⟩ := hs
    exact h.osc payload
  · exact h.of_texts (texts_of_standing (set_standing fun payload heq => hs ⟨payload, heq⟩))

/-- No operation but a command sets a text. -/
theorem operate_texts {op : Operation} (hop : ∀ s, op ≠ .set s)
    (h : t.operate tables op = some t') : t'.texts = t.texts := by
  cases op with
  | set s => exact absurd rfl (hop s)
  | motion m => exact texts_of_standing (onGrid_standing (f := (·.move m)) h)
  | edit e => exact texts_of_standing (onGrid_standing (f := (·.edit e)) h)
  | print ch => exact scrolling_texts (f := (·.print tables ch t.attrs)) h
  | printLast =>
    simp only [operate] at h
    split at h
    next ch _ => exact scrolling_texts (f := (·.print tables ch t.attrs)) h
    next =>
      cases h
      rfl
  | lineFeed => exact scrolling_texts (f := (·.lineFeed)) h
  | index => exact scrolling_texts (f := (·.index)) h
  | nextLine => exact scrolling_texts (f := (·.nextLine)) h
  | scrollUp n =>
    simp only [operate, scrollUpLines, Option.bind_eq_bind, Option.bind_eq_some_iff,
      Option.some.injEq] at h
    obtain ⟨full, -, ⟨grid, scrolled⟩, -, rfl⟩ := h
    rw [pushAll_onScreen]
    obtain ⟨s, v, hpush⟩ := pushAll_eq t (if full then scrolled else [])
    rw [hpush]
    rfl
  | pullBack =>
    simp only [operate, restoreFromScrollback] at h
    split at h
    next => exact (texts_of_standing (onGrid_standing h)).trans rfl
    next =>
      cases h
      rfl
  | enterAlt save =>
    simp only [operate, enterAltScreen] at h
    split at h
    · cases h
      rfl
    · split at h
      · cases h
        cases save <;> rfl
      · cases h
  | exitAlt restore =>
    simp only [operate, exitAltScreen] at h
    split at h
    · split at h
      · exact (texts_of_standing (restoreCursor_standing h)).trans rfl
      · cases h
        rfl
    · cases h
      rfl
  | clearHistory | saveCursor =>
    cases h
    rfl
  | restoreCursor => exact texts_of_standing (restoreCursor_standing h)

theorem TextsContained.operate {op : Operation} (ht : t.TextsContained)
    (h : t.operate tables op = some t') : t'.TextsContained := by
  by_cases hset : ∃ s, op = .set s
  · obtain ⟨s, rfl⟩ := hset
    cases h
    exact ht.set s
  · exact ht.of_texts (operate_texts (fun s hs => hset ⟨s, hs⟩) h)

theorem TextsContained.feed {bytes : List UInt8} (ht : t.TextsContained)
    (h : t.feed tables bytes = some t') : t'.TextsContained := by
  rw [feed_eq] at h
  obtain ⟨t'', hall, rfl⟩ := Option.map_eq_some_iff.mp h
  have hreceived : (t.receive bytes).TextsContained := ht.of_texts rfl
  have happlied : t''.TextsContained := by
    refine foldlM_invariant TextsContained ?_ hreceived hall
    exact fun t op t' ht hop => ht.operate hop
  exact happlied.of_texts (texts_of_standing (settle_standing _))

theorem resizeCells_texts {size : Winsize} {out : Terminal × Except TerminalError Unit}
    (h : t.resizeCells size = some out) : out.1.texts = t.texts := by
  obtain ⟨resized, -, hout⟩ := Option.bind_eq_some_iff.mp h
  cases resized with
  | error e =>
    cases hout
    rfl
  | ok grid =>
    dsimp only at hout
    split at hout <;>
    · cases hout
      rfl

theorem resize_texts {width height : ℕ} {answer : Except String Unit}
    {out : Terminal × Except TerminalError Unit} (h : t.resize width height answer = some out) :
    out.1.texts = t.texts := by
  unfold resize at h
  split at h
  · cases h
    rfl
  · dsimp only at h
    split at h
    · cases h
      rfl
    · obtain ⟨⟨t', result⟩, hcells, hout⟩ := Option.bind_eq_some_iff.mp h
      have hresized : t'.texts = t.texts := resizeCells_texts hcells
      have hreport := texts_of_standing
        (reportSize_standing (t := t') (cellsFor t.metrics width height) answer)
      cases result with
      | error e =>
        cases hout
        exact hresized
      | ok _ =>
        dsimp only at hout
        split at hout
        all_goals
          next t'' _ heq =>
            cases hout
            rw [heq] at hreport
            exact hreport.trans hresized

/-- No call of the host but bytes sets a text. -/
theorem perform_texts {op : TerminalOp} (hop : ∀ bytes, op ≠ .feed bytes)
    {out : Terminal × Reply} (h : t.perform tables op = some out) : out.1.texts = t.texts := by
  cases op with
  | feed bytes => exact absurd rfl (hop bytes)
  | resize width height answer =>
    obtain ⟨out', hout', rfl⟩ := Option.map_eq_some_iff.mp h
    exact resize_texts hout'
  | restart answer =>
    obtain ⟨out', hout', rfl⟩ := Option.map_eq_some_iff.mp h
    unfold restart at hout'
    dsimp only at hout'
    split at hout'
    · cases hout'
      rfl
    · exact (texts_of_standing (startSession_standing hout')).trans rfl
  | scrollUp | scrollDown | returnToNewest =>
    cases h
    rfl
  | _ => exact texts_of_standing (perform_standing (by rfl) h)

theorem TextsContained.perform {op : TerminalOp} (ht : t.TextsContained)
    {out : Terminal × Reply} (h : t.perform tables op = some out) : out.1.TextsContained := by
  by_cases hfeed : ∃ bytes, op = .feed bytes
  · obtain ⟨bytes, rfl⟩ := hfeed
    obtain ⟨t', ht', rfl⟩ := Option.map_eq_some_iff.mp h
    exact ht.feed ht'
  · exact ht.of_texts (perform_texts (fun bytes hop => hfeed ⟨bytes, hop⟩) h)

theorem new_textsContained {config : TerminalConfig} {metrics : CellMetrics}
    (h : Terminal.new config metrics = .ok t) : t.TextsContained := by
  have hempty (max : ℕ) : Contained max [] := ⟨fun _ hc => absurd hc List.not_mem_nil, max.zero_le⟩
  cases hscroll : Scrollback.new config.scrollbackLines 80 with
  | error e =>
    simp only [Terminal.new, hscroll, Except.mapError] at h
    cases h
  | ok scrollback =>
    simp only [Terminal.new, hscroll, Except.mapError] at h
    cases h
    exact ⟨hempty _, hempty _, hempty _⟩

/-- Whatever the host does and the program writes, the texts of a terminal are contained, and a
command changes nothing but texts and counters. -/
theorem osc_contained {config : TerminalConfig} {metrics : CellMetrics}
    (h : Terminal.new config metrics = .ok t) (tables : UnicodeTables) (ops : List TerminalOp) :
    Returns (t.performAll tables ops) fun t' => t'.TextsContained ∧
      ∀ payload, Returns (t'.apply tables (.osc payload)) (OscChanges t' payload) := by
  obtain ⟨t', hrun, -⟩ := performAll_valid (new_valid h) tables ops
  refine ⟨t', hrun, ?_, fun payload => ⟨_, rfl, osc_changes t' payload⟩⟩
  refine foldlM_invariant TextsContained ?_ (new_textsContained h) hrun
  intro t op t' ht hop
  obtain ⟨out, hout, rfl⟩ := Option.map_eq_some_iff.mp hop
  exact ht.perform hout

/-- A title with an escape, and a link. -/
theorem new_osc_contained : ∃ t, Terminal.new .default fontCells = .ok t ∧
    Returns (t.performAll asciiTables
      [.feed (0x1B :: Protocol.asBytes "]2;a" ++ [0x80, 0x1B, 0x5B, 0x07]),
        .feed (0x1B :: Protocol.asBytes "]8;;b" ++ [0x07])])
      fun t' => t'.TextsContained ∧
        ∀ payload, Returns (t'.apply asciiTables (.osc payload)) (OscChanges t' payload) := by
  obtain ⟨t, ht⟩ : ∃ t, Terminal.new .default fontCells = .ok t := ⟨_, rfl⟩
  exact ⟨t, ht, osc_contained ht asciiTables _⟩

/-- A command of an unknown kind is counted. -/
theorem unknown_osc_counted : ∃ t, Terminal.new .default fontCells = .ok t ∧
    ¬ ∃ title cwd hyperlink oscClipboardDenied,
      t.osc (Protocol.asBytes "9;a") = { t with title, cwd, hyperlink, oscClipboardDenied } := by
  obtain ⟨t, ht⟩ : ∃ t, Terminal.new .default fontCells = .ok t := ⟨_, rfl⟩
  have hcounted : (Terminal.new .default fontCells).toOption.map (fun t =>
      (t.invalidSequences, (t.osc (Protocol.asBytes "9;a")).invalidSequences)) = some (0, 1) := by
    decide
  refine ⟨t, ht, ?_⟩
  rintro ⟨title, cwd, hyperlink, denied, hosc⟩
  rw [ht] at hcounted
  obtain ⟨hbefore, hafter⟩ := Prod.mk.inj (Option.some_inj.mp hcounted)
  rw [hosc] at hafter
  exact absurd (hbefore.symm.trans hafter) (by decide)

end Terminal

end Ferrokey.Terminal
