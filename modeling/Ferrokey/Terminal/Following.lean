import Ferrokey.Terminal.Reached

/-! # Following the output

A view lies within the history and follows the output exactly while it is at the newest
line. Whatever takes lines from the history leaves the view alone, and scrolling up stops
following even where there is nothing to scroll to; every other step keeps the view so.
-/

set_option linter.dupNamespace false

namespace Ferrokey.Terminal

/-- A push makes the history longer, or moves it by a line when it is full. -/
theorem Scrollback.len_le_push (s : Scrollback) (line : Line) : s.len ≤ (s.push line).1.len := by
  simp only [Scrollback.push, Scrollback.len, List.length_append, List.length_singleton]
  split
  · rw [List.length_tail]
    omega
  · omega

namespace Terminal

/-- The view is within the history, and follows the output exactly at the newest line. -/
structure ViewFits (t : Terminal) : Prop where
  offset : t.viewport.scrollOffset ≤ t.scrollback.len
  follow : t.viewport.followOutput = true ↔ t.viewport.scrollOffset = 0

/-- The operation takes no line from the history that the view is above. -/
def SparesView (t : Terminal) : Operation → Prop
  | .pullBack => t.scrollback.len = 0 ∨ t.viewport.scrollOffset < t.scrollback.len
  | .clearHistory => t.viewport.scrollOffset = 0
  | _ => True

/-- Scrolling up goes somewhere: there is a history, and the sum of the lines does not wrap
around to none. -/
def ScrollsView (t : Terminal) (n : ℕ) : Prop :=
  n = 0 ∨ 0 < t.scrollback.len ∧ (t.viewport.scrollOffset + n) % usizeSize ≠ 0

/-- What the host asks for keeps the view within the history. -/
def CallSparesView (tables : UnicodeTables) (t : Terminal) : TerminalOp → Prop
  | .feed bytes =>
    Along (fun t op => t.operate tables op) SparesView (t.receive bytes) (t.feedOps bytes)
  | .scrollUp n => t.ScrollsView n
  | _ => True

variable {t t' : Terminal} {tables : UnicodeTables}

theorem ViewFits.of_same (h : t.ViewFits) (hs : SameHistory t t') : t'.ViewFits := by
  constructor
  · rw [hs.viewport, hs.scrollback]
    exact h.offset
  · rw [hs.viewport]
    exact h.follow

theorem ViewFits.of_newest (h : t'.viewport.scrollOffset = 0)
    (hfollow : t'.viewport.followOutput = true) : t'.ViewFits :=
  ⟨h ▸ Nat.zero_le _, iff_of_true hfollow h⟩

/-! ### Storing lines -/

/-- Storing a line leaves the view where it is, as far above the newest line as before. -/
theorem ViewFits.push (h : t.ViewFits) {maxLines : ℕ} (hfits : t.scrollback.Fits maxLines)
    (hpos : 0 < maxLines) (hmax : maxLines ≤ maxScrollback) (line : Line) :
    (t.pushScrollback line).ViewFits := by
  unfold pushScrollback
  split
  · exact h
  · have hlen := (hfits.push hpos line).length.trans hmax
    have hgrows := (h.offset.trans (t.scrollback.len_le_push line))
    have hoffset : (t.viewport.updateBounds (t.scrollback.push line).1.len).scrollOffset =
        t.viewport.scrollOffset := by
      simp only [Viewport.updateBounds]
      split
      next hfollow => exact (h.follow.mp hfollow).symm
      next =>
        exact min_eq_left (hgrows.trans (le_min le_rfl hlen))
    constructor
    · exact hoffset.trans_le hgrows
    · dsimp only
      rw [hoffset]
      exact h.follow

theorem ViewFits.pushAll (h : t.ViewFits) {maxLines : ℕ} (hfits : t.scrollback.Fits maxLines)
    (hpos : 0 < maxLines) (hmax : maxLines ≤ maxScrollback) (lines : List Line) :
    (t.pushAll lines).ViewFits := by
  induction lines generalizing t with
  | nil => exact h
  | cons line lines ih =>
    apply ih (h.push hfits hpos hmax line)
    unfold pushScrollback
    split
    · exact hfits
    · exact hfits.push hpos line

/-! ### Operations and calls -/

/-- An operation keeps the view right exactly if it takes no line that the view is above. -/
theorem operate_viewFits_iff (h : t.ViewFits) (hk : t.Kept) {op : Operation}
    (hop : t.operate tables op = some t') : t'.ViewFits ↔ t.SparesView op := by
  have hoffset := h.offset
  cases operate_historyStep hop with
  | same hkeeps hsame =>
    apply iff_of_true (h.of_same hsame)
    cases op with
    | pullBack | clearHistory => cases hkeeps
    | _ => trivial
  | store hscrolls lines hsame =>
    have hfits := h.pushAll hk.history hk.capacity_pos hk.capacity.2 lines
    apply iff_of_true (hfits.of_same hsame)
    cases op with
    | pullBack | clearHistory => cases hscrolls
    | _ => trivial
  | pullBack history view =>
    have hlen : t'.scrollback.len = t.scrollback.len - 1 := by
      rw [history]
      exact List.length_dropLast
    simp only [SparesView]
    constructor
    · intro hview
      have hle := hview.offset
      rw [view, hlen] at hle
      omega
    · intro hspares
      refine ⟨by rw [view, hlen]; omega, ?_⟩
      rw [view]
      exact h.follow
  | clearHistory history view =>
    have hlen : t'.scrollback.len = 0 := by rw [history]; rfl
    simp only [SparesView]
    constructor
    · intro hview
      have hle := hview.offset
      rw [view, hlen] at hle
      omega
    · intro hspares
      exact .of_newest (view ▸ hspares) (view ▸ h.follow.mpr hspares)
  | enterAlt history view => exact iff_of_true (.of_newest (view ▸ rfl) (view ▸ rfl)) trivial

/-- Scrolling up keeps the view right exactly if it goes somewhere. -/
theorem scrollUp_viewFits_iff (h : t.ViewFits) (hk : t.Kept) (n : ℕ) :
    (t.scrollUp n).ViewFits ↔ t.ScrollsView n := by
  have hmax : t.scrollback.len ≤ maxScrollback := hk.history.length.trans hk.capacity.2
  have hbounds : t.viewport.updateBounds t.scrollback.len =
      { t.viewport with maxOffset := t.scrollback.len } := by
    have hoffset : (if t.viewport.followOutput then 0 else
        min t.viewport.scrollOffset t.scrollback.len) = t.viewport.scrollOffset := by
      split
      next hfollow => exact (h.follow.mp hfollow).symm
      next => exact min_eq_left h.offset
    simp only [Viewport.updateBounds, min_eq_left hmax, hoffset]
  unfold ScrollsView
  rcases Nat.eq_zero_or_pos n with rfl | hn
  · apply iff_of_true _ (.inl rfl)
    simp only [scrollUp, hbounds, Viewport.scrollUp, if_true]
    exact ⟨h.offset, h.follow⟩
  · have hscroll : (t.scrollUp n).viewport = ⟨min ((t.viewport.scrollOffset + n) % usizeSize)
        t.scrollback.len, false, t.scrollback.len⟩ := by
      simp only [scrollUp, hbounds, Viewport.scrollUp, if_neg hn.ne']
    constructor
    · -- the view does not follow any more, so it has gone somewhere
      intro hview
      have hne : min ((t.viewport.scrollOffset + n) % usizeSize) t.scrollback.len ≠ 0 := by
        intro hzero
        have hfollow := hview.follow.mpr (by rw [hscroll]; exact hzero)
        rw [hscroll] at hfollow
        cases hfollow
      omega
    · intro hmoves
      constructor
      · rw [hscroll]
        exact Nat.min_le_right _ _
      · rw [hscroll]
        apply iff_of_false (by simp)
        dsimp only
        omega

theorem scrollDown_viewFits (h : t.ViewFits) (n : ℕ) : (t.scrollDown n).ViewFits := by
  have hoffset := h.offset
  simp only [scrollDown, Viewport.scrollDown]
  split
  · exact ⟨h.offset, h.follow⟩
  · constructor
    · exact (Nat.sub_le _ _).trans hoffset
    · dsimp only
      rw [Bool.or_eq_true, beq_iff_eq, h.follow]
      omega

theorem resize_viewFits (h : t.ViewFits) (hk : t.Kept) (hr : Restores t t') : t'.ViewFits := by
  constructor
  · rw [hr.viewport]
    rcases hr.scrollback with hsame | ⟨cols, -, hstored⟩
    · exact hsame ▸ h.offset
    · have hroom := hk.history.length
      rw [hstored, Scrollback.pushAll_of_room (by simpa using hroom)]
      simpa [Scrollback.len] using h.offset
  · rw [hr.viewport]
    exact h.follow

theorem perform_viewFits (h : t.ViewFits) (hk : t.Kept) {op : TerminalOp}
    (hspares : t.CallSparesView tables op) :
    Returns (t.perform tables op) fun out => out.1.ViewFits := by
  obtain ⟨out, hout, hk'⟩ := perform_kept hk tables op
  refine ⟨out, hout, ?_⟩
  cases op with
  | feed bytes =>
    obtain ⟨t', ht', rfl⟩ := Option.map_eq_some_iff.mp hout
    obtain ⟨_, ht'', t'', -, hview, rfl⟩ := feed_along ViewFits hk
      ⟨h.offset, h.follow⟩ (fun t t' op hk h hs hop => (operate_viewFits_iff h hk hop).mpr hs)
      hspares
    obtain rfl := Option.some_inj.mp (ht'.symm.trans ht'')
    exact hview.of_same (settle_sameHistory _)
  | resize width height answer =>
    obtain ⟨out', hout', rfl⟩ := Option.map_eq_some_iff.mp hout
    exact resize_viewFits h hk (resize_restores hout')
  | scrollUp n =>
    cases hout
    exact (scrollUp_viewFits_iff h hk n).mpr hspares
  | scrollDown n =>
    cases hout
    exact scrollDown_viewFits h n
  | returnToNewest =>
    cases hout
    exact .of_newest rfl rfl
  | restart answer =>
    obtain ⟨out', hout', rfl⟩ := Option.map_eq_some_iff.mp hout
    obtain ⟨-, hview, -, -⟩ := restart_history hk.toValid hout'
    exact .of_newest (by rw [hview]; rfl) (by rw [hview]; rfl)
  | _ => exact h.of_same (perform_sameHistory rfl hout)

/-- In every run whose calls keep the view within the history, the view is within the history
and follows the output exactly at the newest line. -/
theorem performAll_viewFits {config : TerminalConfig} {metrics : CellMetrics} {t₀ : Terminal}
    (h : Terminal.new config metrics = .ok t₀) {ops : List TerminalOp}
    (hspares : Along (fun t op => (t.perform tables op).map Prod.fst) (CallSparesView tables)
      t₀ ops) : Returns (t₀.performAll tables ops) ViewFits := by
  have hboth : Returns (t₀.performAll tables ops) fun t => t.ViewFits ∧ t.Kept := by
    refine Returns.foldlM_along (fun t => t.ViewFits ∧ t.Kept) ?_ ⟨?_, new_kept h⟩ hspares
    · rintro t op ⟨hv, hk⟩ hs
      exact ((perform_viewFits hv hk hs).and (perform_kept hk tables op)).map fun _ => id
    · have hview := (new_fresh h).viewport
      exact .of_newest (by rw [hview]; rfl) (by rw [hview]; rfl)
  exact hboth.mono fun _ => And.left

/-- Two lines leave a pane of two rows, the view goes back by one of them and bytes print on. -/
def readBack : List TerminalOp :=
  [.resize 64 64 (.ok ()), .feed [0x0A, 0x0A, 0x0A], .scrollUp 1, .feed [0x61, 0x0A]]

theorem readBack_viewFits : ∃ t₀, Terminal.new .default fontCells = .ok t₀ ∧
    Returns (t₀.performAll asciiTables readBack) ViewFits := by
  have hnew : ∃ t₀, Terminal.new .default fontCells = .ok t₀ := ⟨_, rfl⟩
  obtain ⟨t₀, ht₀⟩ := hnew
  refine ⟨t₀, ht₀, performAll_viewFits ht₀ ?_⟩
  cases ht₀
  refine ⟨trivial, ?_⟩
  rintro _ ⟨⟩
  refine ⟨⟨trivial, ?_⟩, ?_⟩
  · rintro _ ⟨⟩
    refine ⟨trivial, ?_⟩
    rintro _ ⟨⟩
    refine ⟨trivial, ?_⟩
    rintro _ ⟨⟩
    trivial
  · rintro _ ⟨⟩
    refine ⟨.inr ⟨by decide, by decide⟩, ?_⟩
    rintro _ ⟨⟩
    refine ⟨⟨trivial, ?_⟩, ?_⟩
    · rintro _ ⟨⟩
      refine ⟨trivial, ?_⟩
      rintro _ ⟨⟩
      refine ⟨trivial, ?_⟩
      rintro _ ⟨⟩
      trivial
    · rintro _ ⟨⟩
      trivial

/-- The history is erased while the view is above it. -/
theorem erasedHistory_not_viewFits : ∃ t, Reachable asciiTables t ∧ ¬ t.ViewFits := by
  refine ⟨_, ⟨.default, fontCells, _, [.resize 64 64 (.ok ()), .feed [0x0A, 0x0A, 0x0A],
    .scrollUp 1, .feed [0x1B, 0x5B, 0x33, 0x4A]], rfl, rfl⟩, fun h => ?_⟩
  have hoffset := h.offset
  revert hoffset
  decide

end Terminal

end Ferrokey.Terminal
