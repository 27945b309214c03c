import Ferrokey.Terminal.Safety

/-! # Visits to the alternate screen

A program that enters the alternate screen and leaves it again finds the main screen, the
cursor and the rendition as they were. The history is shared by both screens: it comes
back as it was unless it has lines and something on the alternate screen takes them.
-/

set_option linter.dupNamespace false

namespace Ferrokey.Terminal

open Grid (Sized)

namespace Terminal

/-- Set or reset one private mode. -/
def isModeSwitch (finalByte : UInt8) (code : ℕ) : ParserAction → Bool
  | .csi c => c.privateMarker == 0x3F && c.finalByte == finalByte && c.params == [code]
  | _ => false

/-- Erase in display 3. -/
def erasesSavedLines : ParserAction → Bool
  | .csi c =>
    c.privateMarker == 0 && c.intermediates == [] && finalChar c == 'J' && c.param 0 0 == 3
  | _ => false

variable {t t' : Terminal} {c r : ℕ} {tables : UnicodeTables}

/-- Bytes that enter the alternate screen from the main one with a mode that saves the cursor,
do something there, and leave it with the same mode. -/
structure Visits (t : Terminal) (bytes : List UInt8) (mid : List ParserAction) : Prop where
  main : t.altGrid = false
  actions : ∃ code enter leave, (code = 1047 ∨ code = 1049) ∧
    (t.parser.feed bytes).2 = enter :: mid ++ [leave] ∧
    isModeSwitch 0x68 code enter = true ∧ isModeSwitch 0x6C code leave = true
  stays : ∀ a ∈ mid, switchesScreen a = false
  noReset : ∀ a ∈ mid, a ≠ .esc .fullReset
  noErase : ∀ a ∈ mid, erasesSavedLines a = false

/-- What a visit to the alternate screen should leave alone. -/
structure Restored (t t' : Terminal) : Prop where
  cells : t'.grid.rows = t.grid.rows
  margins : t'.grid.scrollTop = t.grid.scrollTop ∧ t'.grid.scrollBottom = t.grid.scrollBottom
  tabStops : t'.grid.tabStops = t.grid.tabStops
  cursor : t'.grid.cursor = t.grid.cursor
  attrs : t'.attrs = t.attrs
  scrollback : t'.scrollback = t.scrollback

/-! ### Lines that are taken from the history -/

/-- A history that had lines has fewer now. -/
def Fewer (s s' : Scrollback) : Prop :=
  s'.lines.length < s.lines.length ∨ s.lines = [] ∧ s' = s

theorem Shrinks.fewer {s s' : Scrollback} (h : Shrinks s s') : Fewer s s' := by
  by_cases hnil : s.lines = []
  · right
    refine ⟨hnil, ?_⟩
    rcases h with rfl | rfl
    · exact congrArg Prod.fst (Scrollback.popNewest_of_nil hnil)
    · cases s
      cases hnil
      rfl
  · left
    have hpos := List.length_pos_iff.mpr hnil
    rcases h with rfl | rfl
    · simp only [Scrollback.popNewest, List.length_dropLast]
      omega
    · exact hpos

theorem Fewer.trans_shrinks {s s' s'' : Scrollback} (h : Fewer s s') (h' : Shrinks s' s'') :
    Fewer s s'' := by
  rcases h with hlt | ⟨-, rfl⟩
  · left
    rcases h'.fewer with hlt' | ⟨-, rfl⟩
    · exact hlt'.trans hlt
    · exact hlt
  · exact h'.fewer

/-! ### The three parts of a visit -/

theorem apply_modeSwitch {finalByte : UInt8} {code : ℕ} {a : ParserAction}
    (hfinal : finalByte = 0x68 ∨ finalByte = 0x6C) (ha : isModeSwitch finalByte code a = true) :
    t.apply tables a = t.setPrivateCode code (finalByte == 0x68) := by
  cases a with
  | csi csi =>
    simp only [isModeSwitch, Bool.and_eq_true, beq_iff_eq] at ha
    obtain ⟨⟨hmarker, rfl⟩, hparams⟩ := ha
    have hprivate : isPrivateMode csi = true := by
      simpa [isPrivateMode, hmarker] using hfinal
    simp [apply, Terminal.csi, hprivate, setPrivateModes, hparams]
  | _ => cases ha

theorem enter_spec (h : t.grid.Sized c r) (hmain : t.altGrid = false) {code : ℕ} {a : ParserAction}
    (hcode : code = 1047 ∨ code = 1049) (ha : isModeSwitch 0x68 code a = true) :
    Returns (t.apply tables a) fun t' => t'.grid.Sized c r ∧ t'.altGrid = true ∧
      t'.saved = some t.saveCursor.grid ∧ t'.scrollback = t.scrollback := by
  have hset : t.apply tables a =
      t.enterAltScreen true >>= fun t' => some { t' with paneDirtyAll := true } := by
    rw [apply_modeSwitch (.inl rfl) ha]
    rcases hcode with rfl | rfl <;> rfl
  rw [hset]
  apply (enterAltScreen_spec h hmain true).bind
  rintro t' ⟨-, hg, halt, hsaved, hscroll⟩
  exact .pure ⟨hg, halt, hsaved, hscroll⟩

/-- The history after some actions on the alternate screen. -/
def HistoryAfter (mid : List ParserAction) (s s' : Scrollback) : Prop :=
  if mid.any takesHistory then Fewer s s' else s' = s

/-- What is done on the alternate screen leaves the main one where it was put, and takes lines
from the history or leaves it alone. -/
theorem visit_spec (h : t.grid.Sized c r) (halt : t.altGrid = true) {mid : List ParserAction}
    (hmid : ∀ a ∈ mid, switchesScreen a = false) :
    Returns (t.applyAll tables mid) fun t' =>
      Keeps c r t t' ∧ HistoryAfter mid t.scrollback t'.scrollback := by
  refine (Returns.foldlM_until (p := takesHistory)
    (P := fun t' => Keeps c r t t' ∧ t'.scrollback = t.scrollback)
    (Q := fun t' => Keeps c r t t' ∧ Fewer t.scrollback t'.scrollback) ?_ ?_ ?_ ?_).mono ?_
  · rintro t' ⟨hk, hs⟩ a ha htake
    apply (apply_quiet hk.sized tables (hmid a ha) htake).mono
    intro t'' hq
    exact ⟨hk.trans hq.toKeeps, (hq.history (hk.altGrid.trans halt)).trans hs⟩
  · rintro t' ⟨hk, hs⟩ a ha htake
    apply (apply_takes hk.sized tables htake).mono
    rintro t'' ⟨hk', hshrinks⟩
    exact ⟨hk.trans hk', hs ▸ (hshrinks (hk.altGrid.trans halt)).fewer⟩
  · rintro t' ⟨hk, hf⟩ a ha
    cases htake : takesHistory a with
    | false =>
      apply (apply_quiet hk.sized tables (hmid a ha) htake).mono
      intro t'' hq
      exact ⟨hk.trans hq.toKeeps, (hq.history (hk.altGrid.trans halt)).symm ▸ hf⟩
    | true =>
      apply (apply_takes hk.sized tables htake).mono
      rintro t'' ⟨hk', hshrinks⟩
      exact ⟨hk.trans hk', hf.trans_shrinks (hshrinks (hk.altGrid.trans halt))⟩
  · exact ⟨(Quiet.refl h).toKeeps, rfl⟩
  · intro t' ht'
    unfold HistoryAfter
    split at ht'
    next hany => rwa [if_pos hany]
    next hnone => rwa [if_neg hnone]

theorem restoreCursor_eq {g : Grid} (h : g.Sized c r) :
    g.restoreCursor = some { g with cursor := g.savedCursor, wrapPending := false } := by
  obtain ⟨hrow, hcol⟩ := h.savedCursor
  obtain ⟨_, hmaxRow, rfl⟩ := h.maxRow
  obtain ⟨_, hmaxCol, rfl⟩ := h.maxCol
  have hr : min g.savedCursor.row (r - 1) = g.savedCursor.row := by omega
  have hc : min g.savedCursor.col (c - 1) = g.savedCursor.col := by omega
  simp [Grid.restoreCursor, Grid.clampCursor, hmaxRow, hmaxCol, hr, hc]

/-- Leaving brings back the screen that was put away, with its cursor and rendition. -/
theorem leave_spec {g : Grid} (hg : g.Sized c r) (halt : t.altGrid = true)
    (hsaved : t.saved = some g) {code : ℕ} {a : ParserAction} (hcode : code = 1047 ∨ code = 1049)
    (ha : isModeSwitch 0x6C code a = true) : Returns (t.apply tables a) fun t' =>
      t'.grid = { g with cursor := g.savedCursor, wrapPending := false } ∧
      t'.attrs = g.savedAttrs.getD t.attrs ∧ t'.scrollback = t.scrollback := by
  have hreset : t.apply tables a =
      t.exitAltScreen true >>= fun t' => some { t' with paneDirtyAll := true } := by
    rw [apply_modeSwitch (.inr rfl) ha]
    rcases hcode with rfl | rfl <;> rfl
  have hgrid : t.leaveAltScreen.grid = g := by simp [leaveAltScreen, hsaved]
  have hrestore : t.leaveAltScreen.restoreCursor = some { t.leaveAltScreen with
      grid := { g with cursor := g.savedCursor, wrapPending := false }
      attrs := g.savedAttrs.getD t.attrs } := by
    simp only [Terminal.restoreCursor, onGrid, hgrid, restoreCursor_eq hg]
    rfl
  simp only [hreset, exitAltScreen, halt, if_true, hrestore]
  exact .pure ⟨rfl, rfl, rfl⟩

theorem Restored.trans {t'' : Terminal} (h : Restored t t') (h' : Restored t' t'') :
    Restored t t'' where
  cells := h'.cells.trans h.cells
  margins := ⟨h'.margins.1.trans h.margins.1, h'.margins.2.trans h.margins.2⟩
  tabStops := h'.tabStops.trans h.tabStops
  cursor := h'.cursor.trans h.cursor
  attrs := h'.attrs.trans h.attrs
  scrollback := h'.scrollback.trans h.scrollback

theorem settle_restored (t : Terminal) (synced : Bool) : Restored t (t.settle synced) := by
  cases synced with
  | true => exact ⟨rfl, ⟨rfl, rfl⟩, rfl, rfl, rfl, rfl⟩
  | false =>
    simp only [settle, markDirtyFromGrid, Bool.false_eq_true, if_false]
    split <;> exact ⟨rfl, ⟨rfl, rfl⟩, rfl, rfl, rfl, rfl⟩

theorem applyAll_visit (h : t.grid.Sized c r) (hmain : t.altGrid = false) {code : ℕ}
    (hcode : code = 1047 ∨ code = 1049) {enter leave : ParserAction} {mid : List ParserAction}
    (henter : isModeSwitch 0x68 code enter = true) (hleave : isModeSwitch 0x6C code leave = true)
    (hmid : ∀ a ∈ mid, switchesScreen a = false) :
    Returns (t.applyAll tables (enter :: mid ++ [leave])) fun t' =>
      t'.grid = { t.saveCursor.grid with cursor := t.grid.cursor, wrapPending := false } ∧
      t'.attrs = t.attrs ∧ HistoryAfter mid t.scrollback t'.scrollback := by
  rw [applyAll, List.foldlM_append, List.foldlM_cons]
  apply Returns.bind (P := fun t₂ => t₂.altGrid = true ∧ t₂.saved = some t.saveCursor.grid ∧
    HistoryAfter mid t.scrollback t₂.scrollback)
  · apply (enter_spec h hmain hcode henter).bind
    rintro t₁ ⟨hg₁, halt₁, hsaved₁, hscroll₁⟩
    apply (visit_spec hg₁ halt₁ hmid).mono
    rintro t₂ ⟨hk, hhistory⟩
    exact ⟨hk.altGrid.trans halt₁, hk.saved.trans hsaved₁, hscroll₁ ▸ hhistory⟩
  · rintro t₂ ⟨halt₂, hsaved₂, hscroll₂⟩
    rw [List.foldlM_cons]
    apply (leave_spec (saveCursor_quiet h).sized halt₂ hsaved₂ hcode hleave).bind
    rintro t₃ ⟨hgrid₃, hattrs₃, hscroll₃⟩
    exact .pure ⟨hgrid₃, hattrs₃, hscroll₃ ▸ hscroll₂⟩

/-- A visit restores all but the history, which it may have taken lines from. -/
theorem feed_visit (h : t.Valid) (tables : UnicodeTables) {bytes : List UInt8}
    {mid : List ParserAction} (hv : t.Visits bytes mid) : Returns (t.feed tables bytes) fun t' =>
      HistoryAfter mid t.scrollback t'.scrollback ∧
      (t'.scrollback = t.scrollback → Restored t t') := by
  obtain ⟨⟨c, r, c₀, r₀, hs⟩, -⟩ := h
  obtain ⟨code, enter, leave, hcode, hactions, henter, hleave⟩ := hv.actions
  unfold Terminal.feed
  rw [hactions]
  have hgrid : (t.receive bytes).grid.Sized c r := hs.grid
  apply (applyAll_visit hgrid hv.main hcode henter hleave hv.stays).bind
  rintro t' ⟨hgrid', hattrs, hhistory⟩
  have hsettle := settle_restored t' t.modes.synchronizedOutput
  refine .pure ⟨hsettle.scrollback ▸ hhistory, fun hscroll => ?_⟩
  have hrestored : Restored t t' := by
    constructor
    · exact (congrArg Grid.rows hgrid' :)
    · exact ⟨(congrArg Grid.scrollTop hgrid' :), (congrArg Grid.scrollBottom hgrid' :)⟩
    · exact (congrArg Grid.tabStops hgrid' :)
    · exact (congrArg Grid.cursor hgrid' :)
    · exact hattrs
    · exact hsettle.scrollback ▸ hscroll
  exact hrestored.trans hsettle

/-- A visit to the alternate screen leaves everything of the main one alone, the history
included, exactly when the history is empty or nothing takes lines from it. -/
theorem visit_restored_iff (h : t.Valid) (tables : UnicodeTables) {bytes : List UInt8}
    {mid : List ParserAction} (hv : t.Visits bytes mid) :
    Returns (t.feed tables bytes) (Restored t) ↔
      t.scrollback.lines = [] ∨ ∀ a ∈ mid, takesHistory a = false := by
  obtain ⟨t', hfeed, hhistory, hrestored⟩ := feed_visit h tables hv
  constructor
  · rintro ⟨_, hfeed', hr⟩
    obtain rfl : t' = _ := Option.some_inj.mp (hfeed.symm.trans hfeed')
    unfold HistoryAfter at hhistory
    split at hhistory
    next =>
      rcases hhistory with hlt | ⟨hnil, -⟩
      · rw [hr.scrollback] at hlt
        exact absurd hlt (lt_irrefl _)
      · exact .inl hnil
    next hnone =>
      right
      simpa using hnone
  · intro hcond
    refine ⟨t', hfeed, hrestored ?_⟩
    unfold HistoryAfter at hhistory
    split at hhistory
    next hany =>
      rcases hcond with hnil | hnone
      · rcases hhistory with hlt | ⟨-, heq⟩
        · simp [hnil] at hlt
        · exact heq
      · obtain ⟨a, ha, htake⟩ := List.any_eq_true.mp hany
        rw [hnone a ha] at htake
        cases htake
    next => exact hhistory

/-- A terminal of four columns and two rows with a line in its history. -/
def scrolledOnce : Option Terminal := do
  let t ← (Terminal.new .default fontCells).toOption
  t.performAll asciiTables [.resize 64 64 (.ok ()), .feed [0x41, 0x0A, 0x0A]]

/-- `CSI ? 1 0 4 9 h`, `ESC M`, `CSI ? 1 0 4 9 l`. -/
def reverseIndexVisit : List UInt8 :=
  [0x1B, 0x5B, 0x3F, 0x31, 0x30, 0x34, 0x39, 0x68, 0x1B, 0x4D,
    0x1B, 0x5B, 0x3F, 0x31, 0x30, 0x34, 0x39, 0x6C]

theorem scrolledOnce_valid (h : scrolledOnce = some t) : t.Valid := by
  have hnew : ∃ s, Terminal.new .default fontCells = .ok s := ⟨_, rfl⟩
  obtain ⟨s, hs⟩ := hnew
  obtain ⟨t', ht', hvalid⟩ := performAll_valid (new_valid hs) asciiTables
    [.resize 64 64 (.ok ()), .feed [0x41, 0x0A, 0x0A]]
  simp only [scrolledOnce, hs, Except.toOption, Option.bind_eq_bind, Option.bind_some, ht'] at h
  cases h
  exact hvalid

theorem reverseIndexVisit_visits (h : scrolledOnce = some t) :
    t.Visits reverseIndexVisit [.esc .reverseIndex] := by
  have hmain : scrolledOnce.map Terminal.altGrid = some false := rfl
  have hactions : scrolledOnce.map (fun t => (t.parser.feed reverseIndexVisit).2) =
      some [.csi ⟨0x3F, [1049], [], 0x68⟩, .esc .reverseIndex, .csi ⟨0x3F, [1049], [], 0x6C⟩] := rfl
  rw [h] at hmain hactions
  constructor
  · exact Option.some_inj.mp hmain
  · exact ⟨1049, _, _, .inr rfl, Option.some_inj.mp hactions, rfl, rfl⟩
  · decide
  · decide
  · decide

theorem reverseIndexVisit_restored_iff : ∃ t, scrolledOnce = some t ∧
    (Returns (t.feed asciiTables reverseIndexVisit) (Restored t) ↔
      t.scrollback.lines = [] ∨
        ∀ a ∈ [ParserAction.esc .reverseIndex], takesHistory a = false) := by
  obtain ⟨t, ht⟩ : ∃ t, scrolledOnce = some t := ⟨_, rfl⟩
  exact ⟨t, ht, visit_restored_iff (scrolledOnce_valid ht) _ (reverseIndexVisit_visits ht)⟩

theorem reverseIndexVisit_not_restored : ∃ t, scrolledOnce = some t ∧
    t.Visits reverseIndexVisit [.esc .reverseIndex] ∧
    ¬ Returns (t.feed asciiTables reverseIndexVisit) (Restored t) := by
  obtain ⟨t, ht⟩ : ∃ t, scrolledOnce = some t := ⟨_, rfl⟩
  have hlines : scrolledOnce.map (fun t =>
      (t.scrollback.len, (t.feed asciiTables reverseIndexVisit).map (·.scrollback.len))) =
      some (1, some 0) := rfl
  rw [ht] at hlines
  refine ⟨t, ht, reverseIndexVisit_visits ht, ?_⟩
  rintro ⟨t', hfeed, hr⟩
  simp [hfeed, hr.scrollback] at hlines
  omega

end Terminal

end Ferrokey.Terminal
