import Ferrokey.Machine.Runs
import Ferrokey.Terminal.Safety

/-! # The size of the active screen

A resize reaches the active screen only. The size of the active screen is the one that
was asked for last as long as no bytes leave the alternate screen while the screen that
was put away has another size.
-/

set_option linter.dupNamespace false

namespace Ferrokey.Terminal

open Machine

namespace Terminal

/-- The screen that was put away has the size of the active one. -/
def SavedFits (t : Terminal) : Prop := ∀ g ∈ t.saved, Winsize.mk g.cols g.rowCount = t.sizeInCells

/-- The active screen keeps its size, and screens of one size stay so. -/
structure SameSize (t t' : Terminal) : Prop where
  pty : t'.pty = t.pty
  size : t'.sizeInCells = t.sizeInCells
  saved : t.SavedFits → t'.SavedFits

variable {t t' : Terminal} {c r c₀ r₀ : ℕ}

theorem Sizes.sizeInCells (h : t.Sizes c r c₀ r₀) : t.sizeInCells = ⟨c, r⟩ := by
  rw [Terminal.sizeInCells, h.grid.cols_eq, h.grid.rowCount_eq]

theorem Sizes.savedFits (h : t.Sizes c r c r) : t.SavedFits := by
  intro g hg
  rw [h.sizeInCells, (h.saved g hg).cols_eq, (h.saved g hg).rowCount_eq]

theorem Sizes.uniform (h : t.Sizes c r c₀ r₀) (hfits : t.SavedFits) : t.Sizes c r c r := by
  refine ⟨h.grid, fun g hg => ?_, h.altGrid⟩
  have heq := hfits g hg
  rw [h.sizeInCells, Winsize.mk.injEq] at heq
  obtain ⟨rfl, rfl⟩ := heq
  have hg' := h.saved g hg
  rw [← hg'.cols_eq, ← hg'.rowCount_eq] at hg'
  exact hg'

theorem SameSize.of_uniform (h : t.Sizes c r c r) (hu : Uniform c r t t') : SameSize t t' where
  pty := congrArg Host.pty hu.1.host
  size := hu.2.sizeInCells.trans h.sizeInCells.symm
  saved _ := hu.2.savedFits

/-- Bytes keep the size if both screens have it or if they do not leave the alternate screen. -/
theorem feed_sameSize (h : t.Valid) (tables : UnicodeTables) {bytes : List UInt8}
    (hk : t.SavedFits ∨ ∀ a ∈ (t.parser.feed bytes).2, leavesAltScreen a = false) :
    Returns (t.feed tables bytes) (SameSize t) := by
  obtain ⟨c, r, c₀, r₀, hs⟩ := h.sizes
  by_cases hfits : t.SavedFits
  · have hu := hs.uniform hfits
    exact (feed_uniform hu tables bytes).mono fun _ => .of_uniform hu
  · have hstay := hk.resolve_left hfits
    cases halt : t.altGrid with
    | false => exact absurd (hs.main halt c r).savedFits hfits
    | true =>
      apply (feed_away hs halt tables bytes).mono
      intro t' ht'
      rw [if_neg (by simpa using hstay)] at ht'
      obtain ⟨hadv, hs', -⟩ := ht'
      exact ⟨congrArg Host.pty hadv.host, hs'.sizeInCells.trans hs.sizeInCells.symm,
        fun hf => absurd hf hfits⟩

/-- Bytes that leave the alternate screen for one of another size. -/
theorem feed_otherSize (h : t.Valid) (tables : UnicodeTables) {bytes : List UInt8}
    (hfits : ¬ t.SavedFits) (hleave : ¬ ∀ a ∈ (t.parser.feed bytes).2, leavesAltScreen a = false) :
    Returns (t.feed tables bytes) fun t' => t'.sizeInCells ≠ t.sizeInCells := by
  obtain ⟨c, r, c₀, r₀, hs⟩ := h.sizes
  cases halt : t.altGrid with
  | false => exact absurd (hs.main halt c r).savedFits hfits
  | true =>
    apply (feed_away hs halt tables bytes).mono
    intro t' ht'
    rw [if_pos (by simpa using hleave)] at ht'
    intro heq
    rw [ht'.2.sizeInCells, hs.sizeInCells, Winsize.mk.injEq] at heq
    obtain ⟨rfl, rfl⟩ := heq
    exact hfits hs.savedFits

/-- Starting a session keeps the size and tells it to the program. -/
theorem startSession_sameSize (h : t.Valid) (answer : Except TerminalError Unit)
    (hpty : ∀ p ∈ t.pty, p = t.sizeInCells) : Returns (t.startSession answer) fun out =>
      out.1.sizeInCells = t.sizeInCells ∧ (t.SavedFits → out.1.SavedFits) ∧
      ∀ p ∈ out.1.pty, p = t.sizeInCells := by
  obtain ⟨c, r, c₀, r₀, hs⟩ := h.sizes
  apply (startSession_cases hs answer).mono
  rintro ⟨t', _⟩ (rfl | ⟨hs', hhost⟩)
  · exact ⟨rfl, id, hpty⟩
  · refine ⟨hs'.sizeInCells.trans hs.sizeInCells.symm, fun _ => hs'.savedFits, ?_⟩
    have hpty' : t'.pty = some t.sizeInCells := congrArg Host.pty hhost
    intro p hp
    rw [hpty'] at hp
    exact (Option.mem_some_iff.mp hp).symm

end Terminal

/-- A terminal and the size that the last resize of its pane came to. -/
structure SizeWatch where
  valid : ValidTerminal
  lastSize : Option Winsize

namespace SizeWatch

def terminal (s : SizeWatch) : Terminal := s.valid.terminal

def start {config : TerminalConfig} {metrics : CellMetrics} {t : Terminal}
    (h : Terminal.new config metrics = .ok t) : SizeWatch := ⟨⟨t, Terminal.new_valid h⟩, none⟩

/-- A resize counts that is not too small and succeeds. -/
def sizeAfter (metrics : CellMetrics) (lastSize : Option Winsize) :
    TerminalOp → Reply → Option Winsize
  | .resize width height _, .result (.ok _) =>
    if width < Terminal.minPanePx ∨ height < Terminal.minPanePx then lastSize
    else some (Terminal.cellsFor metrics width height)
  | _, _ => lastSize

def step (tables : UnicodeTables) (s : SizeWatch) (op : TerminalOp) : SizeWatch × Reply :=
  let (v, reply) := s.valid.perform tables op
  (⟨v, sizeAfter s.terminal.metrics s.lastSize op reply⟩, reply)

/-- Bytes are fed, a session is started, or the pane is resized with success. -/
def Admitted (s : SizeWatch) : TerminalOp → Prop
  | .feed _ | .startSession _ => True
  | .resize width height answer =>
    Terminal.minPanePx ≤ width ∧ Terminal.minPanePx ≤ height ∧
      ∃ t, s.terminal.resize width height answer = some (t, .ok ())
  | _ => False

/-- The active screen has the size that was asked for last, and the program was told so. -/
def Agrees (s : SizeWatch) : Prop :=
  ∀ size ∈ s.lastSize, s.terminal.sizeInCells = size ∧ ∀ p ∈ s.terminal.pty, p = size

/-- No bytes bring back a screen of another size. -/
def KeepsSize (s : SizeWatch) : TerminalOp → Prop
  | .feed bytes => s.terminal.SavedFits ∨
      ∀ a ∈ (s.terminal.parser.feed bytes).2, Terminal.leavesAltScreen a = false
  | _ => True

/-- The sizes agree; until the pane is resized all screens have one size. -/
structure Settled (s : SizeWatch) : Prop where
  size : ∀ size ∈ s.lastSize, s.terminal.sizeInCells = size
  pty : ∀ p ∈ s.terminal.pty, p = s.terminal.sizeInCells
  saved : s.lastSize = none → s.terminal.SavedFits

theorem Settled.agrees {s : SizeWatch} (h : s.Settled) : s.Agrees := by
  intro size hsize
  have heq := h.size size hsize
  exact ⟨heq, fun p hp => (h.pty p hp).trans heq⟩

variable {tables : UnicodeTables} {s : SizeWatch}

/-- What holds of every result of a call holds after the step. -/
theorem step_of_returns {op : TerminalOp} {P : Terminal → Reply → Prop}
    (h : Returns (s.terminal.perform tables op) fun out => P out.1 out.2) :
    P (s.step tables op).1.terminal (s.step tables op).2 := s.valid.perform_of_returns tables op h

theorem step_feed_of_returns {bytes : List UInt8} {P : Terminal → Prop}
    (h : Returns (s.terminal.feed tables bytes) P) :
    P (s.step tables (.feed bytes)).1.terminal :=
  step_of_returns (P := fun t' _ => P t') (h.map fun _ => id)

theorem step_startSession_of_returns {answer : Except TerminalError Unit} {P : Terminal → Prop}
    (h : Returns (s.terminal.startSession answer) fun out => P out.1) :
    P (s.step tables (.startSession answer)).1.terminal :=
  step_of_returns (P := fun t' _ => P t') (h.map fun _ => id)

theorem step_settled (h : s.Settled) {op : TerminalOp} (hw : s.Admitted op)
    (hk : s.KeepsSize op) : (s.step tables op).1.Settled := by
  have hv := s.valid.valid
  cases op with
  | feed bytes =>
    have hsame := step_feed_of_returns (Terminal.feed_sameSize hv tables hk)
    constructor
    · exact fun size hsize => hsame.size.trans (h.size size hsize)
    · intro p hp
      rw [hsame.pty] at hp
      rw [hsame.size]
      exact h.pty p hp
    · exact fun hnone => hsame.saved (h.saved hnone)
  | startSession answer =>
    obtain ⟨hsize, hsaved, hpty⟩ := step_startSession_of_returns
      (P := fun t' => t'.sizeInCells = s.terminal.sizeInCells ∧
        (s.terminal.SavedFits → t'.SavedFits) ∧ ∀ p ∈ t'.pty, p = s.terminal.sizeInCells)
      (Terminal.startSession_sameSize hv answer h.pty)
    constructor
    · exact fun size hlast => hsize.trans (h.size size hlast)
    · exact fun p hp => (hpty p hp).trans hsize.symm
    · exact fun hnone => hsaved (h.saved hnone)
  | resize width height answer =>
    obtain ⟨hwidth, hheight, t', ht'⟩ := hw
    obtain ⟨c, r, c₀, r₀, hs⟩ := hv.sizes
    obtain ⟨out, hout, -, hfits⟩ := Terminal.resize_spec hs hv.capacity width height answer
    obtain rfl : (t', .ok ()) = out := Option.some_inj.mp (ht'.symm.trans hout)
    have hfits' := hfits hwidth hheight rfl
    have hperform : Returns (s.terminal.perform tables (.resize width height answer)) fun out =>
        out.1 = t' ∧ out.2 = .result (.ok ()) :=
      ⟨(t', .result (.ok ())), by simp [Terminal.perform, ht'], rfl, rfl⟩
    obtain ⟨hterminal, hreply⟩ :=
      step_of_returns (P := fun t'' reply => t'' = t' ∧ reply = .result (.ok ())) hperform
    have hlast : (s.step tables (.resize width height answer)).1.lastSize =
        some (Terminal.cellsFor s.terminal.metrics width height) := by
      have hbig : ¬ (width < Terminal.minPanePx ∨ height < Terminal.minPanePx) := by omega
      change sizeAfter _ _ _ (s.step tables (.resize width height answer)).2 = _
      rw [hreply, sizeAfter, if_neg hbig]
    constructor
    · rw [hlast, hterminal]
      rintro _ ⟨⟩
      exact hfits'.sizes.sizeInCells
    · rw [hterminal, hfits'.sizes.sizeInCells]
      exact hfits'.pty h.pty
    · rw [hlast]
      exact fun hnone => absurd hnone (by simp)
  | _ => cases hw

theorem step_not_agrees (h : s.Settled) {op : TerminalOp} (hk : ¬ s.KeepsSize op) :
    ¬ (s.step tables op).1.Agrees := by
  cases op with
  | feed bytes =>
    obtain ⟨hfits, hleave⟩ := not_or.mp hk
    cases hlast : s.lastSize with
    | none => exact absurd (h.saved hlast) hfits
    | some size =>
      have hother := step_feed_of_returns
        (Terminal.feed_otherSize s.valid.valid tables hfits hleave)
      intro hagrees
      have heq : (s.step tables (.feed bytes)).1.terminal.sizeInCells = size :=
        (hagrees size hlast).1
      exact hother (heq.trans (h.size size hlast).symm)
  | _ => exact absurd trivial hk

/-- In a run of feeds, successful resizes and starts of a session, the active screen always has
the size that was asked for last, exactly when no bytes bring back a screen of another size. -/
theorem always_sized_iff {config : TerminalConfig} {metrics : CellMetrics} {t : Terminal}
    (h : Terminal.new config metrics = .ok t) (tables : UnicodeTables) {ops : List TerminalOp}
    (hw : Steps (step tables) Admitted (start h) ops) :
    Always (step tables) Agrees (start h) ops ↔ Steps (step tables) KeepsSize (start h) ops := by
  refine always_iff_steps_within Settled ?_ (fun s => Settled.agrees) ?_ ?_ hw
  · obtain ⟨-, hsaved, hhost, -⟩ := Terminal.new_spec h
    constructor
    · simp [start]
    · intro p hp
      have hpty : t.pty = none := congrArg Host.pty hhost
      simp [terminal, start, hpty] at hp
    · intro _ g hg
      simp [terminal, start, hsaved] at hg
  · exact fun s op hs hw hk => step_settled hs hw hk
  · exact fun s op hs _ hk => step_not_agrees hs hk

/-- Enter the alternate screen, resize the pane, and leave. -/
def resizedAway : List TerminalOp :=
  [.feed [0x1B, 0x5B, 0x3F, 0x31, 0x30, 0x34, 0x39, 0x68], .resize 64 64 (.ok ()),
    .feed [0x1B, 0x5B, 0x3F, 0x31, 0x30, 0x34, 0x39, 0x6C]]

theorem resizedAway_admitted {t : Terminal}
    (h : Terminal.new .default Terminal.fontCells = .ok t) :
    Steps (step Terminal.asciiTables) Admitted (start h) resizedAway := by
  cases h
  simp only [resizedAway, steps_cons_iff, steps_nil, and_true]
  exact ⟨trivial, ⟨by decide, by decide, _, rfl⟩, trivial⟩

theorem resizedAway_sized_iff :
    ∃ t, ∃ h : Terminal.new .default Terminal.fontCells = .ok t,
      Always (step Terminal.asciiTables) Agrees (start h) resizedAway ↔
        Steps (step Terminal.asciiTables) KeepsSize (start h) resizedAway :=
  ⟨_, rfl, always_sized_iff rfl _ (resizedAway_admitted rfl)⟩

theorem resizedAway_not_sized :
    ∃ t, ∃ h : Terminal.new .default Terminal.fontCells = .ok t,
      Steps (step Terminal.asciiTables) Admitted (start h) resizedAway ∧
        ¬ Always (step Terminal.asciiTables) Agrees (start h) resizedAway := by
  refine ⟨_, rfl, resizedAway_admitted rfl, fun ha => ?_⟩
  obtain ⟨hsize, -⟩ := ha resizedAway List.prefix_rfl ⟨4, 2⟩ rfl
  cases hsize

end SizeWatch

end Ferrokey.Terminal
