import Ferrokey.Terminal.Reached

/-! # Plain text

Text with line feeds only prints glyphs, feeds lines and returns the carriage. What it
does to the screen, and which lines it scrolls out, does not depend on the history, and
the history only ever gets these lines.
-/

set_option linter.dupNamespace false

namespace Ferrokey.Terminal

/-- A character, a line feed or a carriage return. -/
def isPlain : ParserAction → Bool
  | .print _ | .control .lineFeed | .control .carriageReturn => true
  | _ => false

namespace Grid

/-- What a plain action does to the screen, with the line that it scrolls out. -/
def writeOne (tables : UnicodeTables) (attrs : CellAttrs) (g : Grid) :
    ParserAction → Option (Grid × Option Line)
  | .print ch => g.print tables ch attrs
  | .control .lineFeed => g.lineFeed
  | .control .carriageReturn => some (g.carriageReturn, none)
  | _ => some (g, none)

/-- What plain text does to the screen, with the lines that it scrolls out. -/
def write (tables : UnicodeTables) (attrs : CellAttrs) :
    List ParserAction → Grid → Option (Grid × List Line)
  | [], g => some (g, [])
  | a :: actions, g => do
    let (g, scrolled) ← g.writeOne tables attrs a
    let (g, lines) ← write tables attrs actions g
    some (g, scrolled.toList ++ lines)

theorem Sized.writeOne {g : Grid} {c r : ℕ} (h : g.Sized c r) (tables : UnicodeTables)
    (attrs : CellAttrs) (a : ParserAction) :
    Returns (g.writeOne tables attrs a) fun out => out.1.Sized c r := by
  cases a with
  | print ch => exact h.print tables ch attrs
  | control code =>
    cases code with
    | lineFeed => exact h.lineFeed
    | carriageReturn => exact .pure h.carriageReturn
    | _ => exact .pure h
  | _ => exact .pure h

theorem Sized.write {g : Grid} {c r : ℕ} (h : g.Sized c r) (tables : UnicodeTables)
    (attrs : CellAttrs) (actions : List ParserAction) :
    Returns (g.write tables attrs actions) fun out => out.1.Sized c r := by
  induction actions generalizing g with
  | nil => exact .pure h
  | cons a actions ih =>
    apply (h.writeOne tables attrs a).bind
    rintro ⟨g', scrolled⟩ h'
    apply (ih h').bind
    exact fun out hout => .pure hout

end Grid

namespace Terminal

variable {t t' : Terminal} {tables : UnicodeTables}

/-- Bytes that come to plain text. -/
def PlainText (t : Terminal) (bytes : List UInt8) : Prop :=
  ∀ a ∈ (t.parser.feed bytes).2, isPlain a = true

/-- The screen and the lines that text scrolls out of it. -/
def written (tables : UnicodeTables) (t : Terminal) (bytes : List UInt8) :
    Option (Grid × List Line) :=
  t.grid.write tables t.attrs (t.parser.feed bytes).2

theorem pushAll_append (lines lines' : List Line) :
    t.pushAll (lines ++ lines') = (t.pushAll lines).pushAll lines' := List.foldl_append ..

/-- Storing lines does not meet the screen and the last character. -/
theorem pushAll_typed (t : Terminal) (grid : Grid) (lastChar : Option Char) (lines : List Line) :
    pushAll { t with grid, lastChar } lines = { t.pushAll lines with grid, lastChar } := by
  induction lines generalizing t with
  | nil => rfl
  | cons line lines ih =>
    have hpush : pushScrollback { t with grid, lastChar } line =
        { t.pushScrollback line with grid, lastChar } := by
      unfold pushScrollback
      dsimp only
      split <;> rfl
    rw [pushAll, List.foldl_cons, hpush]
    exact ih (t.pushScrollback line)

theorem apply_plain {a : ParserAction} (ha : isPlain a = true) {g : Grid} {scrolled : Option Line}
    (hg : t.grid.writeOne tables t.attrs a = some (g, scrolled)) :
    ∃ lastChar, t.apply tables a =
      some (pushAll { t with grid := g, lastChar } scrolled.toList) := by
  cases a with
  | print ch =>
    refine ⟨some ch, ?_⟩
    have hprint : t.grid.print tables ch t.attrs = some (g, scrolled) := hg
    simp [apply, printChar, scrolling, hprint]
  | control code =>
    refine ⟨t.lastChar, ?_⟩
    cases code with
    | lineFeed =>
      have hfeed : t.grid.lineFeed = some (g, scrolled) := hg
      simp [apply, control, scrolling, hfeed]
    | carriageReturn =>
      cases hg
      rfl
    | _ => cases ha
  | _ => cases ha

theorem applyAll_plain {actions : List ParserAction} (hplain : ∀ a ∈ actions, isPlain a = true)
    {g : Grid} {lines : List Line} (hg : t.grid.write tables t.attrs actions = some (g, lines)) :
    ∃ lastChar, t.applyAll tables actions =
      some (pushAll { t with grid := g, lastChar } lines) := by
  induction actions generalizing t lines with
  | nil =>
    cases hg
    exact ⟨t.lastChar, rfl⟩
  | cons a actions ih =>
    simp only [Grid.write, Option.bind_eq_bind, Option.bind_eq_some_iff, Option.some.injEq] at hg
    obtain ⟨⟨g₁, scrolled⟩, hone, ⟨g₂, lines₂⟩, hrest, heq⟩ := hg
    cases heq
    obtain ⟨last₁, hfirst⟩ := apply_plain (hplain a List.mem_cons_self) hone
    obtain ⟨s, v, hpush⟩ := pushAll_eq { t with grid := g₁, lastChar := last₁ } scrolled.toList
    obtain ⟨last₂, hlast⟩ := ih (t := pushAll { t with grid := g₁, lastChar := last₁ }
      scrolled.toList) (fun a' hmem => hplain a' (List.mem_cons_of_mem a hmem))
      (by rw [hpush]; exact hrest)
    refine ⟨last₂, ?_⟩
    rw [applyAll, List.foldlM_cons, hfirst]
    refine hlast.trans (congrArg some ?_)
    rw [pushAll_append, pushAll_typed t g₁, pushAll_typed t g₂]

/-- What text comes to: the screen is written, the lines that it scrolls out are stored, and
what changed is marked. -/
theorem feed_plain {bytes : List UInt8} (hplain : t.PlainText bytes) {g : Grid}
    {lines : List Line} (hg : t.written tables bytes = some (g, lines)) :
    ∃ lastChar, t.feed tables bytes =
      some ((pushAll { t.receive bytes with grid := g, lastChar } lines).settle
        t.modes.synchronizedOutput) := by
  obtain ⟨lastChar, hall⟩ := applyAll_plain (t := t.receive bytes) hplain hg
  exact ⟨lastChar, by rw [feed, hall]; rfl⟩

theorem written_returns (h : t.Valid) (tables : UnicodeTables) (bytes : List UInt8) :
    Returns (t.written tables bytes) fun _ => True := by
  obtain ⟨c, r, c₀, r₀, hs⟩ := h.sizes
  exact (hs.grid.write tables t.attrs _).mono fun _ _ => trivial

end Terminal

end Ferrokey.Terminal
