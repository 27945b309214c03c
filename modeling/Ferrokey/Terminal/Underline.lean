import Ferrokey.Terminal.CsiText
import Ferrokey.Terminal.Palette

/-! # Styles of underlining

The style of an underline comes after a 4 and a colon. The parser does not tell a colon
from a semicolon, and the code 4 leaves the style in the list, where it is gone through as
a code itself. It is left without effect only if there is no such code.
-/

set_option linter.dupNamespace false

namespace Ferrokey.Terminal

/-- The codes are gone through up to some of them, from one rendition to another. -/
inductive Arrives (codes' : List ℕ) (a' : CellAttrs) : List ℕ → CellAttrs → Prop where
  | here : Arrives codes' a' codes' a'
  | pass {code : ℕ} {rest : List ℕ} {a : CellAttrs} :
    Arrives codes' a' (rest.drop (sgrCode code rest a).2) (sgrCode code rest a).1 →
    Arrives codes' a' (code :: rest) a

section

variable {codes codes' : List ℕ} {a a' : CellAttrs}

theorem sgrFrom_drop (skip : ℕ) (codes : List ℕ) (a : CellAttrs) :
    sgrFrom skip codes a = sgrFrom 0 (codes.drop skip) a := by
  induction codes generalizing skip with
  | nil => cases skip <;> rfl
  | cons code codes ih =>
    cases skip with
    | zero => rfl
    | succ skip => exact ih skip

/-- What is still to be done is what is left of the codes. -/
theorem Arrives.sgrFrom_eq (h : Arrives codes' a' codes a) :
    sgrFrom 0 codes a = sgrFrom 0 codes' a' := by
  induction h with
  | here => rfl
  | pass _ ih => rw [sgrFrom, sgrFrom_drop, ih]

theorem Arrives.ne_nil (h : Arrives codes' a' codes a) (hne : codes' ≠ []) : codes ≠ [] := by
  cases h with
  | here => exact hne
  | pass _ => exact List.cons_ne_nil _ _

theorem Arrives.sgr_eq (h : Arrives codes' a' codes a) (hne : codes' ≠ []) :
    sgr codes a = sgrFrom 0 codes' a' := by
  rw [sgr, if_neg (by simpa using h.ne_nil hne), h.sgrFrom_eq]

end

/-! ### Codes that follow an underline -/

/-- A code does something other than to underline. -/
def HasFunction (n : ℕ) : Prop :=
  n ∈ plainCodes ∧ n ≠ 4 ∨ 30 ≤ n ∧ n ≤ 49 ∨ 90 ≤ n ∧ n ≤ 97 ∨ 100 ≤ n ∧ n ≤ 107

instance (n : ℕ) : Decidable (HasFunction n) := inferInstanceAs (Decidable (_ ∨ _))

theorem HasFunction.lt {n : ℕ} (hn : HasFunction n) : n < 108 := by
  rcases hn with ⟨hplain, -⟩ | hn
  · simp only [plainCodes, List.mem_cons, List.not_mem_nil, or_false] at hplain
    omega
  · omega

/-- The rendition with the underline that a style asks for. -/
def underlined (style : ℕ) (a : CellAttrs) : CellAttrs :=
  a.setFlag CellFlags.underline (decide (style ≠ 0))

theorem sgrFrom_four (post : List ℕ) (a : CellAttrs) : sgrFrom 0 (4 :: post) a =
    sgrFrom 0 post (a.setFlag CellFlags.underline (post.head? != some 0)) := rfl

theorem sgrFrom_reset (post : List ℕ) (a : CellAttrs) :
    sgrFrom 0 (0 :: post) a = sgrFrom 0 post .default := rfl

theorem sgrFrom_underline (n : ℕ) (post : List ℕ) (a : CellAttrs) :
    sgrFrom 0 (4 :: n :: post) a = sgrFrom 0 (n :: post) (underlined n a) := by
  have hon : ((n :: post).head? != some 0) = decide (n ≠ 0) := by
    rw [List.head?_cons]
    by_cases hn : n = 0
    · simp [hn]
    · simp [hn]
  rw [sgrFrom_four, hon, underlined]

theorem underlined_underlined (n : ℕ) (hn : n ≠ 0) (a : CellAttrs) :
    (underlined n a).setFlag CellFlags.underline true = underlined n a := by
  have hon : decide (n ≠ 0) = true := decide_eq_true hn
  simp only [underlined, hon, CellAttrs.setFlag, CellFlags.set, if_true, UInt8.or_assoc,
    UInt8.or_self]

/-- Underlining once more does nothing that lasts. -/
theorem sgrFrom_twice (post : List ℕ) (a : CellAttrs) :
    sgrFrom 0 (4 :: post) (underlined 4 a) = sgrFrom 0 post (underlined 4 a) := by
  rw [sgrFrom_four]
  by_cases hreset : post.head? = some 0
  · obtain ⟨rest, rfl⟩ : ∃ rest, post = 0 :: rest := by
      cases post with
      | nil => cases hreset
      | cons code rest =>
        cases hreset
        exact ⟨rest, rfl⟩
    rw [sgrFrom_reset, sgrFrom_reset]
  · have hon : (post.head? != some 0) = true := by simpa using hreset
    rw [hon, underlined_underlined 4 (by decide)]

/-- A code without a function does nothing after an underline. -/
theorem sgrFrom_style {n : ℕ} (hn : ¬ HasFunction n) (post : List ℕ) (a : CellAttrs) :
    sgrFrom 0 (n :: post) (underlined n a) = sgrFrom 0 post (underlined n a) := by
  by_cases hfour : n = 4
  · rw [hfour, sgrFrom_twice]
  · simp only [HasFunction, not_or, not_and_or] at hn
    obtain ⟨hplain, hcolor, hfg, hbg⟩ := hn
    have hacts : sgrActs n post = false := by
      have hmem : n ∉ plainCodes := fun h => (hplain.resolve_left (not_not_intro h)) hfour
      simp only [sgrActs, Bool.or_eq_false_iff, Bool.and_eq_false_iff, List.contains_eq_mem,
        decide_eq_false_iff_not, beq_eq_false_iff_ne]
      exact ⟨⟨⟨⟨⟨hmem, .inl ⟨by omega, by omega⟩⟩, by omega⟩, by omega⟩, by omega⟩, by omega⟩
    have hskip : sgrSkip n post = 0 := if_neg (by omega)
    rw [sgrFrom, sgrCode_snd, hskip, sgrCode_idle hacts]

/-- Colours that no code sets, with no flag or with all of them. -/
def odd (flags : UInt8) : CellAttrs := ⟨0xFFFFFF, 0xFFFFFF, ⟨flags⟩⟩

/-- A code with a function shows it after an underline, with other codes behind it if it is that
of a colour. -/
theorem style_shows {n : ℕ} (hn : HasFunction n) : ∃ post flags,
    sgrFrom 0 (n :: post) (underlined n (odd flags)) ≠
      sgrFrom 0 post (underlined n (odd flags)) := by
  have hall : ∀ n < 108, HasFunction n → ∃ post ∈ [[], [5, 1]], ∃ flags ∈ [0, 0xFF],
      sgrFrom 0 (n :: post) (underlined n (odd flags)) ≠
        sgrFrom 0 post (underlined n (odd flags)) := by decide
  obtain ⟨post, -, flags, -, hne⟩ := hall n hn.lt hn
  exact ⟨post, flags, hne⟩

/-! ### The sequence -/

/-- `CSI 4 : style m`. -/
def underlineText (style : Numeral) : CsiText :=
  ⟨none, .some [4] [(.colon, style)], [], ⟨0x6D, by decide⟩⟩

/-- The rendition has another underline, and nothing else is changed, whether the style comes alone
or among other codes. -/
structure UnderlineOnly (tables : UnicodeTables) (style : Numeral) : Prop where
  alone : ∀ t : Terminal,
    t.applyAll tables (Parser.new.feed (underlineText style).bytes).2 =
      some { t with attrs := underlined style.value t.attrs }
  inside : ∀ (t : Terminal) (codes post : List ℕ) (a : CellAttrs),
    Arrives (4 :: style.capped :: post) a codes t.attrs →
      t.csi tables (Terminal.setRendition codes) =
        some { t with attrs := sgrFrom 0 post (underlined style.value a) }

section

variable {tables : UnicodeTables} {style : Numeral}

/-- A number that does not fit into a register is no code, and neither is what is kept of it. -/
theorem capped_eq_or (style : Numeral) :
    style.capped = style.value ∨ 108 ≤ style.capped ∧ 108 ≤ style.value := by
  unfold Numeral.capped maxCsiValue
  omega

theorem hasFunction_capped : HasFunction style.capped ↔ HasFunction style.value := by
  rcases capped_eq_or style with heq | ⟨hcapped, hvalue⟩
  · rw [heq]
  · exact iff_of_false (fun h => absurd h.lt (not_lt.mpr hcapped))
      fun h => absurd h.lt (not_lt.mpr hvalue)

theorem underlined_capped (a : CellAttrs) :
    underlined style.capped a = underlined style.value a := by
  rcases capped_eq_or style with heq | ⟨hcapped, hvalue⟩
  · rw [heq]
  · have hon (n : ℕ) (hn : 108 ≤ n) : decide (n ≠ 0) = true := decide_eq_true (by omega)
    rw [underlined, underlined, hon _ hcapped, hon _ hvalue]

theorem sgr_style (h : ¬ HasFunction style.value) {codes post : List ℕ} {a a' : CellAttrs}
    (harrives : Arrives (4 :: style.capped :: post) a' codes a) :
    sgr codes a = sgrFrom 0 post (underlined style.value a') := by
  rw [harrives.sgr_eq (List.cons_ne_nil _ _), sgrFrom_underline,
    sgrFrom_style (hasFunction_capped.not.mpr h), underlined_capped]

/-- A style changes the underline only exactly if it is not a code with a function of its own. -/
theorem underlineOnly_iff (tables : UnicodeTables) (style : Numeral) :
    UnderlineOnly tables style ↔ ¬ HasFunction style.value := by
  constructor
  · intro honly hfunction
    obtain ⟨post, flags, hne⟩ := style_shows (hasFunction_capped.mpr hfunction)
    obtain ⟨t, -⟩ := Terminal.exists_valid
    have hinside := honly.inside { t with attrs := odd flags } _ post _ .here
    have hattrs : sgr (4 :: style.capped :: post) (odd flags) =
        sgrFrom 0 post (underlined style.value (odd flags)) :=
      congrArg Terminal.attrs (Option.some_inj.mp hinside)
    rw [Arrives.here.sgr_eq (List.cons_ne_nil _ _), sgrFrom_underline,
      ← underlined_capped] at hattrs
    exact hne hattrs
  · intro hnone
    constructor
    · intro t
      rw [CsiText.feed_bytes]
      have hcsi : t.applyAll tables [.csi (Terminal.setRendition [4, style.capped])] =
          some { t with attrs := sgr [4, style.capped] t.attrs } := rfl
      refine hcsi.trans ?_
      rw [sgr_style hnone .here]
      rfl
    · intro t codes post a harrives
      have hcsi : t.csi tables (Terminal.setRendition codes) =
          some { t with attrs := sgr codes t.attrs } := rfl
      rw [hcsi, sgr_style hnone harrives]

/-- `CSI 4 : 3 m` makes the text italic. -/
theorem curly_not_underlineOnly : ¬ UnderlineOnly Terminal.asciiTables [3] := by
  intro h
  obtain ⟨t, -⟩ := Terminal.exists_valid
  have hcurly := h.alone { t with attrs := .default }
  rw [CsiText.feed_bytes] at hcurly
  have hflags : sgr [4, 3] .default = underlined 3 .default :=
    congrArg Terminal.attrs (Option.some_inj.mp hcurly)
  revert hflags
  decide

end

end Ferrokey.Terminal
