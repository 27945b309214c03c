import Ferrokey.Terminal.Underline

/-! # Codes in one sequence or in two

A code that sets a colour takes the parameters after it, and the code of an underline
looks at the next one. If the colours of the first of two lists of codes are complete, it
makes no difference whether the codes come in one sequence or in two.
-/

set_option linter.dupNamespace false

namespace Ferrokey.Terminal

/-- The parameters after a 38 or a 48 begin with a mode, and with all the components of it: the
index of a colour, or red, green and blue. -/
def NamesColor : List ℕ → Prop
  | [] => False
  | mode :: components =>
    (mode = 5 → 1 ≤ components.length) ∧ (mode = 2 → 3 ≤ components.length)

/-- Every 38 or 48 that is met on the way through the codes has its mode and all the components
of it, past those parameters that an earlier one took. -/
def ColorsComplete : ℕ → List ℕ → Prop
  | _, [] => True
  | skip + 1, _ :: rest => ColorsComplete skip rest
  | 0, code :: rest =>
    (code = 38 ∨ code = 48 → NamesColor rest) ∧ ColorsComplete (sgrSkip code rest) rest

instance : (rest : List ℕ) → Decidable (NamesColor rest)
  | [] => .isFalse id
  | _ :: _ => inferInstanceAs (Decidable (_ ∧ _))

instance instDecidableColorsComplete :
    (skip : ℕ) → (codes : List ℕ) → Decidable (ColorsComplete skip codes)
  | 0, [] => .isTrue trivial
  | _ + 1, [] => .isTrue trivial
  | skip + 1, _ :: rest => instDecidableColorsComplete skip rest
  | 0, code :: rest =>
    have := instDecidableColorsComplete (sgrSkip code rest) rest
    inferInstanceAs (Decidable (_ ∧ _))

section

variable {code skip : ℕ} {rest p q : List ℕ}

theorem extendedColor_snd_le {color : UInt32} (h : extendedColor rest = some (color, skip)) :
    skip ≤ rest.length := by
  unfold extendedColor at h
  split at h
  · cases h
    simp
  · cases h
    simp
  · cases h

/-- A code takes no more parameters than there are. -/
theorem sgrSkip_le (code : ℕ) (rest : List ℕ) : sgrSkip code rest ≤ rest.length := by
  unfold sgrSkip
  split
  · cases hcolor : extendedColor rest with
    | none => exact Nat.zero_le _
    | some named => exact extendedColor_snd_le hcolor
  · exact Nat.zero_le _

theorem extendedColor_other {mode : ℕ} (h5 : mode ≠ 5) (h2 : mode ≠ 2) (components : List ℕ) :
    extendedColor (mode :: components) = none := by
  unfold extendedColor
  split
  next heq => exact absurd (List.cons.inj heq).1 h5
  next heq => exact absurd (List.cons.inj heq).1 h2
  · rfl

/-- A colour whose components are all there is the same whatever comes behind them. -/
theorem NamesColor.extendedColor_append (h : NamesColor rest) (q : List ℕ) :
    extendedColor (rest ++ q) = extendedColor rest := by
  cases rest with
  | nil => exact h.elim
  | cons mode components =>
    obtain ⟨hindex, hrgb⟩ := h
    by_cases h5 : mode = 5
    · subst h5
      match components, hindex rfl with
      | _ :: _, _ => rfl
    · by_cases h2 : mode = 2
      · subst h2
        match components, hrgb rfl with
        | _ :: _ :: _ :: _, _ => rfl
      · rw [List.cons_append, extendedColor_other h5 h2, extendedColor_other h5 h2]

/-- Of all the codes only those of a colour and of an underline look at what comes after them. -/
theorem sgrCode_congr {rest' : List ℕ}
    (hcolor : code = 38 ∨ code = 48 → extendedColor rest' = extendedColor rest)
    (hunder : code = 4 → rest'.head? = rest.head?) (a : CellAttrs) :
    sgrCode code rest' a = sgrCode code rest a := by
  by_cases h38 : code = 38
  · subst h38
    simp only [sgrCode, hcolor (.inl rfl)]
  · by_cases h48 : code = 48
    · subst h48
      simp only [sgrCode, hcolor (.inr rfl)]
    · by_cases h4 : code = 4
      · subst h4
        simp only [sgrCode, hunder rfl]
      · unfold sgrCode
        split <;> first | rfl | contradiction

/-- An underline at the end of a list is switched on, also if a reset comes after it, which switches
it off in any case. -/
theorem sgrFrom_four_last (q : List ℕ) (a : CellAttrs) :
    sgrFrom 0 (4 :: q) a = sgrFrom 0 q (sgrFrom 0 [4] a) := by
  have hlast : sgrFrom 0 [4] a = a.setFlag CellFlags.underline true := rfl
  rw [hlast, sgrFrom_four]
  cases q with
  | nil => rfl
  | cons code q =>
    by_cases hreset : code = 0
    · subst hreset
      rw [sgrFrom_reset, sgrFrom_reset]
    · have hon : ((code :: q).head? != some 0) = true := by simpa using hreset
      rw [hon]

/-- Codes that are gone through together are gone through one part after the other. The induction
is on the first part, past the parameters that its colours take. -/
theorem sgrFrom_append (h : ColorsComplete skip p) (hskip : skip ≤ p.length) (q : List ℕ)
    (a : CellAttrs) : sgrFrom skip (p ++ q) a = sgrFrom 0 q (sgrFrom skip p a) := by
  induction p generalizing skip a with
  | nil =>
    obtain rfl : skip = 0 := Nat.le_zero.mp hskip
    rfl
  | cons code rest ih =>
    cases skip with
    | succ skip => exact ih h (Nat.le_of_succ_le_succ hskip) a
    | zero =>
      obtain ⟨hnames, hrest⟩ := h
      have hcolor : code = 38 ∨ code = 48 → extendedColor (rest ++ q) = extendedColor rest :=
        fun hcode => (hnames hcode).extendedColor_append q
      by_cases hlast : code = 4 ∧ rest = []
      · obtain ⟨rfl, rfl⟩ := hlast
        exact sgrFrom_four_last q a
      · have hunder : code = 4 → (rest ++ q).head? = rest.head? := by
          intro hcode
          cases rest with
          | nil => exact absurd ⟨hcode, rfl⟩ hlast
          | cons _ _ => rfl
        have hcode := sgrCode_congr hcolor hunder a
        rw [List.cons_append, sgrFrom, sgrFrom, hcode, sgrCode_snd]
        exact ih hrest (sgrSkip_le code rest) _

/-- The codes of two lists have the same effect in one sequence and in two, if the colours of the
first list are complete. -/
theorem sgr_append (hp : p ≠ []) (hq : q ≠ []) (h : ColorsComplete 0 p) (a : CellAttrs) :
    sgr (p ++ q) a = sgr q (sgr p a) := by
  have hpq : p ++ q ≠ [] := fun happend => hp (List.append_eq_nil_iff.mp happend).1
  simp only [sgr, List.isEmpty_iff, if_neg hp, if_neg hq, if_neg hpq]
  exact sgrFrom_append h (Nat.zero_le _) q a

end

/-- A colour and an underline, and a reset in the next sequence. -/
theorem colorThenReset_append :
    sgr ([38, 2, 255, 128, 0, 4] ++ [0, 48, 5]) .default =
      sgr [0, 48, 5] (sgr [38, 2, 255, 128, 0, 4] .default) :=
  sgr_append (by decide) (by decide) (by decide) _

end Ferrokey.Terminal
