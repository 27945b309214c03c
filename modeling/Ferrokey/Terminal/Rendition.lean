import Ferrokey.Terminal.Modes
import Mathlib.Tactic.IntervalCases

/-! # What a list of rendition codes can do

A code that acts on the rendition sets a colour or a flag to a value of its own, so there
are renditions it never leads to. A list of codes does so if one of the codes it goes
through does, and changes nothing otherwise.
-/

namespace Ferrokey.Terminal

/-- The codes that act on the rendition without a colour after them. -/
def plainCodes : List ℕ := [0, 1, 3, 4, 5, 6, 7, 9, 21, 22, 23, 24, 25, 27, 29, 39, 49]

/-- Whether a code acts on the rendition. -/
def sgrActs (code : ℕ) (rest : List ℕ) : Bool :=
  plainCodes.contains code || (code == 38 || code == 48) && (extendedColor rest).isSome ||
    decide (30 ≤ code ∧ code ≤ 37) || decide (40 ≤ code ∧ code ≤ 47) ||
    decide (90 ≤ code ∧ code ≤ 97) || decide (100 ≤ code ∧ code ≤ 107)

/-- How many parameters a code takes with it. -/
def sgrSkip (code : ℕ) (rest : List ℕ) : ℕ :=
  if code = 38 ∨ code = 48 then ((extendedColor rest).map Prod.snd).getD 0 else 0

/-- Whether none of the codes that are gone through acts. -/
def sgrIdle : ℕ → List ℕ → Bool
  | _, [] => true
  | skip + 1, _ :: rest => sgrIdle skip rest
  | 0, code :: rest => !sgrActs code rest && sgrIdle (sgrSkip code rest) rest

theorem sgrCode_snd (code : ℕ) (rest : List ℕ) (a : CellAttrs) :
    (sgrCode code rest a).2 = sgrSkip code rest := by
  by_cases hcolor : code = 38 ∨ code = 48
  · rcases hcolor with rfl | rfl <;> cases h : extendedColor rest <;> simp [sgrCode, sgrSkip, h]
  · rw [sgrSkip, if_neg hcolor]
    obtain ⟨h38, h48⟩ := not_or.mp hcolor
    unfold sgrCode
    split
    case h_16 => exact absurd rfl h38
    case h_18 => exact absurd rfl h48
    case h_20 => split_ifs <;> rfl
    all_goals rfl

theorem sgrCode_idle {code : ℕ} {rest : List ℕ} (h : sgrActs code rest = false) (a : CellAttrs) :
    (sgrCode code rest a).1 = a := by
  unfold sgrCode
  split
  case h_16 | h_18 =>
    have hnone : extendedColor rest = none := by
      simpa [sgrActs, plainCodes] using h
    rw [hnone]
  case h_20 =>
    simp only [sgrActs, Bool.or_eq_false_iff, decide_eq_false_iff_not] at h
    obtain ⟨⟨⟨⟨-, hfg⟩, hbg⟩, hbrightFg⟩, hbrightBg⟩ := h
    rw [if_neg hfg, if_neg hbg, if_neg hbrightFg, if_neg hbrightBg]
  all_goals cases h

/-! ### Renditions that are never reached -/

/-- Some rendition is never the result. -/
def Misses (f : CellAttrs → CellAttrs) : Prop := ∃ b, ∀ a, f a ≠ b

theorem misses_default : Misses fun _ => .default := ⟨⟨1, 0, .empty⟩, fun _ h => by cases h⟩

theorem misses_fg (color : UInt32) : Misses fun a => { a with fg := color } := by
  refine ⟨⟨color + 1, 0, .empty⟩, fun a h => ?_⟩
  have hfg : color = color + 1 := congrArg CellAttrs.fg h
  simp at hfg

theorem misses_bg (color : UInt32) : Misses fun a => { a with bg := color } := by
  refine ⟨⟨0, color + 1, .empty⟩, fun a h => ?_⟩
  have hbg : color = color + 1 := congrArg CellAttrs.bg h
  simp at hbg

theorem misses_flag {flag : UInt8} (hflag : flag ≠ 0) (on : Bool) :
    Misses fun a => a.setFlag flag on := by
  cases on with
  | true =>
    refine ⟨⟨0, 0, ⟨0⟩⟩, fun a h => ?_⟩
    have hbits : a.flags.bits ||| flag = 0 := congrArg (fun b => b.flags.bits) h
    exact hflag (UInt8.or_eq_zero_iff.mp hbits).2
  | false =>
    refine ⟨⟨0, 0, ⟨flag⟩⟩, fun a h => ?_⟩
    have hbits : a.flags.bits &&& ~~~flag = flag := congrArg (fun b => b.flags.bits) h
    apply hflag
    calc flag = flag &&& flag := (UInt8.and_self).symm
      _ = a.flags.bits &&& ~~~flag &&& flag := by rw [hbits]
      _ = a.flags.bits &&& (~~~flag &&& flag) := UInt8.and_assoc ..
      _ = 0 := by simp

theorem sgrCode_misses {code : ℕ} {rest : List ℕ} (h : sgrActs code rest = true) :
    Misses fun a => (sgrCode code rest a).1 := by
  simp only [sgrActs, plainCodes, List.contains_eq_mem, Bool.or_eq_true, Bool.and_eq_true,
    beq_iff_eq, decide_eq_true_eq] at h
  rcases h with ((((hplain | ⟨hcolor, hsome⟩) | hfg) | hbg) | hbrightFg) | hbrightBg
  · simp only [List.mem_cons, List.not_mem_nil, or_false] at hplain
    rcases hplain with rfl | rfl | rfl | rfl | rfl | rfl | rfl | rfl | rfl | rfl | rfl | rfl | rfl |
      rfl | rfl | rfl | rfl
    · exact misses_default
    all_goals first | exact misses_flag (by decide) _ | exact misses_fg 0 | exact misses_bg 0
  · obtain ⟨⟨color, skip⟩, hext⟩ := Option.isSome_iff_exists.mp hsome
    rcases hcolor with rfl | rfl
    · simpa only [sgrCode, hext] using misses_fg color
    · simpa only [sgrCode, hext] using misses_bg color
  · obtain ⟨hlo, hhi⟩ := hfg
    interval_cases code <;> exact misses_fg _
  · obtain ⟨hlo, hhi⟩ := hbg
    interval_cases code <;> exact misses_bg _
  · obtain ⟨hlo, hhi⟩ := hbrightFg
    interval_cases code <;> exact misses_fg _
  · obtain ⟨hlo, hhi⟩ := hbrightBg
    interval_cases code <;> exact misses_bg _

/-! ### Lists of codes -/

theorem sgrFrom_idle {skip : ℕ} {codes : List ℕ} (h : sgrIdle skip codes = true)
    (a : CellAttrs) : sgrFrom skip codes a = a := by
  induction codes generalizing skip with
  | nil => cases skip <;> rfl
  | cons code codes ih =>
    cases skip with
    | succ skip => exact ih h
    | zero =>
      obtain ⟨hact, hrest⟩ := (Bool.and_eq_true _ _).mp h
      rw [sgrFrom, sgrCode_snd, sgrCode_idle (by simpa using hact)]
      exact ih hrest

theorem sgrFrom_misses {skip : ℕ} {codes : List ℕ} (h : sgrIdle skip codes = false) :
    Misses (sgrFrom skip codes) := by
  induction codes generalizing skip with
  | nil => cases skip <;> cases h
  | cons code codes ih =>
    cases skip with
    | succ skip => exact ih h
    | zero =>
      cases hrest : sgrIdle (sgrSkip code codes) codes with
      | false =>
        -- a later code acts: the result misses a rendition whatever this one does
        obtain ⟨b, hb⟩ := ih hrest
        refine ⟨b, fun a => ?_⟩
        rw [sgrFrom, sgrCode_snd]
        exact hb _
      | true =>
        have hact : sgrActs code codes = true := by simpa [sgrIdle, hrest] using h
        obtain ⟨b, hb⟩ := sgrCode_misses hact
        refine ⟨b, fun a => ?_⟩
        rw [sgrFrom, sgrCode_snd, sgrFrom_idle hrest]
        exact hb a

/-- Whether a whole sequence of codes changes nothing. -/
def sgrIgnores (params : List ℕ) : Bool := !params.isEmpty && sgrIdle 0 params

theorem sgr_ignores {params : List ℕ} (h : sgrIgnores params = true) (a : CellAttrs) :
    sgr params a = a := by
  obtain ⟨hne, hidle⟩ := (Bool.and_eq_true _ _).mp h
  rw [sgr, if_neg (by simpa using hne)]
  exact sgrFrom_idle hidle a

theorem sgr_misses {params : List ℕ} (h : sgrIgnores params = false) : Misses (sgr params) := by
  cases hempty : params.isEmpty with
  | true =>
    obtain ⟨b, hb⟩ := misses_default
    exact ⟨b, fun a => by simpa [sgr, hempty] using hb a⟩
  | false =>
    obtain ⟨b, hb⟩ := sgrFrom_misses (by simpa [sgrIgnores, hempty] using h)
    exact ⟨b, fun a => by simpa [sgr, hempty] using hb a⟩

end Ferrokey.Terminal
