import Ferrokey.Collections.Text

/-! # Numerals

Numbers read from texts in a base up to ten, with an optional plus sign, and only below a
limit. A number that is printed below the limit is read back, and so is a list of numbers
printed with a separator between them.
-/

namespace Ferrokey.Text

/-- The value of a digit in a base of at most ten. -/
def digitValue (b : ℕ) (c : Char) : Option ℕ :=
  if c.isDigit && c.toNat - 48 < b then some (c.toNat - 48) else none

def numeralStep (b limit acc : ℕ) (c : Char) : Option ℕ :=
  (digitValue b c).bind fun d => if acc * b + d < limit then some (acc * b + d) else none

/-- Read an unsigned number below a limit; a sign needs a digit behind it. -/
def parseNumeral (b limit : ℕ) (s : List Char) : Option ℕ :=
  match s with
  | [] | ['+'] | ['-'] => none
  | '+' :: digits => digits.foldlM (numeralStep b limit) 0
  | digits => digits.foldlM (numeralStep b limit) 0

section

variable {b limit n : ℕ}

theorem digitValue_digitChar {d : ℕ} (hb : b ≤ 10) (h : d < b) :
    digitValue b d.digitChar = some d := by
  have hd : d.digitChar.isDigit = true := by
    rw [Nat.isDigit_digitChar]
    exact decide_eq_true (h.trans_le hb)
  have hv : d.digitChar.toNat - 48 = d := Nat.toNat_digitChar_sub_48_of_lt_ten (h.trans_le hb)
  simp [digitValue, hd, hv, h]

theorem foldlM_numeralStep (hb₁ : 1 < b) (hb : b ≤ 10) (h : n < limit) :
    (Nat.toDigits b n).foldlM (numeralStep b limit) 0 = some n := by
  induction n using Nat.strong_induction_on with
  | _ n ih =>
    by_cases hn : n < b
    · rw [Nat.toDigits_of_lt_base hn]
      simp [numeralStep, digitValue_digitChar hb hn, h]
    · have hdiv : n / b * b + n % b = n := Nat.div_add_mod' n b
      have hlt : n / b < n := Nat.div_lt_self (by omega) hb₁
      rw [Nat.toDigits_of_base_le hb₁ (Nat.le_of_not_lt hn), List.foldlM_append,
        ih _ hlt (hlt.trans h)]
      simp [numeralStep, digitValue_digitChar hb (Nat.mod_lt n (by omega)), hdiv, h]

/-- A text that starts with a digit is read from its first character on. -/
theorem parseNumeral_of_digits {s : List Char} (hs : s ≠ []) (h : ∀ c ∈ s, c.isDigit = true) :
    parseNumeral b limit s = s.foldlM (numeralStep b limit) 0 := by
  unfold parseNumeral
  split
  · exact absurd rfl hs
  · exact absurd (h '+' List.mem_cons_self) (by decide)
  · exact absurd (h '-' List.mem_cons_self) (by decide)
  · exact absurd (h '+' List.mem_cons_self) (by decide)
  · rfl

/-- A number printed in a base is read back in that base. -/
theorem parseNumeral_toDigits (hb₁ : 1 < b) (hb : b ≤ 10) (h : n < limit) :
    parseNumeral b limit (Nat.toDigits b n) = some n := by
  rw [parseNumeral_of_digits Nat.toDigits_ne_nil
    fun c hc => Nat.isDigit_of_mem_toDigits (by omega) hb hc]
  exact foldlM_numeralStep hb₁ hb h

theorem isWhitespace_of_isDigit {c : Char} (h : c.isDigit = true) : isWhitespace c = false := by
  simp only [Char.isDigit, Bool.and_eq_true, decide_eq_true_eq, UInt32.le_iff_toNat_le] at h
  have hc : 48 ≤ c.toNat ∧ c.toNat ≤ 57 := h
  simp [isWhitespace]
  omega

/-- Read a signed number; a negative one may reach the limit. -/
def parseSigned (b limit : ℕ) (s : List Char) : Option ℤ :=
  match s with
  | '-' :: c :: digits =>
    ((c :: digits).foldlM (numeralStep b (limit + 1)) 0).map fun n => -(n : ℤ)
  | s => (parseNumeral b limit s).map Int.ofNat

theorem parseSigned_toDigits (hb₁ : 1 < b) (hb : b ≤ 10) (h : n < limit) :
    parseSigned b limit (Nat.toDigits b n) = some (n : ℤ) := by
  unfold parseSigned
  split
  next hs =>
    have hd := Nat.isDigit_of_mem_toDigits (by omega) hb (hs ▸ List.mem_cons_self)
    exact absurd hd (by decide)
  · rw [parseNumeral_toDigits hb₁ hb h]
    rfl

/-- The nonempty pieces of a text between separators. -/
def pieces (sep : Char) (s : List Char) : List (List Char) := (s.splitOn sep).filter (· ≠ [])

/-- Words printed with a separator between them are read back. -/
theorem pieces_intercalate {sep : Char} {words : List (List Char)}
    (h : ∀ w ∈ words, w ≠ [] ∧ sep ∉ w) : pieces sep ([sep].intercalate words) = words := by
  unfold pieces
  by_cases hw : words = []
  · subst hw
    rfl
  · rw [List.splitOn_intercalate sep (fun w hm => (h w hm).2) hw, List.filter_eq_self]
    exact fun w hm => decide_eq_true (h w hm).1

end

end Ferrokey.Text
