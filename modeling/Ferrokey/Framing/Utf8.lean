import Mathlib.Data.UInt
import Mathlib.Tactic.Common

/-! # Characters in UTF-8

A character above ASCII is encoded as a lead byte, which tells how many bytes there are,
and continuation bytes, which are never the first byte of a character.
-/

namespace Ferrokey.Framing

def IsContinuation (b : UInt8) : Prop := 0x80 ≤ b ∧ b ≤ 0xBF

/-- How many bytes follow from a lead byte, itself included; 0 for a byte that is none. -/
def sequenceLength (lead : UInt8) : ℕ :=
  if 0xC2 ≤ lead ∧ lead ≤ 0xDF then 2
  else if 0xE0 ≤ lead ∧ lead ≤ 0xEF then 3
  else if 0xF0 ≤ lead ∧ lead ≤ 0xF4 then 4
  else 0

def utf8Bytes (s : List Char) : List UInt8 := s.flatMap String.utf8EncodeChar

variable {c : Char} {b : UInt8}

theorem isContinuation_of_mod (n : ℕ) : IsContinuation (UInt8.ofNat (n % 0x40 + 0x80)) := by
  simp only [IsContinuation, UInt8.le_iff_toNat_le, UInt8.reduceToNat, UInt8.toNat_ofNat']
  omega

theorem lead_of_sequenceLength (h : sequenceLength b ≠ 0) : 0xC2 ≤ b ∧ b ≤ 0xF4 := by
  unfold sequenceLength at h
  split_ifs at h
  all_goals simp only [UInt8.le_iff_toNat_le, UInt8.reduceToNat] at *
  all_goals omega

theorem not_isContinuation_of_lead (h : sequenceLength b ≠ 0) : ¬ IsContinuation b := by
  obtain ⟨hlo, -⟩ := lead_of_sequenceLength h
  simp only [IsContinuation, UInt8.le_iff_toNat_le, UInt8.reduceToNat] at hlo ⊢
  omega

theorem utf8EncodeChar_ascii (h : c.toNat ≤ 0x7F) :
    String.utf8EncodeChar c = [UInt8.ofNat c.toNat] :=
  if_pos h

/-- A lead byte of a length, by the range that it lies in. -/
theorem sequenceLength_ofNat {n : ℕ} : (0xC2 ≤ n ∧ n ≤ 0xDF → sequenceLength (UInt8.ofNat n) = 2) ∧
    (0xE0 ≤ n ∧ n ≤ 0xEF → sequenceLength (UInt8.ofNat n) = 3) ∧
    (0xF0 ≤ n ∧ n ≤ 0xF4 → sequenceLength (UInt8.ofNat n) = 4) := by
  unfold sequenceLength
  simp only [UInt8.le_iff_toNat_le, UInt8.reduceToNat, UInt8.toNat_ofNat']
  refine ⟨fun h => ?_, fun h => ?_, fun h => ?_⟩
  · rw [if_pos (by omega)]
  · rw [if_neg (by omega), if_pos (by omega)]
  · rw [if_neg (by omega), if_neg (by omega), if_pos (by omega)]

/-- Above ASCII a lead byte stands before as many continuation bytes as it tells. -/
theorem utf8EncodeChar_sequence (h : 0x7F < c.toNat) : ∃ lead rest,
    String.utf8EncodeChar c = lead :: rest ∧ sequenceLength lead = rest.length + 1 ∧ rest ≠ [] ∧
      ∀ b ∈ rest, IsContinuation b := by
  have hmax : c.toNat < 0x110000 := by
    have hvalid := c.valid
    simp only [UInt32.isValidChar, Nat.isValidChar] at hvalid
    change c.val.toNat < 0x110000
    omega
  have hascii : ¬ c.val.toNat ≤ 0x7F := Nat.not_le.mpr h
  have hnat : c.toNat = c.val.toNat := rfl
  rw [hnat] at h hmax
  unfold String.utf8EncodeChar
  dsimp only
  rw [if_neg hascii]
  split_ifs with htwo hthree
  · refine ⟨_, _, rfl, sequenceLength_ofNat.1 (by omega), nofun, ?_⟩
    simp only [List.mem_singleton, forall_eq]
    exact isContinuation_of_mod _
  · refine ⟨_, _, rfl, sequenceLength_ofNat.2.1 (by omega), nofun, ?_⟩
    simp only [List.mem_cons, List.not_mem_nil, or_false, forall_eq_or_imp, forall_eq]
    exact ⟨isContinuation_of_mod _, isContinuation_of_mod _⟩
  · refine ⟨_, _, rfl, sequenceLength_ofNat.2.2 (by omega), nofun, ?_⟩
    simp only [List.mem_cons, List.not_mem_nil, or_false, forall_eq_or_imp, forall_eq]
    exact ⟨isContinuation_of_mod _, isContinuation_of_mod _, isContinuation_of_mod _⟩

/-- No character begins with a continuation byte. -/
theorem utf8EncodeChar_first (c : Char) :
    ∃ byte bytes, String.utf8EncodeChar c = byte :: bytes ∧ ¬ IsContinuation byte := by
  by_cases hascii : c.toNat ≤ 0x7F
  · refine ⟨_, [], utf8EncodeChar_ascii hascii, ?_⟩
    simp only [IsContinuation, UInt8.le_iff_toNat_le, UInt8.reduceToNat, UInt8.toNat_ofNat']
    omega
  · obtain ⟨lead, rest, henc, hlen, -⟩ := utf8EncodeChar_sequence (Nat.not_le.mp hascii)
    exact ⟨lead, rest, henc, not_isContinuation_of_lead (by omega)⟩

/-- What is cut off a character before its end is a lead byte with too few bytes after it. -/
theorem utf8EncodeChar_prefix {cut : List UInt8} (hne : cut ≠ [])
    (hpre : cut <+: String.utf8EncodeChar c) (hproper : cut ≠ String.utf8EncodeChar c) :
    ∃ lead rest, cut = lead :: rest ∧ rest.length + 1 < sequenceLength lead ∧
      ∀ b ∈ rest, IsContinuation b := by
  have hlen : cut.length < (String.utf8EncodeChar c).length :=
    lt_of_le_of_ne hpre.length_le fun he => hproper (hpre.eq_of_length he)
  obtain ⟨lead, rest, rfl⟩ := List.exists_cons_of_ne_nil hne
  by_cases hascii : c.toNat ≤ 0x7F
  · simp [utf8EncodeChar_ascii hascii] at hlen
  · obtain ⟨lead', rest', henc, hseq, -, hcont⟩ := utf8EncodeChar_sequence (Nat.not_le.mp hascii)
    rw [henc, List.cons_prefix_cons] at hpre
    obtain ⟨rfl, hrest⟩ := hpre
    rw [henc, List.length_cons, List.length_cons] at hlen
    exact ⟨lead, rest, rfl, by omega, fun b hb => hcont b (hrest.subset hb)⟩

/-! ### Places between characters -/

instance (b : UInt8) : Decidable (IsContinuation b) := inferInstanceAs (Decidable (_ ∧ _))

/-- A place in the bytes of a text lies between two characters, or at an end. -/
def isCharBoundary (bytes : List UInt8) (i : ℕ) : Bool :=
  i = 0 || i = bytes.length || bytes[i]?.any fun b => !decide (IsContinuation b)

/-- The last place between characters up to a given one. -/
def boundaryBelow (bytes : List UInt8) : ℕ → ℕ
  | 0 => 0
  | i + 1 => if isCharBoundary bytes (i + 1) then i + 1 else boundaryBelow bytes i

theorem boundaryBelow_le (bytes : List UInt8) (i : ℕ) : boundaryBelow bytes i ≤ i := by
  induction i with
  | zero => exact Nat.le_refl 0
  | succ i ih =>
    rw [boundaryBelow]
    split
    · exact Nat.le_refl _
    · exact Nat.le_succ_of_le ih

/-- After its first byte a character has continuation bytes only. -/
theorem isContinuation_getElem? {i : ℕ} (h : (String.utf8EncodeChar c)[i + 1]? = some b) :
    IsContinuation b := by
  by_cases hascii : c.toNat ≤ 0x7F
  · rw [utf8EncodeChar_ascii hascii] at h
    cases h
  · obtain ⟨lead, rest, henc, -, -, hcont⟩ := utf8EncodeChar_sequence (Nat.not_le.mp hascii)
    rw [henc, List.getElem?_cons_succ] at h
    exact hcont b (List.mem_of_getElem? h)

theorem utf8Bytes_first (s : List Char) : ∀ byte ∈ (utf8Bytes s)[0]?, ¬ IsContinuation byte := by
  cases s with
  | nil => nofun
  | cons c s =>
    obtain ⟨first, rest, henc, hfirst⟩ := utf8EncodeChar_first c
    rw [utf8Bytes, List.flatMap_cons, henc]
    rintro byte hbyte
    cases hbyte
    exact hfirst

/-- What stands before a text does not move the places in it. -/
theorem isCharBoundary_append (bytes : List UInt8) (s : List Char) (i : ℕ) :
    isCharBoundary (bytes ++ utf8Bytes s) (bytes.length + i) = isCharBoundary (utf8Bytes s) i := by
  have hget : (bytes ++ utf8Bytes s)[bytes.length + i]? = (utf8Bytes s)[i]? := by
    rw [List.getElem?_append_right (Nat.le_add_right _ _), Nat.add_sub_cancel_left]
  have hend : decide (bytes.length + i = (bytes ++ utf8Bytes s).length) =
      decide (i = (utf8Bytes s).length) := by
    rw [List.length_append, decide_eq_decide]
    omega
  cases i with
  | succ i =>
    simp only [isCharBoundary, hget, hend]
    simp
  | zero =>
    simp only [isCharBoundary, hget, hend]
    cases hs : (utf8Bytes s)[0]? with
    | none =>
      have hnil : (utf8Bytes s).length = 0 := Nat.le_zero.mp (List.getElem?_eq_none_iff.mp hs)
      simp [hnil]
    | some byte =>
      have hfirst := utf8Bytes_first s byte hs
      simp [hfirst]

theorem boundaryBelow_append (bytes : List UInt8) (s : List Char) (i : ℕ) :
    boundaryBelow (bytes ++ utf8Bytes s) (bytes.length + i) =
      bytes.length + boundaryBelow (utf8Bytes s) i := by
  induction i with
  | zero =>
    have hat : isCharBoundary (bytes ++ utf8Bytes s) bytes.length = true :=
      isCharBoundary_append bytes s 0
    rw [Nat.add_zero, boundaryBelow, Nat.add_zero]
    generalize bytes ++ utf8Bytes s = text at hat
    generalize bytes.length = n at hat
    cases n with
    | zero => rfl
    | succ n => rw [boundaryBelow, if_pos hat]
  | succ i ih =>
    rw [← Nat.add_assoc, boundaryBelow, boundaryBelow, Nat.add_assoc, isCharBoundary_append, ih]
    split <;> rfl

/-- There is no place within a character. -/
theorem boundaryBelow_char {i : ℕ} (hi : i < (String.utf8EncodeChar c).length)
    (rest : List UInt8) : boundaryBelow (String.utf8EncodeChar c ++ rest) i = 0 := by
  induction i with
  | zero => rfl
  | succ i ih =>
    have hget : (String.utf8EncodeChar c ++ rest)[i + 1]? = (String.utf8EncodeChar c)[i + 1]? :=
      List.getElem?_append_left hi
    have hcont := isContinuation_getElem? (List.getElem?_eq_getElem hi)
    have hwithin : isCharBoundary (String.utf8EncodeChar c ++ rest) (i + 1) = false := by
      have hend : i + 1 ≠ (String.utf8EncodeChar c ++ rest).length := by
        rw [List.length_append]
        omega
      simp [isCharBoundary, hget, hcont, List.getElem?_eq_getElem hi] at hend ⊢
      omega
    rw [boundaryBelow, hwithin]
    exact ih (Nat.lt_of_succ_lt hi)

end Ferrokey.Framing
