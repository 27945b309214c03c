import Ferrokey.Collections.Text
import Ferrokey.Uinput.Device
import Mathlib.Data.Finset.Lattice.Fold
import Mathlib.Data.Finset.Sort
import Mathlib.Data.Nat.Bitwise
import Mathlib.Order.Lattice.Nat

/-! # Capability bitmaps

The kernel prints a bitmap as 64-bit words in hexadecimal, the highest word that is not
zero first and without padding. The daemon reads the words from the last one on and
collects their bits.
-/

namespace Ferrokey.Uinput

open Text

def hexDigit (c : Char) : Option ℕ :=
  if '0' ≤ c ∧ c ≤ '9' then some (c.toNat - '0'.toNat)
  else if 'a' ≤ c ∧ c ≤ 'f' then some (c.toNat - 'a'.toNat + 10)
  else if 'A' ≤ c ∧ c ≤ 'F' then some (c.toNat - 'A'.toNat + 10)
  else none

/-- One more digit of a number below a limit. -/
def hexStep (limit acc : ℕ) (c : Char) : Option ℕ := do
  let digit ← hexDigit c
  if acc * 16 + digit < limit then some (acc * 16 + digit) else none

/-- An unsigned number in hexadecimal, with an optional sign before its digits. -/
def fromStrRadix16 (limit : ℕ) (s : List Char) : Option ℕ :=
  if s.isEmpty then none
  else
    let digits := if s.head? = some '+' ∧ 1 < s.length then s.tail else s
    digits.foldlM (hexStep limit) 0

/-- The codes of the bits of one word; a word that is not a number counts as zero. -/
def wordBits (wordIdx : ℕ) (word : List Char) : List UInt16 :=
  let value := (fromStrRadix16 (2 ^ 64) word).getD 0
  ((List.range 64).filter value.testBit).map fun bit => UInt16.ofNat (wordIdx * 64 + bit)

def readCapBitmap (text : List Char) : List UInt16 :=
  let words := (splitWhitespace text).reverse
  (words.zipIdx.flatMap fun w => wordBits w.2 w.1).mergeSort

section Kernel

variable (codes : Finset UInt16)

/-- A word of the bitmap of a set of codes. -/
def bitmapWord (i : ℕ) : ℕ :=
  Nat.ofBits fun bit : Fin 64 => decide (∃ c ∈ codes, c.toNat = i * 64 + bit)

/-- The words up to the highest one that is not zero, and at least one. -/
def bitmapLen : ℕ := codes.sup (fun c => c.toNat / 64) + 1

/-- The kernel's text of a bitmap, without the newline at its end. -/
def sysfsBitmap : List Char :=
  [' '].intercalate
    (((List.range (bitmapLen codes)).map fun i => Nat.toDigits 16 (bitmapWord codes i)).reverse)

end Kernel

section Digits

theorem hexDigit_digitChar {d : ℕ} (h : d < 16) : hexDigit d.digitChar = some d := by
  have hall : ∀ d : Fin 16, hexDigit d.val.digitChar = some d.val := by decide
  exact hall ⟨d, h⟩

theorem exists_of_mem_toDigits {n : ℕ} {c : Char} (h : c ∈ Nat.toDigits 16 n) :
    ∃ d < 16, c = d.digitChar := by
  induction n using Nat.strong_induction_on with
  | _ n ih =>
    by_cases hn : n < 16
    · rw [Nat.toDigits_of_lt_base hn, List.mem_singleton] at h
      exact ⟨n, hn, h⟩
    · rw [Nat.toDigits_of_base_le (by decide) (Nat.le_of_not_lt hn), List.mem_append,
        List.mem_singleton] at h
      rcases h with h | h
      · exact ih _ (by omega) h
      · exact ⟨n % 16, Nat.mod_lt _ (by decide), h⟩

theorem foldlM_toDigits {limit n : ℕ} (h : n < limit) :
    (Nat.toDigits 16 n).foldlM (hexStep limit) 0 = some n := by
  induction n using Nat.strong_induction_on with
  | _ n ih =>
    by_cases hn : n < 16
    · rw [Nat.toDigits_of_lt_base hn]
      simp [hexStep, hexDigit_digitChar hn, h]
    · have hdiv : n / 16 * 16 + n % 16 = n := Nat.div_add_mod' n 16
      rw [Nat.toDigits_of_base_le (by decide) (Nat.le_of_not_lt hn), List.foldlM_append,
        ih _ (by omega) (by omega)]
      simp [hexStep, hexDigit_digitChar (Nat.mod_lt n (by decide : 0 < 16)), hdiv, h]

theorem digitChar_plain {d : ℕ} (h : d < 16) :
    d.digitChar ≠ '+' ∧ isWhitespace d.digitChar = false := by
  have hall : ∀ d : Fin 16, d.val.digitChar ≠ '+' ∧ isWhitespace d.val.digitChar = false := by
    decide
  exact hall ⟨d, h⟩

/-- A number printed in hexadecimal is read back. -/
theorem fromStrRadix16_toDigits {limit n : ℕ} (h : n < limit) :
    fromStrRadix16 limit (Nat.toDigits 16 n) = some n := by
  have hne : (Nat.toDigits 16 n).isEmpty = false := by simp
  have hhead : (Nat.toDigits 16 n).head? ≠ some '+' := by
    intro hh
    obtain ⟨d, hd, hc⟩ := exists_of_mem_toDigits (List.mem_of_mem_head? hh)
    exact (digitChar_plain hd).1 hc.symm
  rw [fromStrRadix16, hne]
  simp only [Bool.false_eq_true, if_false, hhead, false_and]
  exact foldlM_toDigits h

end Digits

section Reading

variable (codes : Finset UInt16)

theorem testBit_bitmapWord (i : ℕ) {bit : ℕ} (h : bit < 64) :
    (bitmapWord codes i).testBit bit = true ↔ ∃ c ∈ codes, c.toNat = i * 64 + bit := by
  rw [bitmapWord, Nat.testBit_ofBits_lt _ _ h, decide_eq_true_iff]

theorem wordBits_eq (i : ℕ) : wordBits i (Nat.toDigits 16 (bitmapWord codes i)) =
    ((List.range 64).filter (bitmapWord codes i).testBit).map
      fun bit => UInt16.ofNat (i * 64 + bit) := by
  have h : bitmapWord codes i < 2 ^ 64 := Nat.ofBits_lt_two_pow _
  rw [wordBits, fromStrRadix16_toDigits h, Option.getD_some]

/-- The codes that the bits of a printed word stand for. -/
theorem mem_wordBits {i : ℕ} {code : UInt16} :
    code ∈ wordBits i (Nat.toDigits 16 (bitmapWord codes i)) ↔
      code ∈ codes ∧ code.toNat / 64 = i := by
  rw [wordBits_eq, List.mem_map]
  constructor
  · rintro ⟨bit, hb, rfl⟩
    obtain ⟨hlt, hset⟩ := List.mem_filter.mp hb
    have hlt := List.mem_range.mp hlt
    obtain ⟨c, hc, he⟩ := (testBit_bitmapWord codes i hlt).mp hset
    rw [← he, UInt16.ofNat_toNat]
    exact ⟨hc, by omega⟩
  · rintro ⟨hc, rfl⟩
    have hlt : code.toNat % 64 < 64 := Nat.mod_lt _ (by decide)
    have he : code.toNat / 64 * 64 + code.toNat % 64 = code.toNat := Nat.div_add_mod' _ _
    refine ⟨code.toNat % 64, List.mem_filter.mpr ⟨List.mem_range.mpr hlt, ?_⟩, ?_⟩
    · exact (testBit_bitmapWord codes _ hlt).mpr ⟨code, hc, he.symm⟩
    · rw [he, UInt16.ofNat_toNat]

theorem pairwise_wordBits (i : ℕ) :
    (wordBits i (Nat.toDigits 16 (bitmapWord codes i))).Pairwise (· < ·) := by
  rw [wordBits_eq, List.pairwise_map]
  refine (List.pairwise_lt_range.filter _).imp_of_mem ?_
  intro a b ha hb hab
  obtain ⟨hla, hsa⟩ := List.mem_filter.mp ha
  obtain ⟨hlb, hsb⟩ := List.mem_filter.mp hb
  obtain ⟨c, -, hc⟩ := (testBit_bitmapWord codes i (List.mem_range.mp hla)).mp hsa
  obtain ⟨c', -, hc'⟩ := (testBit_bitmapWord codes i (List.mem_range.mp hlb)).mp hsb
  rw [← hc, ← hc', UInt16.ofNat_toNat, UInt16.ofNat_toNat, UInt16.lt_iff_toNat_lt]
  omega

/-- The codes of all printed words, in the order in which they are collected. -/
def bitmapBits : List UInt16 :=
  (List.range (bitmapLen codes)).flatMap fun i =>
    wordBits i (Nat.toDigits 16 (bitmapWord codes i))

theorem mem_bitmapBits {code : UInt16} : code ∈ bitmapBits codes ↔ code ∈ codes := by
  simp only [bitmapBits, List.mem_flatMap, List.mem_range, mem_wordBits]
  constructor
  · rintro ⟨i, -, hc, -⟩
    exact hc
  · intro hc
    exact ⟨_, Nat.lt_succ_of_le (Finset.le_sup (f := fun c => c.toNat / 64) hc), hc, rfl⟩

theorem pairwise_bitmapBits : (bitmapBits codes).Pairwise (· < ·) := by
  rw [bitmapBits, List.pairwise_flatMap]
  constructor
  · exact fun i _ => pairwise_wordBits codes i
  · refine List.pairwise_lt_range.imp ?_
    intro i j hij a ha b hb
    obtain ⟨-, rfl⟩ := (mem_wordBits codes).mp ha
    obtain ⟨-, rfl⟩ := (mem_wordBits codes).mp hb
    rw [UInt16.lt_iff_toNat_lt]
    omega

theorem bitmapBits_eq_sort : bitmapBits codes = codes.sort := by
  apply List.SortedLT.eq_of_mem_iff
  · exact (pairwise_bitmapBits codes).sortedLT
  · exact codes.sortedLT_sort
  · intro code
    rw [mem_bitmapBits, Finset.mem_sort]

theorem zipIdx_map_range {α : Type*} (f : ℕ → α) (n : ℕ) :
    ((List.range n).map f).zipIdx = (List.range n).map fun i => (f i, i) := by
  apply List.ext_getElem
  · simp
  · intro i h₁ h₂
    simp

/-- The kernel's text of a set of codes, with or without white space behind it, is read as
the codes in ascending order. -/
theorem readCapBitmap_sysfsBitmap {ws : List Char} (hws : ∀ c ∈ ws, isWhitespace c = true) :
    readCapBitmap (sysfsBitmap codes ++ ws) = codes.sort := by
  have hwords : ∀ w ∈ ((List.range (bitmapLen codes)).map fun i =>
      Nat.toDigits 16 (bitmapWord codes i)).reverse, w ≠ [] ∧ ∀ c ∈ w, isWhitespace c = false := by
    intro w hw
    obtain ⟨i, -, rfl⟩ := List.mem_map.mp (List.mem_reverse.mp hw)
    refine ⟨Nat.toDigits_ne_nil, fun c hc => ?_⟩
    obtain ⟨d, hd, rfl⟩ := exists_of_mem_toDigits hc
    exact (digitChar_plain hd).2
  rw [readCapBitmap, sysfsBitmap, splitWhitespace_intercalate hwords hws, List.reverse_reverse,
    zipIdx_map_range, List.flatMap_map]
  have hsort : (bitmapBits codes).Pairwise (fun a b => decide (a ≤ b) = true) :=
    (pairwise_bitmapBits codes).imp fun h => decide_eq_true h.le
  exact (List.mergeSort_of_pairwise hsort).trans (bitmapBits_eq_sort codes)

end Reading

end Ferrokey.Uinput
