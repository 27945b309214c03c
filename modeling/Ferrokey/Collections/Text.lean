import Mathlib.Data.List.Basic
import Mathlib.Data.List.DropRight
import Mathlib.Tactic.Common

/-! # Pieces of a text

Texts as lists of characters: their lines and words, a text without the white space
around it, and what stands behind the last separator.
-/

namespace Ferrokey.Text

/-- The characters of the Unicode property `White_Space`. -/
def isWhitespace (c : Char) : Bool :=
  (0x09 ≤ c.toNat && c.toNat ≤ 0x0D) || c.toNat = 0x20 || c.toNat = 0x85 || c.toNat = 0xA0 ||
    c.toNat = 0x1680 || (0x2000 ≤ c.toNat && c.toNat ≤ 0x200A) || c.toNat = 0x2028 ||
    c.toNat = 0x2029 || c.toNat = 0x202F || c.toNat = 0x205F || c.toNat = 0x3000

def trim (s : List Char) : List Char := (s.dropWhile isWhitespace).rdropWhile isWhitespace

def trimEnd (s : List Char) : List Char := s.rdropWhile isWhitespace

/-- What stands behind the last occurrence of a separator, or everything. -/
def afterLast (sep : Char) (s : List Char) : List Char := s.rtakeWhile (· ≠ sep)

/-- The lines of a text: what newlines end, and what follows the last of them. -/
def newlineSplit (s : List Char) : List (List Char) × List Char :=
  ((s.splitOn '\n').dropLast, (s.splitOn '\n').getLastD [])

def stripCr (line : List Char) : List Char :=
  if line.getLast? = some '\r' then line.dropLast else line

/-- The lines of a text without their endings. A carriage return goes only with a newline. -/
def lines (s : List Char) : List (List Char) :=
  (newlineSplit s).1.map stripCr ++ [(newlineSplit s).2].filter (· ≠ [])

/-- The lines of a text as the newlines cut it. -/
def rawLines (s : List Char) : List (List Char) :=
  (newlineSplit s).1 ++ [(newlineSplit s).2].filter (· ≠ [])

def splitWhitespace (s : List Char) : List (List Char) :=
  (s.splitOnP isWhitespace).filter (· ≠ [])

section

variable {sep : Char} {s pre name ws : List Char}

theorem afterLast_of_not_mem (h : sep ∉ s) : afterLast sep s = s := by
  rw [afterLast, List.rtakeWhile_eq_self_iff]
  rintro c hc
  have hne : c ≠ sep := fun he => h (he ▸ hc)
  simpa using hne

/-- A text without the separator goes with what is found before it. -/
theorem afterLast_append (s : List Char) (h : sep ∉ name) :
    afterLast sep (s ++ name) = afterLast sep s ++ name := by
  induction name using List.reverseRecOn with
  | nil => rw [List.append_nil, List.append_nil]
  | append_singleton name c ih =>
    rw [List.mem_append, not_or] at h
    have hc : c ≠ sep := fun he => h.2 (he ▸ List.mem_singleton_self c)
    rw [← List.append_assoc, afterLast, List.rtakeWhile_concat_pos (h := by simpa using hc),
      ← List.append_assoc]
    exact congrArg (· ++ [c]) (ih h.1)

theorem afterLast_append_cons (h : sep ∉ name) : afterLast sep (pre ++ sep :: name) = name := by
  rw [← List.singleton_append, ← List.append_assoc, afterLast_append _ h, afterLast,
    List.rtakeWhile_concat_neg (h := by simp), List.nil_append]

/-- A text is what stands behind its last separator, or has the separator before that. -/
theorem afterLast_cases (sep : Char) (s : List Char) :
    sep ∉ afterLast sep s ∧ (afterLast sep s = s ∨ ∃ pre, s = pre ++ sep :: afterLast sep s) := by
  have hs : s.rdropWhile (· ≠ sep) ++ afterLast sep s = s := List.rdropWhile_append_rtakeWhile
  constructor
  · intro h
    simpa using List.mem_rtakeWhile_imp h
  · by_cases hd : s.rdropWhile (· ≠ sep) = []
    · rw [hd, List.nil_append] at hs
      exact Or.inl hs
    · have hl : (s.rdropWhile (· ≠ sep)).getLast hd = sep := by
        simpa using List.rdropWhile_last_not (· ≠ sep) s hd
      refine Or.inr ⟨(s.rdropWhile (· ≠ sep)).dropLast, ?_⟩
      have he := List.dropLast_append_getLast hd
      rw [hl] at he
      rw [← List.singleton_append, ← List.append_assoc, he, hs]

/-- What stands before a separator does not matter. -/
theorem afterLast_append_sep (pre s : List Char) :
    afterLast sep (pre ++ sep :: s) = afterLast sep (sep :: s) := by
  obtain ⟨hn, he | ⟨post, he⟩⟩ := afterLast_cases sep (sep :: s)
  · rw [he] at hn
    exact absurd List.mem_cons_self hn
  · generalize afterLast sep (sep :: s) = a at hn he
    rw [he, ← List.append_assoc, afterLast_append_cons hn]

theorem dropWhile_append_cons {α : Type*} {p : α → Bool} (xs : List α) {a : α} (h : p a = false)
    (ys : List α) : (xs ++ a :: ys).dropWhile p = xs.dropWhile p ++ a :: ys := by
  induction xs with
  | nil => simp [h]
  | cons x xs ih =>
    cases hx : p x with
    | true => simpa [hx] using ih
    | false => simp [hx]

theorem trim_append_one (s : List Char) {c : Char} (h : isWhitespace c = true) :
    trim (s ++ [c]) = trim s := by
  rw [trim, trim, List.dropWhile_append]
  split
  · next he =>
    rw [List.isEmpty_iff.mp he]
    simp [h]
  · exact List.rdropWhile_concat_pos _ _ _ h

theorem trim_append_white (s : List Char) (h : ∀ c ∈ ws, isWhitespace c = true) :
    trim (s ++ ws) = trim s := by
  induction ws using List.reverseRecOn with
  | nil => rw [List.append_nil]
  | append_singleton ws c ih =>
    rw [← List.append_assoc, trim_append_one _ (h c (by simp))]
    exact ih fun c' hc' => h c' (List.mem_append_left _ hc')

theorem trimEnd_append_white (s : List Char) (h : ∀ c ∈ ws, isWhitespace c = true) :
    trimEnd (s ++ ws) = trimEnd s := by
  induction ws using List.reverseRecOn with
  | nil => rw [List.append_nil]
  | append_singleton ws c ih =>
    rw [← List.append_assoc, trimEnd, List.rdropWhile_concat_pos _ _ _ (h c (by simp))]
    exact ih fun c' hc' => h c' (List.mem_append_left _ hc')

/-- White space goes up to the last character that is none. -/
theorem trimEnd_append_of_exists (pre : List Char) (h : ∃ c ∈ s, isWhitespace c = false) :
    trimEnd (pre ++ s) = pre ++ trimEnd s := by
  induction s using List.reverseRecOn with
  | nil =>
    obtain ⟨c, hc, -⟩ := h
    cases hc
  | append_singleton s c ih =>
    rw [← List.append_assoc]
    cases hc : isWhitespace c with
    | true =>
      obtain ⟨c', hmem, hc'⟩ := h
      have hs : c' ∈ s := by
        rcases List.mem_append.mp hmem with hmem | hmem
        · exact hmem
        · rw [List.mem_singleton.mp hmem, hc] at hc'
          cases hc'
      rw [trimEnd, trimEnd, List.rdropWhile_concat_pos _ _ _ hc,
        List.rdropWhile_concat_pos _ _ _ hc]
      exact ih ⟨c', hs, hc'⟩
    | false =>
      rw [trimEnd, trimEnd, List.rdropWhile_concat_neg _ _ _ (by simp [hc]),
        List.rdropWhile_concat_neg _ _ _ (by simp [hc]), List.append_assoc]

theorem trim_stripCr (line : List Char) : trim (stripCr line) = trim line := by
  unfold stripCr
  split
  · next h =>
    obtain ⟨s, rfl⟩ := List.getLast?_eq_some_iff.mp h
    rw [List.dropLast_concat, trim_append_one s (by decide)]
  · rfl

/-- White space is all that is taken off around a text. -/
theorem exists_append_trim (s : List Char) : ∃ lead ws, s = lead ++ (trim s ++ ws) ∧
    (∀ c ∈ lead, isWhitespace c = true) ∧ ∀ c ∈ ws, isWhitespace c = true := by
  refine ⟨s.takeWhile isWhitespace, (s.dropWhile isWhitespace).rtakeWhile isWhitespace, ?_, ?_, ?_⟩
  · rw [trim, List.rdropWhile_append_rtakeWhile, List.takeWhile_append_dropWhile]
  · exact fun c hc => List.mem_takeWhile_imp hc
  · exact fun c hc => List.mem_rtakeWhile_imp hc

/-- Nothing is taken off a text that ends in a name, from the separator before it on. -/
theorem trim_append_cons (hs : isWhitespace sep = false) (hn : name ≠ [])
    (hl : isWhitespace (name.getLast hn) = false) :
    trim (pre ++ sep :: name) = pre.dropWhile isWhitespace ++ sep :: name := by
  rw [trim, dropWhile_append_cons pre hs, List.rdropWhile_eq_self_iff]
  intro h
  rw [List.getLast_append_of_ne_nil _ (List.cons_ne_nil _ _), List.getLast_cons hn]
  simpa using hl

theorem splitWhitespace_white (h : ∀ c ∈ ws, isWhitespace c = true) : splitWhitespace ws = [] := by
  induction ws with
  | nil => rfl
  | cons c ws ih =>
    obtain ⟨hc, hws⟩ := List.forall_mem_cons.mp h
    have hs : (c :: ws).splitOnP isWhitespace = [] :: ws.splitOnP isWhitespace :=
      List.splitOnP_append_cons [] ws hc
    rw [splitWhitespace, hs]
    exact ih hws

theorem splitWhitespace_word (hn : name ≠ []) (h : ∀ c ∈ name, isWhitespace c = false) :
    splitWhitespace name = [name] := by
  simp [splitWhitespace, List.splitOnP_eq_singleton h, hn]

theorem splitWhitespace_append (hn : name ≠ []) (h : ∀ c ∈ name, isWhitespace c = false)
    (hs : isWhitespace sep = true) (s : List Char) :
    splitWhitespace (name ++ sep :: s) = name :: splitWhitespace s := by
  simp [splitWhitespace, List.splitOnP_append_cons_of_forall_mem h sep hs, hn]

/-- Words printed with blanks between them are read back, also before more white space. -/
theorem splitWhitespace_intercalate {words : List (List Char)}
    (h : ∀ w ∈ words, w ≠ [] ∧ ∀ c ∈ w, isWhitespace c = false)
    (hws : ∀ c ∈ ws, isWhitespace c = true) :
    splitWhitespace ([' '].intercalate words ++ ws) = words := by
  induction words with
  | nil => exact splitWhitespace_white hws
  | cons w words ih =>
    obtain ⟨⟨hn, hw⟩, hwords⟩ := List.forall_mem_cons.mp h
    cases words with
    | nil =>
      rw [List.intercalate_singleton]
      cases ws with
      | nil => rw [List.append_nil, splitWhitespace_word hn hw]
      | cons c ws =>
        obtain ⟨hc, hws⟩ := List.forall_mem_cons.mp hws
        rw [splitWhitespace_append hn hw hc, splitWhitespace_white hws]
    | cons w' words =>
      rw [List.intercalate_cons_cons, List.append_assoc, List.append_assoc, List.singleton_append,
        splitWhitespace_append hn hw (by decide), ih hwords]

theorem map_trim_lines (s : List Char) : (lines s).map trim = (rawLines s).map trim := by
  simp [lines, rawLines, Function.comp_def, trim_stripCr]

end

end Ferrokey.Text
