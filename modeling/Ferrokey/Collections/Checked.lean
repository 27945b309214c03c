import Mathlib.Data.List.Basic
import Mathlib.Tactic.Common

/-! # Operations that may be refused

A computation that may be refused returns an option. `Returns` says that it is not
refused and what its result satisfies; its rules follow the way the computation is
put together. The operations on lists are those of a vector that checks its indices.
-/

namespace Ferrokey

universe u

variable {α β : Type u}

/-- The computation is not refused, and its result satisfies the condition. -/
def Returns (x : Option α) (P : α → Prop) : Prop := ∃ a, x = some a ∧ P a

/-- Repeat a step that may be refused. -/
def iterateM (f : α → Option α) : ℕ → α → Option α
  | 0, a => some a
  | n + 1, a => do iterateM f n (← f a)

/-- Every round of a loop meets a condition on the value it starts with. -/
def Along (f : β → α → Option β) (C : β → α → Prop) : β → List α → Prop
  | _, [] => True
  | b, a :: as => C b a ∧ ∀ b' ∈ f b a, Along f C b' as

theorem along_of_forall {f : β → α → Option β} {C : β → α → Prop} (h : ∀ b a, C b a) {b : β}
    {as : List α} : Along f C b as := by
  induction as generalizing b with
  | nil => trivial
  | cons a as ih => exact ⟨h b a, fun b' _ => ih⟩

namespace Returns

variable {x : Option α} {P Q : α → Prop} {R : β → Prop}

theorem pure {a : α} (h : P a) : Returns (some a) P := ⟨a, rfl, h⟩

theorem mono (h : Returns x P) (himp : ∀ a, P a → Q a) : Returns x Q := by
  obtain ⟨a, rfl, ha⟩ := h
  exact ⟨a, rfl, himp a ha⟩

theorem bind {f : α → Option β} (h : Returns x P) (hf : ∀ a, P a → Returns (f a) R) :
    Returns (x >>= f) R := by
  obtain ⟨a, rfl, ha⟩ := h
  exact hf a ha

theorem map {f : α → β} (h : Returns x P) (hf : ∀ a, P a → R (f a)) : Returns (x.map f) R := by
  obtain ⟨a, rfl, ha⟩ := h
  exact ⟨f a, rfl, hf a ha⟩

theorem isSome (h : Returns x P) : x.isSome = true := by
  obtain ⟨a, rfl, -⟩ := h
  rfl

theorem get (h : Returns x P) : P (x.get h.isSome) := by
  obtain ⟨a, rfl, ha⟩ := h
  exact ha

theorem of_eq {a : α} (h : x = some a) (ha : P a) : Returns x P := ⟨a, h, ha⟩

theorem and (hP : Returns x P) (hQ : Returns x Q) : Returns x fun a => P a ∧ Q a := by
  obtain ⟨a, rfl, ha⟩ := hP
  obtain ⟨b, hb, hqb⟩ := hQ
  cases hb
  exact ⟨a, rfl, ha, hqb⟩

theorem ite {c : Prop} [Decidable c] {y : Option α} (hx : c → Returns x P)
    (hy : ¬ c → Returns y P) : Returns (if c then x else y) P := by
  split
  next h => exact hx h
  next h => exact hy h

/-- A loop keeps what each of its rounds keeps. -/
theorem foldlM {f : β → α → Option β} (Inv : β → Prop) {as : List α}
    (hf : ∀ b, Inv b → ∀ a ∈ as, Returns (f b a) Inv) {b : β} (hb : Inv b) :
    Returns (as.foldlM f b) Inv := by
  induction as generalizing b with
  | nil => exact pure hb
  | cons a as ih =>
    rw [List.foldlM_cons]
    apply bind (hf b hb a List.mem_cons_self)
    intro b' hb'
    exact ih (fun b'' h'' a' ha' => hf b'' h'' a' (List.mem_cons_of_mem a ha')) hb'

/-- A loop keeps what each of its rounds keeps that meets a condition, if all of them do. -/
theorem foldlM_along {f : β → α → Option β} {C : β → α → Prop} (Inv : β → Prop)
    (hf : ∀ b a, Inv b → C b a → Returns (f b a) Inv) {as : List α} {b : β} (hb : Inv b)
    (hC : Along f C b as) : Returns (as.foldlM f b) Inv := by
  induction as generalizing b with
  | nil => exact pure hb
  | cons a as ih =>
    obtain ⟨ha, hrest⟩ := hC
    obtain ⟨b', hb', hinv⟩ := hf b a hb ha
    rw [List.foldlM_cons, hb']
    exact ih hinv (hrest b' hb')

/-- A loop whose rounds keep one condition until a certain round leads to another one. -/
theorem foldlM_until {f : β → α → Option β} {p : α → Bool} {P Q : β → Prop} {as : List α}
    (hP : ∀ b, P b → ∀ a ∈ as, p a = false → Returns (f b a) P)
    (hPQ : ∀ b, P b → ∀ a ∈ as, p a = true → Returns (f b a) Q)
    (hQ : ∀ b, Q b → ∀ a ∈ as, Returns (f b a) Q) {b : β} (hb : P b) :
    Returns (as.foldlM f b) fun b' => if as.any p then Q b' else P b' := by
  induction as generalizing b with
  | nil => exact pure hb
  | cons a as ih =>
    have htail {b : β} (h : P b) := ih
      (fun b' h' a' ha' => hP b' h' a' (List.mem_cons_of_mem a ha'))
      (fun b' h' a' ha' => hPQ b' h' a' (List.mem_cons_of_mem a ha'))
      (fun b' h' a' ha' => hQ b' h' a' (List.mem_cons_of_mem a ha')) h
    rw [List.foldlM_cons]
    cases ha : p a with
    | false =>
      simpa [ha] using (hP b hb a List.mem_cons_self ha).bind fun b' hb' => htail hb'
    | true =>
      apply (hPQ b hb a List.mem_cons_self ha).bind
      intro b' hb'
      simpa [ha] using
        foldlM Q (fun b'' h'' a' ha' => hQ b'' h'' a' (List.mem_cons_of_mem a ha')) hb'

/-- Repeating a step keeps what the step keeps. -/
theorem iterate {f : α → Option α} (hf : ∀ a, P a → Returns (f a) P) (n : ℕ) {a : α} (ha : P a) :
    Returns (iterateM f n a) P := by
  induction n generalizing a with
  | zero => exact pure ha
  | succ n ih => exact bind (hf a ha) fun a' ha' => ih ha'

theorem mapM {f : α → Option β} {as : List α} (hf : ∀ a ∈ as, Returns (f a) R) :
    Returns (as.mapM f) fun bs => bs.length = as.length ∧ ∀ b ∈ bs, R b := by
  induction as with
  | nil => exact pure ⟨rfl, by simp⟩
  | cons a as ih =>
    rw [List.mapM_cons]
    apply bind (hf a List.mem_cons_self)
    intro b hb
    apply bind (ih fun a' ha' => hf a' (List.mem_cons_of_mem a ha'))
    rintro bs ⟨hlen, hbs⟩
    exact pure ⟨by simp [hlen], by simpa using ⟨hb, hbs⟩⟩

end Returns

/-- What every round of a loop keeps holds of the result of a loop that goes through. -/
theorem foldlM_invariant {f : β → α → Option β} (P : β → Prop)
    (hf : ∀ b a b', P b → f b a = some b' → P b') {as : List α} {b b' : β} (hb : P b)
    (h : as.foldlM f b = some b') : P b' := by
  induction as generalizing b with
  | nil =>
    cases h
    exact hb
  | cons a as ih =>
    rw [List.foldlM_cons, Option.bind_eq_bind, Option.bind_eq_some_iff] at h
    obtain ⟨b₁, ha, hrest⟩ := h
    exact ih (hf b a b₁ hb ha) hrest

/-- What a map over a list makes of each of its elements. -/
theorem getElem?_mapM {f : α → Option β} {as : List α} {bs : List β} (h : as.mapM f = some bs)
    (i : ℕ) : bs[i]? = as[i]?.bind f := by
  induction as generalizing bs i with
  | nil =>
    cases h
    rfl
  | cons a as ih =>
    simp only [List.mapM_cons, Option.bind_eq_bind, Option.bind_eq_some_iff, Option.pure_def,
      Option.some.injEq] at h
    obtain ⟨b, hb, bs', hbs', rfl⟩ := h
    cases i with
    | zero => simp [hb]
    | succ i => simpa using ih hbs' i

namespace Checked

def sub (a b : ℕ) : Option ℕ := if b ≤ a then some (a - b) else none

variable (xs : List α) (i : ℕ) (a : α)

def set : Option (List α) := if i < xs.length then some (xs.set i a) else none

/-- Insert before a position, at most the end. -/
def insert : Option (List α) := if i ≤ xs.length then some (xs.insertIdx i a) else none

/-- Take out the entry at a position. -/
def remove : Option (α × List α) := xs[i]?.map fun a => (a, xs.eraseIdx i)

/-- Insert several entries before a position. -/
def splice (as : List α) : Option (List α) :=
  if i ≤ xs.length then some (xs.take i ++ as ++ xs.drop i) else none

/-- Take out a range of entries. -/
def drain (j : ℕ) : Option (List α) :=
  if i ≤ j ∧ j ≤ xs.length then some (xs.take i ++ xs.drop j) else none

variable {xs i a}

theorem sub_eq {a b : ℕ} (h : b ≤ a) : sub a b = some (a - b) := if_pos h

theorem set_eq (h : i < xs.length) : set xs i a = some (xs.set i a) := if_pos h

theorem insert_eq (h : i ≤ xs.length) : insert xs i a = some (xs.insertIdx i a) := if_pos h

theorem remove_eq (h : i < xs.length) : remove xs i = some (xs[i], xs.eraseIdx i) := by
  simp [remove, List.getElem?_eq_getElem h]

theorem splice_eq {as : List α} (h : i ≤ xs.length) :
    splice xs i as = some (xs.take i ++ as ++ xs.drop i) := if_pos h

theorem drain_eq {j : ℕ} (hij : i ≤ j) (hj : j ≤ xs.length) :
    drain xs i j = some (xs.take i ++ xs.drop j) := if_pos ⟨hij, hj⟩

end Checked

end Ferrokey
