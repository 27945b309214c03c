import Ferrokey.Collections.Fallible

/-! # Command lines

Options in a list of words: a name takes the word behind it as its value unless it is a flag.
What is printed as a list of names and values has the effect of setting them in order.
-/

namespace Ferrokey.CommandLine

variable {σ : Type} {ε : Type*} {flag : σ → String → Option σ}
  {set : σ → String → Option String → Except ε σ}

/-- A value that an option needs. -/
def required (value : Option String) (e : ε) : Except ε String :=
  match value with
  | some v => .ok v
  | none => .error e

/-- The loop over the options; `flag` is what a name without a value does. -/
def options (flag : σ → String → Option σ) (set : σ → String → Option String → Except ε σ) :
    σ → List String → Except ε σ
  | p, [] => .ok p
  | p, [name] =>
    match flag p name with
    | some p' => .ok p'
    | none => set p name none
  | p, name :: value :: rest =>
    match flag p name with
    | some p' => options flag set p' (value :: rest)
    | none => set p name (some value) >>= fun p' => options flag set p' rest

/-- Names and values as words. -/
def words (pairs : List (String × String)) : List String := pairs.flatMap fun p => [p.1, p.2]

theorem options_words {pairs : List (String × String)} (h : ∀ s, ∀ p ∈ pairs, flag s p.1 = none)
    (s : σ) : options flag set s (words pairs) =
      pairs.foldlM (fun s p => set s p.1 (some p.2)) s := by
  induction pairs generalizing s with
  | nil => rfl
  | cons p pairs ih =>
    rw [words, List.flatMap_cons, List.cons_append, List.cons_append, List.nil_append, options,
      h s p List.mem_cons_self, List.foldlM_cons]
    exact congrArg _ (funext fun s' => ih (fun s q hq => h s q (List.mem_cons_of_mem _ hq)) s')

end Ferrokey.CommandLine
