import Mathlib.Data.List.Basic
import Mathlib.Data.List.Monad
import Mathlib.Tactic.Common

/-! # Monitors of logs

A monitor reads the entries of a log one by one, and may refuse an entry in the phase that it
has come to. What is related to a phase before every step of a program, and leaves a log that
the monitor admits, is so before and after every run.
-/

namespace Ferrokey.Machine

variable {φ ε σ ι : Type*} {next : φ → ε → Option φ} {p q r : φ} {log log' : List ε}

/-- The monitor admits a log, which takes it from one phase to another. -/
def Admits (next : φ → ε → Option φ) (p : φ) (log : List ε) (q : φ) : Prop :=
  log.foldlM next p = some q

theorem Admits.nil (p : φ) : Admits next p [] p := rfl

theorem admits_cons_iff {e : ε} :
    Admits next p (e :: log) r ↔ ∃ q, next p e = some q ∧ Admits next q log r := by
  rw [Admits, List.foldlM_cons]
  exact Option.bind_eq_some_iff

theorem admits_append_iff :
    Admits next p (log ++ log') r ↔ ∃ q, Admits next p log q ∧ Admits next q log' r := by
  rw [Admits, List.foldlM_append]
  exact Option.bind_eq_some_iff

theorem Admits.cons {e : ε} (he : next p e = some q) (h : Admits next q log r) :
    Admits next p (e :: log) r :=
  admits_cons_iff.mpr ⟨q, he, h⟩

theorem Admits.append (h : Admits next p log q) (h' : Admits next q log' r) :
    Admits next p (log ++ log') r :=
  admits_append_iff.mpr ⟨q, h, h'⟩

/-- What a phase knows of the entries before it, if each entry changes it in one way only. -/
theorem Admits.foldl {β : Type*} {f : φ → β} {g : β → ε → β}
    (hstep : ∀ p e q, next p e = some q → f q = g (f p) e) (h : Admits next p log q) :
    f q = log.foldl g (f p) := by
  induction log generalizing p with
  | nil =>
    obtain rfl := Option.some.inj h
    rfl
  | cons e log ih =>
    obtain ⟨p', he, hrest⟩ := admits_cons_iff.mp h
    rw [List.foldl_cons, ← hstep p e p' he]
    exact ih hrest

/-- The entries of one party in the log of all of them. -/
def entriesOf {κ : Type*} [DecidableEq κ] (c : κ) (log : List (κ × ε)) : List ε :=
  log.filterMap fun e => if e.1 = c then some e.2 else none

section Parties

variable {κ : Type*} [DecidableEq κ] {c c' : κ}

@[simp] theorem entriesOf_nil : entriesOf c ([] : List (κ × ε)) = [] := rfl

@[simp] theorem entriesOf_append (log log' : List (κ × ε)) :
    entriesOf c (log ++ log') = entriesOf c log ++ entriesOf c log' := List.filterMap_append

theorem entriesOf_self (entries : List ε) : entriesOf c (entries.map (c, ·)) = entries := by
  simp [entriesOf, List.filterMap_map]

theorem entriesOf_other (h : c' ≠ c) (entries : List ε) : entriesOf c (entries.map (c', ·)) = [] := by
  simp [entriesOf, List.filterMap_map, h]

/-- When each party of a list without duplicates makes its own entries, one after the other, each
has those that it made. -/
theorem entriesOf_flatMap_zipIdx {cs : List κ} (hn : cs.Nodup) (entries : ℕ → List ε) (k : ℕ) :
    entriesOf c ((cs.zipIdx k).flatMap fun p => (entries p.2).map (p.1, ·)) =
      if c ∈ cs then entries (k + cs.idxOf c) else [] := by
  induction cs generalizing k with
  | nil => rfl
  | cons c' cs ih =>
    obtain ⟨hnew, hn⟩ := List.nodup_cons.mp hn
    rw [List.zipIdx_cons, List.flatMap_cons, entriesOf_append, ih hn]
    by_cases hc : c' = c
    · subst hc
      simp [entriesOf_self, hnew]
    · have hcons : c ∈ c' :: cs ↔ c ∈ cs := by simp [Ne.symm hc]
      rw [entriesOf_other hc, List.nil_append, List.idxOf_cons_ne cs hc]
      simp only [hcons]
      congr 2
      omega

end Parties

/-- Inputs, one after the other, and the log of all of them. -/
def logged (step : σ → ι → Option (σ × List ε)) : List ι → σ → Option (σ × List ε)
  | [], s => some (s, [])
  | i :: is, s => do
    let (s, log) ← step s i
    let (s, later) ← logged step is s
    some (s, log ++ later)

variable {step : σ → ι → Option (σ × List ε)}

/-- A step after which the monitor has come to a phase that is related to the state again. -/
theorem admits_of_logged (R : φ → σ → Prop)
    (hstep : ∀ p s i out, R p s → step s i = some out → ∃ q, Admits next p out.2 q ∧ R q out.1)
    {is : List ι} {s : σ} {out : σ × List ε} (h : R p s) (hrun : logged step is s = some out) :
    ∃ q, Admits next p out.2 q ∧ R q out.1 := by
  induction is generalizing p s out with
  | nil =>
    obtain rfl := Option.some.inj hrun
    exact ⟨p, .nil p, h⟩
  | cons i is ih =>
    obtain ⟨⟨s₁, log⟩, hone, hrun⟩ := Option.bind_eq_some_iff.mp hrun
    obtain ⟨⟨s₂, later⟩, hrest, hrun⟩ := Option.bind_eq_some_iff.mp hrun
    cases hrun
    obtain ⟨q, hq, hrel⟩ := hstep p s i _ h hone
    obtain ⟨r, hr, hend⟩ := ih hrel hrest
    exact ⟨r, hq.append hr, hend⟩

/-- What the inputs do to a part of the state, when each does it alone. -/
theorem logged_map {τ : Type*} {f : σ → τ} {next' : τ → ι → Option τ}
    (hstep : ∀ s i, (step s i).map (fun out => f out.1) = next' (f s) i) (is : List ι) (s : σ) :
    (logged step is s).map (fun out => f out.1) = is.foldlM next' (f s) := by
  induction is generalizing s with
  | nil => rfl
  | cons i is ih =>
    rw [List.foldlM_cons, ← hstep]
    cases hone : step s i with
    | none => simp [logged, hone]
    | some out =>
      simp only [logged, hone, Option.map_some, Option.bind_eq_bind, Option.bind_some, ← ih]
      cases logged step is out.1 <;> rfl

/-- What every step keeps of the log and the state holds of the whole log at the end. -/
theorem logged_invariant (Inv : List ε → σ → Prop)
    (hstep : ∀ log s i out, Inv log s → step s i = some out → Inv (log ++ out.2) out.1)
    {is : List ι} {s : σ} {out : σ × List ε} (h : Inv [] s)
    (hrun : logged step is s = some out) : Inv out.2 out.1 := by
  -- the induction is on the inputs, with any log before them
  suffices hfrom : ∀ log, Inv log s → Inv (log ++ out.2) out.1 by simpa using hfrom [] h
  clear h
  intro log h
  induction is generalizing log s out with
  | nil =>
    obtain rfl := Option.some.inj hrun
    rwa [List.append_nil]
  | cons i is ih =>
    obtain ⟨⟨s₁, log₁⟩, hone, hrun⟩ := Option.bind_eq_some_iff.mp hrun
    obtain ⟨⟨s₂, later⟩, hrest, hrun⟩ := Option.bind_eq_some_iff.mp hrun
    cases hrun
    have hnext := ih hrest (log ++ log₁) (hstep log s i _ h hone)
    rwa [List.append_assoc] at hnext

end Ferrokey.Machine
