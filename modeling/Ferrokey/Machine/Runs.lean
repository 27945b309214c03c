import Mathlib.Data.List.Basic
import Mathlib.Data.List.Infix
import Mathlib.Tactic.Common

/-! # Runs of a machine

A machine answers every input with a new state and an output. `Always` is a
property of the states a run visits and `Steps` a condition on the steps it
takes; the rules below pass from what one step does to what every run does.
-/

namespace Ferrokey.Machine

variable {σ ι ω : Type*}

def run (step : σ → ι → σ × ω) (s : σ) (is : List ι) : σ :=
  is.foldl (fun t i => (step t i).1) s

def outputs (step : σ → ι → σ × ω) : σ → List ι → List ω
  | _, [] => []
  | s, i :: is => (step s i).2 :: outputs step (step s i).1 is

/-- The property holds in every state the run visits, the first one included. -/
def Always (step : σ → ι → σ × ω) (P : σ → Prop) (s : σ) (is : List ι) : Prop :=
  ∀ pre, pre <+: is → P (run step s pre)

/-- Every step of the run meets a condition on the state before it and its input. -/
def Steps (step : σ → ι → σ × ω) (C : σ → ι → Prop) (s : σ) (is : List ι) : Prop :=
  ∀ pre i, pre ++ [i] <+: is → C (run step s pre) i

/-- How many steps of the run meet a condition. -/
def tally (step : σ → ι → σ × ω) (p : σ → ι → Bool) : σ → List ι → ℕ
  | _, [] => 0
  | s, i :: is => (p s i).toNat + tally step p (step s i).1 is

variable {step : σ → ι → σ × ω} {P : σ → Prop} {C : σ → ι → Prop}

@[simp] theorem run_nil (s : σ) : run step s [] = s := rfl

@[simp] theorem run_cons (s : σ) (i : ι) (is : List ι) :
    run step s (i :: is) = run step (step s i).1 is := rfl

@[simp] theorem run_append (s : σ) (is js : List ι) :
    run step s (is ++ js) = run step (run step s is) js := by
  simp [run]

theorem outputs_append (s : σ) (is js : List ι) :
    outputs step s (is ++ js) = outputs step s is ++ outputs step (run step s is) js := by
  induction is generalizing s with
  | nil => rfl
  | cons i is ih => simp [outputs, ih]

theorem outputs_concat (s : σ) (is : List ι) (i : ι) :
    outputs step s (is ++ [i]) = outputs step s is ++ [(step (run step s is) i).2] :=
  outputs_append s is [i]

@[simp] theorem length_outputs (s : σ) (is : List ι) : (outputs step s is).length = is.length := by
  induction is generalizing s with
  | nil => rfl
  | cons i is ih => simp [outputs, ih]

/-- What every step keeps of a state and what was answered by then holds at the end of a run. -/
theorem outputs_invariant (Inv : List ω → σ → Prop) {s : σ} (h₀ : Inv [] s)
    (hs : ∀ os t i, Inv os t → Inv (os ++ [(step t i).2]) (step t i).1) (is : List ι) :
    Inv (outputs step s is) (run step s is) := by
  induction is using List.reverseRecOn with
  | nil => exact h₀
  | append_singleton is i ih =>
    rw [outputs_concat, run_append]
    exact hs _ _ i ih

theorem tally_concat (p : σ → ι → Bool) (s : σ) (is : List ι) (i : ι) :
    tally step p s (is ++ [i]) = tally step p s is + (p (run step s is) i).toNat := by
  induction is generalizing s with
  | nil => simp [tally]
  | cons j is ih => simp [tally, ih, Nat.add_assoc]

theorem Steps.of_prefix {s : σ} {is pre : List ι} (h : Steps step C s is) (hp : pre <+: is) :
    Steps step C s pre :=
  fun pre' i hp' => h pre' i (hp'.trans hp)

theorem Steps.concat {s : σ} {is : List ι} {i : ι} (h : Steps step C s (is ++ [i])) :
    Steps step C s is ∧ C (run step s is) i :=
  ⟨h.of_prefix (List.prefix_append _ _), h is i List.prefix_rfl⟩

@[simp] theorem steps_nil (s : σ) : Steps step C s [] := by
  intro pre i hp
  simp at hp

@[simp] theorem steps_cons_iff {s : σ} {i : ι} {is : List ι} :
    Steps step C s (i :: is) ↔ C s i ∧ Steps step C (step s i).1 is := by
  constructor
  · intro h
    exact ⟨h [] i (List.prefix_append [i] is),
      fun pre j hp => h (i :: pre) j (List.cons_prefix_cons.mpr ⟨rfl, hp⟩)⟩
  · rintro ⟨hi, h⟩ pre j hp
    cases pre with
    | nil =>
      obtain ⟨rfl, -⟩ := List.cons_prefix_cons.mp hp
      exact hi
    | cons i' pre =>
      obtain ⟨rfl, hrest⟩ := List.cons_prefix_cons.mp hp
      exact h pre j hrest

/-- Every entry of a log stands in a relation to the entries before it. -/
def Throughout {α : Type*} (R : List α → α → Prop) (log : List α) : Prop :=
  ∀ before entry, before ++ [entry] <+: log → R before entry

theorem throughout_nil {α : Type*} {R : List α → α → Prop} : Throughout R [] := by
  intro before entry hp
  simp at hp

theorem Throughout.concat {α : Type*} {R : List α → α → Prop} {log : List α} {entry : α}
    (h : Throughout R log) (he : R log entry) : Throughout R (log ++ [entry]) := by
  intro before entry' hp
  rcases List.prefix_concat_iff.mp hp with heq | hp
  · obtain ⟨rfl, hlast⟩ := List.append_inj' heq rfl
    obtain rfl : entry' = entry := by simpa using hlast
    exact he
  · exact h before entry' hp

/-- Two machines whose states stay related, step by step, end in related states and answer
alike, when one of them is given the images of the inputs of the other. -/
theorem run_related {τ κ : Type*} {step' : τ → κ → τ × ω} {g : ι → κ} (R : σ → τ → Prop)
    (hs : ∀ s t i, R s t → (step' t (g i)).2 = (step s i).2 ∧ R (step s i).1 (step' t (g i)).1)
    {s : σ} {t : τ} (h : R s t) (is : List ι) :
    outputs step' t (is.map g) = outputs step s is ∧
      R (run step s is) (run step' t (is.map g)) := by
  induction is generalizing s t with
  | nil => exact ⟨rfl, h⟩
  | cons i is ih =>
    obtain ⟨hout, hnext⟩ := hs s t i h
    obtain ⟨houts, hend⟩ := ih hnext
    exact ⟨congrArg₂ List.cons hout houts, hend⟩

/-- Two states that stay related, step by step, give the same outputs. -/
theorem outputs_eq_of_related (R : σ → σ → Prop)
    (hs : ∀ s t i, R s t → (step t i).2 = (step s i).2 ∧ R (step s i).1 (step t i).1)
    {s t : σ} (h : R s t) (is : List ι) : outputs step t is = outputs step s is := by
  have hout := (run_related (g := id) R hs h is).1
  rwa [List.map_id] at hout

section Invariants

variable (Inv : σ → Prop)

/-- An invariant of the steps that meet a condition holds after every run of such steps. -/
theorem run_of_steps {s : σ} (h₀ : Inv s) (hs : ∀ t i, Inv t → C t i → Inv (step t i).1)
    {is : List ι} (h : Steps step C s is) : Inv (run step s is) := by
  induction is using List.reverseRecOn with
  | nil => exact h₀
  | append_singleton is i ih =>
    obtain ⟨hpre, hi⟩ := h.concat
    rw [run_append]
    exact hs _ i (ih hpre) hi

theorem run_invariant {s : σ} (h₀ : Inv s) (hs : ∀ t i, Inv t → Inv (step t i).1)
    (is : List ι) : Inv (run step s is) :=
  run_of_steps Inv (C := fun _ _ => True) h₀ (fun t i h _ => hs t i h) (fun _ _ _ => trivial)

/-- A property that follows from an invariant of the steps that meet a condition holds
throughout every run of such steps. -/
theorem always_of_steps {s : σ} (h₀ : Inv s) (hP : ∀ t, Inv t → P t)
    (hs : ∀ t i, Inv t → C t i → Inv (step t i).1) {is : List ι} (h : Steps step C s is) :
    Always step P s is := by
  intro pre hp
  exact hP _ (run_of_steps Inv h₀ hs (h.of_prefix hp))

/-- If two conditions on a step agree wherever an invariant of the admitted steps holds,
they agree on the runs of admitted steps. -/
theorem steps_iff_within {W D : σ → ι → Prop} {s : σ} (h₀ : Inv s)
    (hs : ∀ t i, Inv t → W t i → Inv (step t i).1)
    (hi : ∀ t i, Inv t → W t i → (C t i ↔ D t i)) {is : List ι} (hw : Steps step W s is) :
    Steps step C s is ↔ Steps step D s is := by
  apply forall₂_congr
  intro pre i
  apply imp_congr_right
  intro hp
  have hpre : Steps step W s pre := hw.of_prefix ((List.prefix_append _ _).trans hp)
  exact hi _ i (run_of_steps Inv h₀ hs hpre) (hw pre i hp)

/-- Among the runs whose steps are all admitted: if an invariant is kept by the steps that
meet a condition and the property fails right after a step that does not, then the property
holds throughout a run exactly when all its steps meet the condition. -/
theorem always_iff_steps_within {W : σ → ι → Prop} {s : σ} (h₀ : Inv s) (hP : ∀ t, Inv t → P t)
    (hs : ∀ t i, Inv t → W t i → C t i → Inv (step t i).1)
    (hf : ∀ t i, Inv t → W t i → ¬ C t i → ¬ P (step t i).1) {is : List ι}
    (hw : Steps step W s is) : Always step P s is ↔ Steps step C s is := by
  have hboth : ∀ t i, Inv t → (W t i ∧ C t i) → Inv (step t i).1 := by
    rintro t i ht ⟨hwi, hci⟩
    exact hs t i ht hwi hci
  constructor
  · intro ha
    induction is using List.reverseRecOn with
    | nil => exact steps_nil s
    | append_singleton is i ih =>
      obtain ⟨hwpre, hwi⟩ := hw.concat
      have hpre : Steps step C s is :=
        ih hwpre fun pre hp => ha pre (hp.trans (List.prefix_append _ _))
      have hinv : Inv (run step s is) :=
        run_of_steps Inv h₀ hboth fun pre j hp => ⟨hwpre pre j hp, hpre pre j hp⟩
      intro pre j hp
      rcases List.prefix_concat_iff.mp hp with he | hp
      · obtain ⟨rfl, hj⟩ := List.append_inj' he rfl
        obtain rfl : j = i := by simpa using hj
        by_contra hc
        have hbad := hf _ j hinv hwi hc
        exact hbad (by simpa using ha (pre ++ [j]) List.prefix_rfl)
      · exact hpre pre j hp
  · intro h
    exact always_of_steps Inv h₀ hP hboth fun pre i hp => ⟨hw pre i hp, h pre i hp⟩

/-- If an invariant is kept by the steps that meet a condition and the property fails
right after a step that does not, then the property holds throughout a run exactly
when all its steps meet the condition. -/
theorem always_iff_steps {s : σ} (h₀ : Inv s) (hP : ∀ t, Inv t → P t)
    (hs : ∀ t i, Inv t → C t i → Inv (step t i).1)
    (hf : ∀ t i, Inv t → ¬ C t i → ¬ P (step t i).1) (is : List ι) :
    Always step P s is ↔ Steps step C s is :=
  always_iff_steps_within Inv (W := fun _ _ => True) h₀ hP (fun t i h _ => hs t i h)
    (fun t i h _ => hf t i h) (fun _ _ _ => trivial)

end Invariants

end Ferrokey.Machine
