import Ferrokey.Machine.Runs

/-! # Refinement of runs

A partial step refines a machine under an abstraction when whatever it does is matched by a
run of the machine; runs compose. What each step keeps, a loop of partial steps keeps as well.
When one machine does in its steps what another one does, its runs have the outputs of the other.
-/

namespace Ferrokey.Machine

variable {σ ι ω τ κ : Type*} {step : σ → ι → σ × ω} {s t u : σ}

/-- Some run of the machine goes from one state to another. -/
def Leads (step : σ → ι → σ × ω) (s t : σ) : Prop := ∃ is, run step s is = t

theorem Leads.refl (s : σ) : Leads step s s := ⟨[], rfl⟩

theorem Leads.of_eq (h : s = t) : Leads step s t := h ▸ .refl s

theorem Leads.single (s : σ) (i : ι) : Leads step s (step s i).1 := ⟨[i], rfl⟩

theorem Leads.trans (h : Leads step s t) (h' : Leads step t u) : Leads step s u := by
  obtain ⟨is, rfl⟩ := h
  obtain ⟨js, rfl⟩ := h'
  exact ⟨is ++ js, run_append s is js⟩

/-- A machine of which the steps that meet a condition are steps of another one, under an
abstraction, has in such a run the outputs of a run of the other. -/
theorem run_refines {f : σ → τ} {step' : τ → κ → τ × ω} {C : σ → ι → Prop}
    (hs : ∀ s i, C s i → ∃ j, step' (f s) j = (f (step s i).1, (step s i).2)) {is : List ι}
    (h : Steps step C s is) :
    ∃ js, run step' (f s) js = f (run step s is) ∧ outputs step' (f s) js = outputs step s is := by
  induction is generalizing s with
  | nil => exact ⟨[], rfl, rfl⟩
  | cons i is ih =>
    obtain ⟨hi, hrest⟩ := steps_cons_iff.mp h
    obtain ⟨j, hj⟩ := hs s i hi
    obtain ⟨js, hrun, houts⟩ := ih hrest
    exact ⟨j :: js, by simpa [hj] using hrun, by simpa [outputs, hj] using houts⟩

/-- What every partial step keeps is kept by a loop of them that does not break off. -/
theorem foldlM_invariant {next : τ → κ → Option τ} (Inv : τ → Prop)
    (hn : ∀ a i b, Inv a → next a i = some b → Inv b) {a b : τ} {is : List κ} (ha : Inv a)
    (h : is.foldlM next a = some b) : Inv b := by
  induction is generalizing a with
  | nil =>
    obtain rfl : a = b := Option.some.inj h
    exact ha
  | cons i is ih =>
    obtain ⟨c, hc, hrest⟩ := Option.bind_eq_some_iff.mp h
    exact ih (hn a i c ha hc) hrest

end Ferrokey.Machine
