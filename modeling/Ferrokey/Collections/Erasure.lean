import Ferrokey.Collections.Checked

/-! # What a computation does not look at

A map erases a part of a value. A computation is blind when it does not depend on that part:
on values that differ in nothing else it is refused or not alike, and its results differ in no
more than what is erased of them.
-/

namespace Ferrokey

universe u

variable {α β γ δ σ τ : Type u}

/-- Up to what is erased of the result, the computation does the same before and after erasing. -/
def Blind (erase : α → α) (erase' : β → β) (step : α → Option β) : Prop :=
  ∀ a, (step (erase a)).map erase' = (step a).map erase'

namespace Blind

variable {f : α → α} {g : β → β} {h : γ → γ} {step : α → Option β}

theorem congr (hs : Blind f g step) {a a' : α} (heq : f a = f a') :
    (step a).map g = (step a').map g := by
  rw [← hs a, heq, hs a']

theorem pure {k : α → β} (hk : ∀ a, g (k (f a)) = g (k a)) : Blind f g fun a => some (k a) :=
  fun a => congrArg some (hk a)

theorem bind {next : β → Option γ} (hs : Blind f g step) (hn : Blind g h next) :
    Blind f h fun a => (step a).bind next := by
  intro a
  dsimp only
  have heq := hs a
  cases hx : step (f a) with
  | none =>
    rw [hx] at heq
    rw [Option.map_eq_none_iff.mp heq.symm]
  | some b =>
    rw [hx] at heq
    obtain ⟨b', hb', hg⟩ := Option.map_eq_some_iff.mp heq.symm
    rw [hb']
    exact hn.congr hg.symm

theorem map {k : β → γ} (hs : Blind f g step) (hk : ∀ b, h (k (g b)) = h (k b)) :
    Blind f h fun a => (step a).map k := by
  intro a
  have hmap (x : Option β) : (x.map k).map h = ((x.map g).map k).map h := by
    cases x with
    | none => rfl
    | some b => exact congrArg some (hk b).symm
  dsimp only
  rw [hmap, hs a, ← hmap]

/-- What is not erased is carried along. -/
theorem carry (hs : Blind f g step) : Blind (Prod.map f id) (Prod.map g id)
    fun p : α × δ => (step p.1).bind fun b => some (b, p.2) := by
  rintro ⟨a, d⟩
  have hcarry (x : Option β) : (x.bind fun b => some (b, d)).map (Prod.map g id) =
      (x.map g).map (·, d) := by
    cases x <;> rfl
  exact (hcarry _).trans ((congrArg _ (hs a)).trans (hcarry _).symm)

/-- A part of a value is taken out, and what becomes of it is put back. -/
theorem within {erase : σ → σ} {erase' : τ → τ} {get : σ → α} {put : σ → β → τ}
    (hs : Blind f g step) (herase : ∀ s, erase (erase s) = erase s)
    (hget : ∀ s, get (erase s) = f (get s))
    (hput : ∀ s b, erase' (put (erase s) (g b)) = erase' (put s b)) :
    Blind erase erase' fun s => (step (get s)).bind fun b => some (put s b) := by
  intro s
  have hout (s' : σ) (hs' : erase s' = erase s) (x : Option β) :
      (x.bind fun b => some (put s' b)).map erase' =
        (x.map g).map fun b => erase' (put (erase s) b) := by
    cases x with
    | none => rfl
    | some b => exact congrArg some (by rw [← hput, hs'])
  dsimp only
  rw [hout _ (herase s), hget, hs, hout s rfl]

/-- A part that is not erased is read first. -/
theorem read {r : α → Option δ} {k : δ → α → Option β} (hr : ∀ a, r (f a) = r a)
    (hk : ∀ x, Blind f g (k x)) : Blind f g fun a => (r a).bind fun x => k x a := by
  intro a
  dsimp only
  rw [hr a, Option.map_bind, Option.map_bind]
  exact Option.bind_congr fun x _ => hk x a

theorem ite {c : α → Prop} [DecidablePred c] {other : α → Option β} (hc : ∀ a, c (f a) ↔ c a)
    (hs : Blind f g step) (ho : Blind f g other) :
    Blind f g fun a => if c a then step a else other a := by
  intro a
  dsimp only
  by_cases hca : c a
  · rw [if_pos hca, if_pos ((hc a).mpr hca)]
    exact hs a
  · rw [if_neg hca, if_neg (mt (hc a).mp hca)]
    exact ho a

theorem foldlM {ι : Type u} {step : α → ι → Option α} (hf : ∀ a, f (f a) = f a)
    (hs : ∀ i, Blind f f fun a => step a i) (is : List ι) :
    Blind f f fun a => is.foldlM step a := by
  induction is with
  | nil => exact .pure hf
  | cons i is ih =>
    simp only [List.foldlM_cons]
    exact (hs i).bind ih

end Blind

end Ferrokey
