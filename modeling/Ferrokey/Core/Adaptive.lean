import Ferrokey.Core.Geometry
import Mathlib.Algebra.Order.Field.Rat

/-! # Frozen and reset geometry

The optimiser evaluates its proposals also while the geometry is frozen or switched off,
and notes the limiting constraints on the keys; nothing else of a key changes then. No
call changes the rectangles, so a reset is back at what the constructor made of them.
-/

namespace Ferrokey.Geometry

namespace KeyGeometry

variable {F : Type}

/-- A key without the note of the constraint that limited it. -/
def unlimited (k : KeyGeometry F) : KeyGeometry F := { k with lastLimit := none }

end KeyGeometry

namespace AdaptiveGeometry

variable {F : Type}

def hits (g : AdaptiveGeometry F) : List (Ellipse F) := g.keys.map KeyGeometry.hit

def visuals (g : AdaptiveGeometry F) : List (Rect F) := g.keys.map KeyGeometry.visual

/-- Learning is off: the geometry is frozen or disabled. -/
def Still (g : AdaptiveGeometry F) : Prop := g.config.enabled = false ∨ g.config.frozen = true

theorem Still.skips {g : AdaptiveGeometry F} (h : g.Still) :
    (!g.config.enabled || g.config.frozen) = true := by
  rcases h with he | hf
  · rw [he]
    rfl
  · rw [hf, Bool.or_true]

/-- The geometries differ at most in the limiting constraints noted on the keys. -/
structure SameButLimits (g g' : AdaptiveGeometry F) : Prop where
  keys : g'.keys.map KeyGeometry.unlimited = g.keys.map KeyGeometry.unlimited
  rest : { g' with keys := [] } = { g with keys := [] }

namespace SameButLimits

variable {g g₁ g₂ : AdaptiveGeometry F}

theorem refl (g : AdaptiveGeometry F) : SameButLimits g g := ⟨rfl, rfl⟩

theorem trans (h₁ : SameButLimits g g₁) (h₂ : SameButLimits g₁ g₂) : SameButLimits g g₂ :=
  ⟨h₂.keys.trans h₁.keys, h₂.rest.trans h₁.rest⟩

theorem map_keys {α : Type} (h : SameButLimits g g₁) (f : KeyGeometry F → α)
    (hf : ∀ k, f k.unlimited = f k) : g₁.keys.map f = g.keys.map f := by
  have hk := congrArg (List.map f) h.keys
  simpa only [List.map_map, Function.comp_def, hf] using hk

theorem hits_eq (h : SameButLimits g g₁) : g₁.hits = g.hits := h.map_keys _ fun _ => rfl

theorem visuals_eq (h : SameButLimits g g₁) : g₁.visuals = g.visuals := h.map_keys _ fun _ => rfl

theorem config_eq (h : SameButLimits g g₁) : g₁.config = g.config :=
  (AdaptiveGeometry.mk.inj h.rest).1

end SameButLimits

/-- Replacing an entry changes nothing that the new one has in common with the old one. -/
theorem map_set_eq {α β : Type} {as : List α} {f : α → β} {i : ℕ} {a b : α} (h : as[i]? = some a)
    (hf : f b = f a) : (as.set i b).map f = as.map f := by
  obtain ⟨hi, rfl⟩ := List.getElem?_eq_some_iff.mp h
  rw [List.map_set, hf]
  have hi' : i < (as.map f).length := by simpa using hi
  have hs := List.set_getElem_self hi'
  rwa [List.getElem_map] at hs

theorem map_modify_eq {α β : Type} {f : α → β} {u : α → α} (hf : ∀ a, f (u a) = f a) (as : List α)
    (i : ℕ) : (as.modify i u).map f = as.map f := by
  apply List.ext_getElem?
  intro j
  by_cases h : i = j
  · subst h
    cases ha : as[i]? <;> simp [ha, hf]
  · simp [h]

theorem updateEach_same {α : Type}
    {f : AdaptiveGeometry F → ℕ → α → Option (α × AdaptiveGeometry F)}
    (hf : ∀ {g g' : AdaptiveGeometry F} {i : ℕ} {a a' : α}, f g i a = some (a', g') →
      SameButLimits g g')
    {g g' : AdaptiveGeometry F} {i : ℕ} {as as' : List α}
    (h : updateEach f g i as = some (as', g')) : SameButLimits g g' := by
  induction as generalizing g i as' with
  | nil =>
    cases h
    exact .refl _
  | cons a as ih =>
    simp only [updateEach, Option.bind_eq_bind, Option.bind_eq_some_iff, Option.pure_def,
      Option.some.injEq, Prod.mk.injEq] at h
    obtain ⟨⟨a', g₁⟩, ha, ⟨as'', g₂⟩, has, -, rfl⟩ := h
    exact (hf ha).trans (ih has)

theorem applyProposals_visual {proposals : List (Option (Ellipse F) × ℕ)}
    {keys keys' : List (KeyGeometry F)} (h : proposals.foldlM applyProposal keys = some keys') :
    keys'.map KeyGeometry.visual = keys.map KeyGeometry.visual := by
  refine foldlM_invariant (fun ks => ks.map KeyGeometry.visual = keys.map KeyGeometry.visual)
    ?_ rfl h
  intro ks prop ks' hks hp
  unfold applyProposal at hp
  split at hp
  · cases hp
    exact hks
  · simp only [Option.bind_eq_bind, Option.bind_eq_some_iff, Option.pure_def,
      Option.some.injEq] at hp
    obtain ⟨k, hk, rfl⟩ := hp
    refine (map_set_eq hk ?_).trans hks
    rfl

section

variable [Coordinate F] {g g' : AdaptiveGeometry F}

theorem clampToConstraints_same {i : ℕ} {e e' : Ellipse F}
    (h : g.clampToConstraints i e = some (e', g')) : SameButLimits g g' := by
  simp only [clampToConstraints, Option.bind_eq_bind, Option.bind_eq_some_iff, Option.pure_def,
    Option.some.injEq, Prod.mk.injEq] at h
  obtain ⟨k, hk, cx, -, cy, -, rx, -, ry, -, nbs, -, out, -, -, rfl⟩ := h
  exact ⟨map_set_eq hk rfl, rfl⟩

theorem clampProposal_same {i : ℕ} {p p' : Option (Ellipse F)}
    (h : g.clampProposal i p = some (p', g')) : SameButLimits g g' := by
  cases p with
  | none =>
    cases h
    exact .refl _
  | some e =>
    simp only [clampProposal, Option.bind_eq_bind, Option.bind_eq_some_iff, Option.pure_def,
      Option.some.injEq, Prod.mk.injEq] at h
    obtain ⟨⟨e', g₁⟩, he, -, rfl⟩ := h
    exact clampToConstraints_same he

/-- Evaluating the proposals notes limits and changes nothing else. -/
theorem evaluateAndPropose_same {out : List (Option (Ellipse F))}
    (h : g.evaluateAndPropose = some (out, g')) : SameButLimits g g' := by
  simp only [evaluateAndPropose, Option.bind_eq_bind, Option.bind_eq_some_iff, Option.pure_def,
    Option.some.injEq, Prod.mk.injEq] at h
  obtain ⟨cand, -, cand', -, ⟨cand'', g₁⟩, hu, out', -, -, rfl⟩ := h
  exact updateEach_same (fun h => clampToConstraints_same h) hu

theorem recordHit_map {α : Type} (f : KeyGeometry F → α)
    (hf : ∀ (k : KeyGeometry F) stats frequency, f { k with stats, frequency } = f k) (key : ℕ)
    (p : Point F) : (g.recordHit key p).keys.map f = g.keys.map f := by
  unfold recordHit
  split
  · rfl
  · exact map_modify_eq (fun k => hf k _ _) _ _

@[simp] theorem recordHit_hits (key : ℕ) (p : Point F) : (g.recordHit key p).hits = g.hits :=
  recordHit_map _ (fun _ _ _ => rfl) key p

@[simp] theorem recordHit_visuals (key : ℕ) (p : Point F) :
    (g.recordHit key p).visuals = g.visuals :=
  recordHit_map _ (fun _ _ _ => rfl) key p

@[simp] theorem recordHit_config (key : ℕ) (p : Point F) :
    (g.recordHit key p).config = g.config := by
  unfold recordHit
  split <;> rfl

/-- A pass of the optimiser over a geometry that is frozen or disabled notes limits only. -/
theorem optimize_same (hs : g.Still) (h : g.optimize = some g') : SameButLimits g g' := by
  rw [optimize, if_pos hs.skips] at h
  obtain ⟨⟨out, g₁⟩, he, rfl⟩ := Option.map_eq_some_iff.mp h
  exact evaluateAndPropose_same he

/-- No pass of the optimiser moves a rectangle. -/
theorem optimize_visuals (h : g.optimize = some g') : g'.visuals = g.visuals := by
  unfold optimize at h
  split at h
  · obtain ⟨⟨out, g₁⟩, he, rfl⟩ := Option.map_eq_some_iff.mp h
    exact (evaluateAndPropose_same he).visuals_eq
  · simp only [Option.bind_eq_bind, Option.bind_eq_some_iff, Option.pure_def,
      Option.some.injEq] at h
    obtain ⟨⟨out, g₁⟩, he, ⟨proposals, g₂⟩, hu, keys, hk, rfl⟩ := h
    have hv : keys.map KeyGeometry.visual = g₂.visuals := applyProposals_visual hk
    exact hv.trans (((evaluateAndPropose_same he).trans
      (updateEach_same (fun h => clampProposal_same h) hu)).visuals_eq)

/-- The calls that learn. -/
inductive Touch (F : Type) where
  | recordHit (key : ℕ) (p : Point F)
  | optimize

def learn (g : AdaptiveGeometry F) : Touch F → Option (AdaptiveGeometry F)
  | .recordHit key p => some (g.recordHit key p)
  | .optimize => g.optimize

/-- Everything that can be done with a geometry, its public settings included. -/
inductive Call (F : Type) where
  | touch (t : Touch F)
  | feed (dataset : List (Sample F))
  | setEnabled (enabled : Bool)
  | setFrozen (frozen : Bool)
  | setConfig (config : AdaptiveConfig F)
  | setConstraints (constraints : GeometryConstraints F)
  | reset

def call (g : AdaptiveGeometry F) : Call F → Option (AdaptiveGeometry F)
  | .touch t => g.learn t
  | .feed dataset => g.feed dataset
  | .setEnabled enabled => some (g.setEnabled enabled)
  | .setFrozen frozen => some (g.setFrozen frozen)
  | .setConfig config => some { g with config }
  | .setConstraints constraints => some { g with constraints }
  | .reset => some g.reset

/-- One touch or pass over a still geometry leaves the hit regions and the settings. -/
theorem learn_still (hs : g.Still) {t : Touch F} (h : g.learn t = some g') :
    g'.hits = g.hits ∧ g'.Still := by
  cases t with
  | recordHit key p =>
    cases h
    exact ⟨recordHit_hits key p, by rwa [Still, recordHit_config]⟩
  | optimize =>
    have hsame := optimize_same hs h
    exact ⟨hsame.hits_eq, by rwa [Still, hsame.config_eq]⟩

theorem foldlM_learn_still (hs : g.Still) {touches : List (Touch F)}
    (h : touches.foldlM learn g = some g') : g'.hits = g.hits := by
  refine (foldlM_invariant (fun g₁ => g₁.hits = g.hits ∧ g₁.Still) ?_ ⟨rfl, hs⟩ h).1
  rintro g₁ t g₂ ⟨hh, hs₁⟩ ht
  obtain ⟨hhits, hs₂⟩ := learn_still hs₁ ht
  exact ⟨hhits.trans hh, hs₂⟩

theorem feedSample_visuals {s : Sample F} (h : g.feedSample s = some g') :
    g'.visuals = g.visuals := by
  unfold feedSample at h
  dsimp only at h
  split at h
  · exact (optimize_visuals h).trans (recordHit_visuals _ _)
  · cases h
    exact recordHit_visuals _ _

theorem feed_visuals {dataset : List (Sample F)} (h : g.feed dataset = some g') :
    g'.visuals = g.visuals := by
  rw [feed, Option.bind_eq_bind, Option.bind_eq_some_iff] at h
  obtain ⟨g₁, hd, h⟩ := h
  have hv : g₁.visuals = g.visuals :=
    foldlM_invariant (fun g₂ => g₂.visuals = g.visuals)
      (fun _ _ _ hb hs => (feedSample_visuals hs).trans hb) rfl hd
  split at h
  · exact (optimize_visuals h).trans hv
  · cases h
    exact hv

/-- No call moves a rectangle. -/
theorem call_visuals {c : Call F} (h : g.call c = some g') : g'.visuals = g.visuals := by
  cases c with
  | touch t =>
    cases t with
    | recordHit key p =>
      cases h
      exact recordHit_visuals key p
    | optimize => exact optimize_visuals h
  | feed dataset => exact feed_visuals h
  | reset =>
    cases h
    simp [visuals, reset, Function.comp_def]
  | setEnabled enabled => cases h; rfl
  | setFrozen frozen => cases h; rfl
  | setConfig config => cases h; rfl
  | setConstraints constraints => cases h; rfl

/-- The clamps that a key's rectangle gives rise to have their bounds in order. -/
structure InOrder (c : GeometryConstraints F) (r : Rect F) : Prop where
  centerX : Coordinate.le (r.center.x - c.maxCenterDx) (r.center.x + c.maxCenterDx) = true
  centerY : Coordinate.le (r.center.y - c.maxCenterDy) (r.center.y + c.maxCenterDy) = true
  radiusX : Coordinate.le c.minRadiusX (r.w / Coordinate.two + c.maxExpansionX) = true
  radiusY : Coordinate.le c.minRadiusY (r.h / Coordinate.two + c.maxExpansionY) = true

/-- Every key has its neighbours among the keys, and no clamp has its bounds out of order. -/
structure Sound (g : AdaptiveGeometry F) : Prop where
  unit : Coordinate.le (0 : F) 1 = true
  order : ∀ r ∈ g.visuals, InOrder g.constraints r
  neighbors : g.neighbors.length = g.keys.length
  inRange : ∀ js ∈ g.neighbors, ∀ j ∈ js, j < g.keys.length

theorem SameButLimits.sound (h : SameButLimits g g') (hg : g.Sound) : g'.Sound := by
  obtain ⟨-, hc, -, hn, -, -⟩ := AdaptiveGeometry.mk.inj h.rest
  have hl : g'.keys.length = g.keys.length := by
    simpa [visuals] using congrArg List.length h.visuals_eq
  exact ⟨hg.unit, by rw [h.visuals_eq, hc]; exact hg.order, by rw [hn, hl]; exact hg.neighbors,
    by rw [hn, hl]; exact hg.inRange⟩

theorem recordHit_sound (hg : g.Sound) (key : ℕ) (p : Point F) : (g.recordHit key p).Sound := by
  have hv := recordHit_visuals (g := g) key p
  have hl : (g.recordHit key p).keys.length = g.keys.length := by
    simpa [visuals] using congrArg List.length hv
  have hr : (g.recordHit key p).constraints = g.constraints ∧
      (g.recordHit key p).neighbors = g.neighbors := by
    unfold recordHit
    split <;> exact ⟨rfl, rfl⟩
  exact ⟨hg.unit, by rw [hv, hr.1]; exact hg.order, by rw [hr.2, hl]; exact hg.neighbors,
    by rw [hr.2, hl]; exact hg.inRange⟩

section Returning

theorem clamp_returns (x : F) {lo hi : F} (h : Coordinate.le lo hi = true) :
    Returns (clamp x lo hi) fun _ => True := by
  rw [clamp, if_pos h]
  exact .pure trivial

theorem lerp_returns (hg : g.Sound) (a b : Ellipse F) (t : F) :
    Returns (lerp a b t) fun _ => True :=
  (clamp_returns t hg.unit).bind fun _ _ => .pure trivial

variable {i : ℕ}

theorem getElem?_returns {α : Type} {as : List α} (h : i < as.length) :
    Returns as[i]? fun a => a ∈ as :=
  ⟨as[i], List.getElem?_eq_getElem h, List.getElem_mem h⟩

theorem mapM_returns {α β : Type} {f : α → Option β} {as : List α}
    (hf : ∀ a ∈ as, Returns (f a) fun _ => True) :
    Returns (as.mapM f) fun bs => bs.length = as.length :=
  (Returns.mapM hf).mono fun _ h => h.1

theorem Sound.inOrder (hg : g.Sound) {k : KeyGeometry F} (hk : k ∈ g.keys) :
    InOrder g.constraints k.visual :=
  hg.order _ (List.mem_map_of_mem hk)

theorem candidate_returns (hg : g.Sound) (h : i < g.keys.length) :
    Returns (g.candidate i) fun _ => True := by
  refine (getElem?_returns h).bind fun k hk => ?_
  have ho := hg.inOrder hk
  refine (clamp_returns _ ho.centerX).bind fun _ _ => ?_
  refine (clamp_returns _ ho.centerY).bind fun _ _ => ?_
  refine (clamp_returns _ ho.radiusX).bind fun _ _ => ?_
  exact (clamp_returns _ ho.radiusY).bind fun _ _ => .pure trivial

theorem compete_returns {cand : List (Ellipse F)} {j : ℕ} (hi : i < cand.length)
    (hj : j < cand.length) :
    Returns (g.compete i cand j) fun cand' => cand'.length = cand.length := by
  unfold compete
  refine .ite (fun _ => .pure rfl) fun _ => ?_
  refine (getElem?_returns hi).bind fun ci _ => (getElem?_returns hj).bind fun cj _ => ?_
  refine .ite (fun _ => .pure rfl) fun _ => .ite (fun _ => .pure rfl) fun _ => ?_
  exact .pure (by simp)

theorem competition_returns (hg : g.Sound) {cand : List (Ellipse F)}
    (hl : cand.length = g.keys.length) :
    Returns (g.competition cand) fun cand' => cand'.length = g.keys.length := by
  refine Returns.foldlM (fun cs : List (Ellipse F) => cs.length = g.keys.length) ?_ hl
  intro cs hcs i hi
  have hi := List.mem_range.mp hi
  refine (getElem?_returns (hg.neighbors ▸ hi)).bind fun js hjs => ?_
  refine Returns.foldlM (fun cs : List (Ellipse F) => cs.length = g.keys.length) ?_ hcs
  intro cs' hcs' j hj
  refine (compete_returns (hcs' ▸ hi) (hcs' ▸ hg.inRange js hjs j hj)).mono ?_
  exact fun _ h => h.trans hcs'

theorem clampToConstraints_returns (hg : g.Sound) (h : i < g.keys.length) (e : Ellipse F) :
    Returns (g.clampToConstraints i e) fun r => SameButLimits g r.2 := by
  suffices hr : Returns (g.clampToConstraints i e) fun _ => True by
    obtain ⟨⟨e', g'⟩, hsome, -⟩ := hr
    exact ⟨(e', g'), hsome, clampToConstraints_same hsome⟩
  have hnb : Returns (g.neighborEllipses i) fun _ => True := by
    refine (getElem?_returns (hg.neighbors ▸ h)).bind fun js hjs => ?_
    refine (mapM_returns fun j hj => ?_).mono fun _ _ => trivial
    exact (getElem?_returns (hg.inRange js hjs j hj)).map fun _ _ => trivial
  refine (getElem?_returns h).bind fun k hk => ?_
  have ho := hg.inOrder hk
  refine (clamp_returns _ ho.centerX).bind fun _ _ => ?_
  refine (clamp_returns _ ho.centerY).bind fun _ _ => ?_
  refine (clamp_returns _ ho.radiusX).bind fun _ _ => ?_
  refine (clamp_returns _ ho.radiusY).bind fun _ _ => hnb.bind fun nbs _ => ?_
  have hp : ∀ out, Returns (pullBack g.constraints k nbs out) fun _ => True :=
    fun out => .ite (fun _ => lerp_returns hg _ _ _) fun _ => .pure trivial
  exact (hp _).bind fun _ _ => .pure trivial

theorem updateEach_returns {α : Type}
    {f : AdaptiveGeometry F → ℕ → α → Option (α × AdaptiveGeometry F)}
    (hf : ∀ {g : AdaptiveGeometry F} {i : ℕ}, g.Sound → i < g.keys.length → ∀ a,
      Returns (f g i a) fun r => SameButLimits g r.2)
    {as : List α} (hg : g.Sound) (hl : i + as.length ≤ g.keys.length) :
    Returns (updateEach f g i as) fun r => r.1.length = as.length ∧ SameButLimits g r.2 := by
  induction as generalizing g i with
  | nil => exact .pure ⟨rfl, .refl g⟩
  | cons a as ih =>
    rw [List.length_cons] at hl
    refine (hf hg (by omega) a).bind fun r hs => ?_
    have hk : r.2.keys.length = g.keys.length := by
      simpa [visuals] using congrArg List.length hs.visuals_eq
    refine (ih (hs.sound hg) (by omega)).bind fun r' hs' => ?_
    exact .pure ⟨by simp [hs'.1], hs.trans hs'.2⟩

theorem gate_returns (hg : g.Sound) {cand : List (Ellipse F)} (h : i < g.keys.length)
    (hc : i < cand.length) : Returns (g.gate cand i) fun _ => True := by
  refine (getElem?_returns h).bind fun k _ => (getElem?_returns hc).bind fun e _ => ?_
  refine .ite (fun _ => .pure trivial) fun _ => .ite (fun _ => .pure trivial) fun _ => ?_
  exact .ite (fun _ => (lerp_returns hg _ _ _).map fun _ _ => trivial) fun _ => .pure trivial

theorem evaluateAndPropose_returns (hg : g.Sound) :
    Returns g.evaluateAndPropose fun r => SameButLimits g r.2 := by
  have hcand : Returns ((List.range g.keys.length).mapM g.candidate)
      fun cs => cs.length = (List.range g.keys.length).length :=
    mapM_returns fun i hi => candidate_returns hg (List.mem_range.mp hi)
  rw [List.length_range] at hcand
  refine hcand.bind fun cand hc => (competition_returns hg hc).bind fun cand' hc' => ?_
  have hu : Returns (updateEach clampToConstraints g 0 cand')
      fun r => r.1.length = cand'.length ∧ SameButLimits g r.2 :=
    updateEach_returns (fun hs hi e => clampToConstraints_returns hs hi e) hg (by omega)
  refine hu.bind ?_
  rintro ⟨cand'', g'⟩ ⟨hl, hs⟩
  have hk : g'.keys.length = g.keys.length := by
    simpa [visuals] using congrArg List.length hs.visuals_eq
  refine (mapM_returns fun i hi => ?_).bind fun out _ => .pure hs
  have hi := List.mem_range.mp hi
  exact gate_returns (hs.sound hg) hi (hl ▸ hc' ▸ hk ▸ hi)

/-- On a sound geometry that is frozen or disabled all touches and passes go through. -/
theorem foldlM_learn_returns (hg : g.Sound) (hs : g.Still) (touches : List (Touch F)) :
    Returns (touches.foldlM learn g) fun g' => g'.hits = g.hits := by
  suffices hr : Returns (touches.foldlM learn g) fun g' => g'.Sound ∧ g'.Still by
    obtain ⟨g', h, -⟩ := hr
    exact ⟨g', h, foldlM_learn_still hs h⟩
  refine Returns.foldlM (fun g' : AdaptiveGeometry F => g'.Sound ∧ g'.Still) ?_ ⟨hg, hs⟩
  rintro g₁ ⟨hg₁, hs₁⟩ t -
  cases t with
  | recordHit key p =>
    exact .pure ⟨recordHit_sound hg₁ key p, (learn_still hs₁ (t := .recordHit key p) rfl).2⟩
  | optimize =>
    rw [learn, optimize, if_pos hs₁.skips]
    refine (evaluateAndPropose_returns hg₁).map fun r hr => ⟨hr.sound hg₁, ?_⟩
    rwa [Still, hr.config_eq]

end Returning

/-- The parts of a geometry that learning writes. -/
def learned (g : AdaptiveGeometry F) :
    List (KeyGeometry F) × UInt32 × List (Option (Ellipse F)) :=
  (g.keys, g.samplesSinceOptimize, g.lastProposals)

/-- A reset makes the keys anew from their rectangles. -/
theorem reset_learned (g : AdaptiveGeometry F) (config : AdaptiveConfig F)
    (constraints : GeometryConstraints F) (neighbors : List (List ℕ)) :
    g.reset.learned = (new config constraints g.visuals neighbors).learned := by
  simp [learned, reset, new, visuals, KeyGeometry.new, Function.comp_def]

/-- No sequence of touches and passes moves a hit region of a geometry that is frozen or
disabled, and a reset after any calls is back at what the constructor made. -/
theorem adaptive_frame (g : AdaptiveGeometry F) (hs : g.Still) (touches : List (Touch F))
    (config : AdaptiveConfig F) (constraints : GeometryConstraints F) (visual : List (Rect F))
    (neighbors : List (List ℕ)) (calls : List (Call F)) :
    (∀ g' ∈ touches.foldlM learn g, g'.hits = g.hits) ∧
    ∀ g' ∈ calls.foldlM call (new config constraints visual neighbors),
      g'.reset.learned = (new config constraints visual neighbors).learned := by
  constructor
  · intro g' h
    exact foldlM_learn_still hs h
  · intro g' h
    have hv : g'.visuals = visual := by
      refine foldlM_invariant (fun g₁ => g₁.visuals = visual) ?_ ?_ h
      · exact fun _ _ _ hb hc => (call_visuals hc).trans hb
      · simp [visuals, new, KeyGeometry.new, Function.comp_def]
    rw [reset_learned g' config constraints neighbors, hv]

end

/-- Rational coordinates, with a square root that is exact on squares. -/
instance rationalCoordinate : Coordinate ℚ where
  half := 1 / 2
  two := 2
  pi := 355 / 113
  epsilon := 1 / 2 ^ 52
  tolerance := 1 / 10 ^ 9
  smallest := 1 / 10 ^ 6
  abs x := if x < 0 then -x else x
  sqrt x := mkRat (Nat.sqrt (x.num.toNat * x.den)) x.den
  ofU32 n := n.toNat
  lt x y := decide (x < y)
  le x y := decide (x ≤ y)
  eq x y := decide (x = y)

/-- Two keys side by side under the default settings. -/
def twoKeys : AdaptiveGeometry ℚ :=
  new ⟨true, false, 8, 12 / 100, 35 / 100, 5 / 1000, 16⟩
    ⟨12, 8, 10, 6, 10, 12, 400, 1 / 4⟩ [⟨0, 0, 40, 40⟩, ⟨40, 0, 40, 40⟩] [[1], [0]]

theorem adaptive_frame_twoKeys :
    ([.recordHit 0 ⟨25, 20⟩, .optimize].foldlM learn (twoKeys.setFrozen true)).isSome = true ∧
    (∀ g' ∈ [.recordHit 0 ⟨25, 20⟩, .optimize].foldlM learn (twoKeys.setFrozen true),
      g'.hits = (twoKeys.setFrozen true).hits) ∧
    ∀ g' ∈ [.touch (.recordHit 0 ⟨25, 20⟩)].foldlM call twoKeys,
      g'.reset.learned = twoKeys.learned :=
  ⟨by decide +kernel, adaptive_frame (twoKeys.setFrozen true) (Or.inr rfl) _ _ _ _ _ _⟩

end AdaptiveGeometry

end Ferrokey.Geometry
