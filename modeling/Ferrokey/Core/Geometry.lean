import Ferrokey.Collections.Checked

/-! # Adaptive key geometry

Every key is drawn as a fixed rectangle and hit as an ellipse that learns from the
touches. The optimiser proposes an ellipse for each key from bounded statistics,
settles the competition between neighbours, enforces the hard constraints and moves
part of the way. Coordinates are opaque; an operation that would stop with an index out
of range or with clamp bounds out of order is refused.
-/

namespace Ferrokey.Geometry

/-- The arithmetic that the geometry does with coordinates, and its constants. -/
class Coordinate (F : Type) extends Zero F, One F, Add F, Sub F, Mul F, Div F, Max F, Min F where
  half : F
  two : F
  pi : F
  epsilon : F
  /-- `1e-9` -/
  tolerance : F
  /-- `1e-6` -/
  smallest : F
  abs : F → F
  sqrt : F → F
  ofU32 : UInt32 → F
  lt : F → F → Bool
  le : F → F → Bool
  eq : F → F → Bool

open Coordinate

structure Point (F : Type) where
  x : F
  y : F

structure Rect (F : Type) where
  x : F
  y : F
  w : F
  h : F

structure Ellipse (F : Type) where
  cx : F
  cy : F
  rx : F
  ry : F

/-- Bounded statistics of the touches of a key. -/
structure KeyTouchStats (F : Type) where
  samples : UInt32
  meanX : F
  meanY : F
  m2X : F
  m2Y : F
  covXY : F

structure GeometryConstraints (F : Type) where
  maxCenterDx : F
  maxCenterDy : F
  maxExpansionX : F
  maxExpansionY : F
  minRadiusX : F
  minRadiusY : F
  minAccessibleArea : F
  maxBboxOverlap : F

inductive ConstraintViolation where
  | centerDisplacement | expansion | minimumSize | overlap
  deriving DecidableEq

structure AdaptiveConfig (F : Type) where
  enabled : Bool
  frozen : Bool
  minSamples : UInt32
  confidence : F
  maxUpdate : F
  hysteresis : F
  optimizeEvery : UInt32

structure KeyGeometry (F : Type) where
  visual : Rect F
  hit : Ellipse F
  stats : KeyTouchStats F
  frequency : UInt32
  lastLimit : Option ConstraintViolation

structure AdaptiveGeometry (F : Type) where
  config : AdaptiveConfig F
  constraints : GeometryConstraints F
  keys : List (KeyGeometry F)
  neighbors : List (List ℕ)
  samplesSinceOptimize : UInt32
  lastProposals : List (Option (Ellipse F))

/-- One touch of a dataset: the intended key and the position. -/
structure Sample (F : Type) where
  key : ℕ
  x : F
  y : F

variable {F : Type} [Coordinate F]

/-- Clamping stops when the bounds are out of order. -/
def clamp (x lo hi : F) : Option F :=
  if le lo hi then some (if lt x lo then lo else if lt hi x then hi else x) else none

def saturatingAdd (n : UInt32) : UInt32 := if n = 0xFFFFFFFF then n else n + 1

def Rect.center (r : Rect F) : Point F := ⟨r.x + r.w / two, r.y + r.h / two⟩

namespace Ellipse

def area (e : Ellipse F) : F := pi * e.rx * e.ry

def bbox (e : Ellipse F) : Rect F := ⟨e.cx - e.rx, e.cy - e.ry, two * e.rx, two * e.ry⟩

def beq (a b : Ellipse F) : Bool :=
  eq a.cx b.cx && eq a.cy b.cy && eq a.rx b.rx && eq a.ry b.ry

/-- The ellipse inscribed in a rectangle. -/
def inscribed (r : Rect F) : Ellipse F := ⟨r.center.x, r.center.y, r.w / two, r.h / two⟩

end Ellipse

def bboxIntersectionArea (a b : Rect F) : F :=
  let w := min (a.x + a.w) (b.x + b.w) - max a.x b.x
  let h := min (a.y + a.h) (b.y + b.h) - max a.y b.y
  if lt 0 w && lt 0 h then w * h else 0

namespace KeyTouchStats

def new : KeyTouchStats F := ⟨0, 0, 0, 0, 0, 0⟩

/-- Welford's update. The count wraps around as it does in a release build. -/
def add (s : KeyTouchStats F) (p : Point F) : KeyTouchStats F :=
  let samples := s.samples + 1
  let n := ofU32 samples
  let dx := p.x - s.meanX
  let dy := p.y - s.meanY
  let meanX := s.meanX + dx / n
  let meanY := s.meanY + dy / n
  let dx2 := p.x - meanX
  let dy2 := p.y - meanY
  ⟨samples, meanX, meanY, s.m2X + dx * dx2, s.m2Y + dy * dy2, s.covXY + dx * dy2⟩

def varianceX (s : KeyTouchStats F) : F := if s.samples = 0 then 0 else s.m2X / ofU32 s.samples

def varianceY (s : KeyTouchStats F) : F := if s.samples = 0 then 0 else s.m2Y / ofU32 s.samples

def stdX (s : KeyTouchStats F) : F := sqrt s.varianceX

def stdY (s : KeyTouchStats F) : F := sqrt s.varianceY

end KeyTouchStats

/-- The first constraint that an ellipse violates. -/
def GeometryConstraints.violatedBy (c : GeometryConstraints F) (visual : Rect F) (hit : Ellipse F)
    (neighbors : List (Ellipse F)) : Option ConstraintViolation :=
  let center := visual.center
  let rx0 := visual.w / two
  let ry0 := visual.h / two
  if lt (c.maxCenterDx + tolerance) (abs (hit.cx - center.x)) then some .centerDisplacement
  else if lt (c.maxCenterDy + tolerance) (abs (hit.cy - center.y)) then some .centerDisplacement
  else if lt (rx0 + c.maxExpansionX + tolerance) hit.rx then some .expansion
  else if lt (ry0 + c.maxExpansionY + tolerance) hit.ry then some .expansion
  else if lt hit.rx (c.minRadiusX - tolerance) || lt hit.ry (c.minRadiusY - tolerance) then
    some .minimumSize
  else if lt hit.area (c.minAccessibleArea - tolerance) then some .minimumSize
  else
    let b := hit.bbox
    if neighbors.any fun nb =>
        let bn := nb.bbox
        let inter := bboxIntersectionArea b bn
        let smaller := min b.w bn.w * min b.h bn.h
        lt 0 smaller && lt (c.maxBboxOverlap * smaller + tolerance) inter then
      some .overlap
    else none

def shrinkBbox (e : Ellipse F) (amount : F) : Ellipse F :=
  ⟨e.cx, e.cy, max (e.rx - amount / two) smallest, max (e.ry - amount / two) smallest⟩

def lerp (a b : Ellipse F) (t : F) : Option (Ellipse F) := do
  let t ← clamp t 0 1
  return ⟨a.cx + (b.cx - a.cx) * t, a.cy + (b.cy - a.cy) * t, a.rx + (b.rx - a.rx) * t,
    a.ry + (b.ry - a.ry) * t⟩

namespace KeyGeometry

def new (r : Rect F) : KeyGeometry F := ⟨r, .inscribed r, .new, 0, none⟩

/-- The expected cost of a key under an ellipse. -/
def cost (g : KeyGeometry F) (e : Ellipse F) : F :=
  let st := g.stats
  if st.samples = 0 then 0
  else
    let ex2 := st.varianceX + (st.meanX - e.cx) * (st.meanX - e.cx)
    let ey2 := st.varianceY + (st.meanY - e.cy) * (st.meanY - e.cy)
    let d := ex2 / max (e.rx * e.rx) epsilon + ey2 / max (e.ry * e.ry) epsilon
    ofU32 (if g.frequency = 0 then 1 else g.frequency) * d

end KeyGeometry

namespace AdaptiveGeometry

/-- The controller over a visual geometry: every hit region is inscribed in its rectangle. -/
def new (config : AdaptiveConfig F) (constraints : GeometryConstraints F) (visual : List (Rect F))
    (neighbors : List (List ℕ)) : AdaptiveGeometry F :=
  ⟨config, constraints, visual.map .new, neighbors, 0, visual.map fun _ => none⟩

def setEnabled (g : AdaptiveGeometry F) (enabled : Bool) : AdaptiveGeometry F :=
  { g with config := { g.config with enabled } }

def setFrozen (g : AdaptiveGeometry F) (frozen : Bool) : AdaptiveGeometry F :=
  { g with config := { g.config with frozen } }

def reset (g : AdaptiveGeometry F) : AdaptiveGeometry F :=
  { g with
    keys := g.keys.map fun k =>
      { k with hit := .inscribed k.visual, stats := .new, frequency := 0, lastLimit := none }
    samplesSinceOptimize := 0
    lastProposals := g.keys.map fun _ => none }

def recordHit (g : AdaptiveGeometry F) (key : ℕ) (p : Point F) : AdaptiveGeometry F :=
  if g.keys.length ≤ key then g
  else
    { g with
      keys := g.keys.modify key fun k =>
        { k with stats := k.stats.add p, frequency := saturatingAdd k.frequency }
      samplesSinceOptimize := saturatingAdd g.samplesSinceOptimize }

/-- The ellipse that a key's statistics speak for. -/
def candidate (g : AdaptiveGeometry F) (i : ℕ) : Option (Ellipse F) := do
  let k ← g.keys[i]?
  let c := k.visual.center
  let rx0 := k.visual.w / two
  let ry0 := k.visual.h / two
  let st := k.stats
  let eligible := decide (g.config.minSamples ≤ st.samples)
  let biasX := if eligible && le (g.config.confidence * rx0) (abs (st.meanX - c.x)) then
    st.meanX - c.x else 0
  let biasY := if eligible && le (g.config.confidence * ry0) (abs (st.meanY - c.y)) then
    st.meanY - c.y else 0
  let cx ← clamp (c.x + biasX) (c.x - g.constraints.maxCenterDx) (c.x + g.constraints.maxCenterDx)
  let cy ← clamp (c.y + biasY) (c.y - g.constraints.maxCenterDy) (c.y + g.constraints.maxCenterDy)
  let rx ← clamp (rx0 + st.stdX * half) g.constraints.minRadiusX
    (rx0 + g.constraints.maxExpansionX)
  let ry ← clamp (ry0 + st.stdY * half) g.constraints.minRadiusY
    (ry0 + g.constraints.maxExpansionY)
  return ⟨cx, cy, rx, ry⟩

/-- Two neighbours whose boxes overlap too much shrink by their shares of the excess. -/
def compete (g : AdaptiveGeometry F) (i : ℕ) (cand : List (Ellipse F)) (j : ℕ) :
    Option (List (Ellipse F)) :=
  if j ≤ i then some cand
  else do
    let ci ← cand[i]?
    let cj ← cand[j]?
    let bi := ci.bbox
    let bj := cj.bbox
    let inter := bboxIntersectionArea bi bj
    let smaller := min bi.w bj.w * min bi.h bj.h
    if le smaller 0 || le inter (g.constraints.maxBboxOverlap * smaller) then some cand
    else
      let excess := inter - g.constraints.maxBboxOverlap * smaller
      let diagI := min bi.w bi.h
      let diagJ := min bj.w bj.h
      let total := diagI + diagJ
      if le total 0 then some cand
      else
        let cand := cand.set i (shrinkBbox ci (excess * (diagI / total)))
        some (cand.set j (shrinkBbox cj (excess * (diagJ / total))))

def competition (g : AdaptiveGeometry F) (cand : List (Ellipse F)) : Option (List (Ellipse F)) :=
  (List.range g.keys.length).foldlM
    (fun cand i => do
      let js ← g.neighbors[i]?
      js.foldlM (g.compete i) cand) cand

def neighborEllipses (g : AdaptiveGeometry F) (i : ℕ) : Option (List (Ellipse F)) := do
  let js ← g.neighbors[i]?
  js.mapM fun j => g.keys[j]?.map KeyGeometry.hit

/-- An ellipse that still overlaps its neighbours too much goes half of the way only. -/
def pullBack (c : GeometryConstraints F) (k : KeyGeometry F) (nbs : List (Ellipse F))
    (out : Ellipse F) : Option (Ellipse F) :=
  if c.violatedBy k.visual out nbs = some .overlap then lerp k.hit out half else some out

/-- Clamp an ellipse to the hard constraints and note the constraint that still limits it. -/
def clampToConstraints (g : AdaptiveGeometry F) (i : ℕ) (e : Ellipse F) :
    Option (Ellipse F × AdaptiveGeometry F) := do
  let k ← g.keys[i]?
  let c := k.visual.center
  let rx0 := k.visual.w / two
  let ry0 := k.visual.h / two
  let cx ← clamp e.cx (c.x - g.constraints.maxCenterDx) (c.x + g.constraints.maxCenterDx)
  let cy ← clamp e.cy (c.y - g.constraints.maxCenterDy) (c.y + g.constraints.maxCenterDy)
  let rx ← clamp e.rx g.constraints.minRadiusX (rx0 + g.constraints.maxExpansionX)
  let ry ← clamp e.ry g.constraints.minRadiusY (ry0 + g.constraints.maxExpansionY)
  let out : Ellipse F := ⟨cx, cy, rx, ry⟩
  let out := if lt out.area g.constraints.minAccessibleArea then
      let scale := sqrt (g.constraints.minAccessibleArea / max out.area epsilon)
      { out with
        rx := max (out.rx * scale) g.constraints.minRadiusX
        ry := max (out.ry * scale) g.constraints.minRadiusY }
    else out
  let nbs ← g.neighborEllipses i
  let out ← pullBack g.constraints k nbs out
  let limit := g.constraints.violatedBy k.visual out nbs
  return (out, { g with keys := g.keys.set i { k with lastLimit := limit } })

/-- Update the entries of a list one after the other, each from its index and the geometry
that the ones before have left. -/
def updateEach {α : Type} (f : AdaptiveGeometry F → ℕ → α → Option (α × AdaptiveGeometry F)) :
    AdaptiveGeometry F → ℕ → List α → Option (List α × AdaptiveGeometry F)
  | g, _, [] => some ([], g)
  | g, i, a :: as => do
    let (a', g₁) ← f g i a
    let (as', g₂) ← updateEach f g₁ (i + 1) as
    return (a' :: as', g₂)

/-- A candidate is taken, or part of the way to it, if it is better than the current region. -/
def gateKey (config : AdaptiveConfig F) (k : KeyGeometry F) (e : Ellipse F) :
    Option (Option (Ellipse F)) :=
  if e.beq k.hit then some none
  else
    let curCost := k.cost k.hit
    let candCost := k.cost e
    if eq curCost 0 then some (some e)
    else if lt config.hysteresis ((curCost - candCost) / curCost) then
      (lerp k.hit e config.maxUpdate).map some
    else some none

def gate (g : AdaptiveGeometry F) (cand : List (Ellipse F)) (i : ℕ) :
    Option (Option (Ellipse F)) := do
  let k ← g.keys[i]?
  let e ← cand[i]?
  gateKey g.config k e

def evaluateAndPropose (g : AdaptiveGeometry F) :
    Option (List (Option (Ellipse F)) × AdaptiveGeometry F) := do
  let cand ← (List.range g.keys.length).mapM g.candidate
  let cand ← g.competition cand
  let (cand, g) ← updateEach clampToConstraints g 0 cand
  let out ← (List.range g.keys.length).mapM (g.gate cand)
  return (out, g)

def clampProposal (g : AdaptiveGeometry F) (i : ℕ) :
    Option (Ellipse F) → Option (Option (Ellipse F) × AdaptiveGeometry F)
  | none => some (none, g)
  | some e => do
    let (e, g) ← g.clampToConstraints i e
    return (some e, g)

/-- Make a proposal the hit region of its key. -/
def applyProposal (keys : List (KeyGeometry F)) (prop : Option (Ellipse F) × ℕ) :
    Option (List (KeyGeometry F)) :=
  match prop.1 with
  | none => some keys
  | some e => do
    let k ← keys[prop.2]?
    return keys.set prop.2 { k with hit := e }

def optimize (g : AdaptiveGeometry F) : Option (AdaptiveGeometry F) :=
  if !g.config.enabled || g.config.frozen then g.evaluateAndPropose.map Prod.snd
  else do
    let (proposals, g) ← g.evaluateAndPropose
    let (proposals, g) ← updateEach clampProposal g 0 proposals
    let keys ← proposals.zipIdx.foldlM applyProposal g.keys
    return { g with keys, lastProposals := proposals, samplesSinceOptimize := 0 }

def optimizeDue (g : AdaptiveGeometry F) : Bool :=
  decide (g.config.optimizeEvery ≤ g.samplesSinceOptimize)

def feedSample (g : AdaptiveGeometry F) (s : Sample F) : Option (AdaptiveGeometry F) :=
  let g := g.recordHit s.key ⟨s.x, s.y⟩
  if g.optimizeDue then g.optimize else some g

/-- Record a dataset, with a pass of the optimiser whenever one is due and at the end. -/
def feed (g : AdaptiveGeometry F) (dataset : List (Sample F)) : Option (AdaptiveGeometry F) := do
  let g ← dataset.foldlM feedSample g
  if 0 < g.samplesSinceOptimize then g.optimize else some g

end AdaptiveGeometry

end Ferrokey.Geometry
