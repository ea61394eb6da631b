import DssPrime.Run.Outcome

/-!
# Planning the branch veneers of an image

A branch field reaches a bounded distance.  A branch whose target is farther is routed through a
*veneer*: a short body standing at a function boundary within the branch's reach, which itself
reaches the target.  This is the model of `link/branch_veneers.cpp` from the layout on: the planner
`planBranchVeneers`, one sweep over the branch sites in text order, and the measurement
`findVeneerPlanMisfit` of a plan on the layout it produces.

Sizes and offsets are the source's 64-bit unsigned integers, distances its 64-bit signed ones; both
are kept as unbounded numbers that each operation reduces (`uint64`, `int64`).  An index is a
natural number, and the index `-1` of the source is `none`.
-/

namespace DssPrime

def uint64 (x : ℕ) : ℕ := x % 2 ^ 64

def int64 (x : ℤ) : ℤ := x.bmod (2 ^ 64)

def int64Min : ℤ := -2 ^ 63

def int64Max : ℤ := 2 ^ 63 - 1

/-- The distances that a branch can encode. -/
structure RelocReach where
  minDelta : ℤ
  maxDelta : ℤ
  deriving Inhabited

namespace RelocReach

def inWindow (r : RelocReach) (d : ℤ) : Bool := decide (d ≥ r.minDelta ∧ d ≤ r.maxDelta)

def symmetricReach (r : RelocReach) : ℤ :=
  let back := if r.minDelta = int64Min then int64Max else int64 (-r.minDelta)
  min r.maxDelta back

/-- A window narrowed by `m` on both sides, except a side that is unbounded. -/
def shrink (r : RelocReach) (m : ℤ) : RelocReach where
  minDelta := if r.minDelta = int64Min then r.minDelta else int64 (r.minDelta + m)
  maxDelta := if r.maxDelta = int64Max then r.maxDelta else int64 (r.maxDelta - m)

end RelocReach

/-- The function index that marks an import's call stub. -/
def kVeneerTargetIsStub : ℕ := 0xFFFFFFFF

structure VeneerLayoutTarget where
  function : ℕ := kVeneerTargetIsStub
  pastTextEnd : ℕ := 0
  addend : ℤ := 0
  deriving Inhabited

structure VeneerLayoutSite where
  function : ℕ := 0
  offset : ℕ := 0
  target : ℕ := 0
  reach : ℕ := 0
  routable : Bool := true

structure VeneerBodyModel where
  size : ℕ
  /-- The distances from its start to a target that it can encode. -/
  reach : RelocReach
  deriving Inhabited

/-- All that the planner knows of a module. -/
structure VeneerLayout where
  functionSizes : List ℕ
  sites : List VeneerLayoutSite
  targets : List VeneerLayoutTarget
  reaches : List RelocReach
  bodies : List VeneerBodyModel

inductive VeneerPlanStatus where
  | ok
  | notRoutable
  | noBoundaryInReach
  /-- No body reaches the target from where the veneer must stand. -/
  | bodyOutOfReach
  | malformed
  deriving DecidableEq

/-- A veneer and where it stands. -/
structure PlannedVeneer where
  /-- It stands immediately before this function, or after the last one. -/
  boundary : ℕ
  target : ℕ
  body : ℕ
  deriving DecidableEq, Inhabited

/-- The work that was done, for the report. -/
structure BranchVeneerWork where
  sitesExamined : ℕ := 0
  farSites : ℕ := 0
  pointerAdvances : ℕ := 0
  veneersPlaced : ℕ := 0
  veneersReused : ℕ := 0
  behindPlacements : ℕ := 0
  bodyProbes : ℕ := 0

/-- The veneers, and the one that each branch goes through. -/
structure VeneerPlan where
  status : VeneerPlanStatus := .ok
  siteVeneer : List (Option ℕ) := []
  veneers : List PlannedVeneer := []
  failedSite : ℕ := 0
  failedDelta : ℤ := 0
  failedVeneerDelta : ℤ := 0
  margin : ℕ := 0
  /-- Whether the margin was cut down to half the narrowest reach. -/
  marginCapped : Bool := false
  work : BranchVeneerWork := {}

namespace VeneerLayout

def n (L : VeneerLayout) : ℕ := L.functionSizes.length

def sizeAt (L : VeneerLayout) (i : ℕ) : ℕ := L.functionSizes.getD i 0

def start (L : VeneerLayout) : ℕ → ℕ
  | 0 => 0
  | i + 1 => uint64 (L.start i + L.sizeAt i)

def posOf (L : VeneerLayout) (start : ℕ → ℕ) (t : VeneerLayoutTarget) : ℤ :=
  let base := if t.function = kVeneerTargetIsStub then uint64 (start L.n + t.pastTextEnd)
    else start t.function
  int64 (int64 base + t.addend)

def siteAt (start : ℕ → ℕ) (s : VeneerLayoutSite) : ℤ :=
  int64 (uint64 (start s.function + s.offset))

def target (L : VeneerLayout) (i : ℕ) : VeneerLayoutTarget := L.targets.getD i default

def reach (L : VeneerLayout) (i : ℕ) : RelocReach := L.reaches.getD i default

def body (L : VeneerLayout) (i : ℕ) : VeneerBodyModel := L.bodies.getD i default

def delta (L : VeneerLayout) (s : VeneerLayoutSite) : ℤ :=
  int64 (L.posOf L.start (L.target s.target) - siteAt L.start s)

def badSite (L : VeneerLayout) (prev : Option VeneerLayoutSite) (s : VeneerLayoutSite) : Bool :=
  decide (L.n ≤ s.function) || decide (L.targets.length ≤ s.target) ||
    decide (L.reaches.length ≤ s.reach) || decide (L.sizeAt s.function ≤ s.offset) ||
    match prev with
    | none => false
    | some q => decide (s.function < q.function) ||
        (decide (s.function = q.function) && decide (s.offset < q.offset))

def firstBadSite (L : VeneerLayout) (prev : Option VeneerLayoutSite) (si : ℕ) :
    List VeneerLayoutSite → Option ℕ
  | [] => none
  | s :: rest => if L.badSite prev s then some si else L.firstBadSite (some s) (si + 1) rest

def badTarget (L : VeneerLayout) (t : VeneerLayoutTarget) : Bool :=
  decide (t.function ≠ kVeneerTargetIsStub) && decide (L.n ≤ t.function)

def halfMin (L : VeneerLayout) : ℤ :=
  L.reaches.foldl (fun h r => min h (r.symmetricReach.tdiv 2)) int64Max

/-- Whether a site is farther from its target than half its reach. -/
def isFar (L : VeneerLayout) (s : VeneerLayoutSite) : Bool :=
  let d := L.delta s
  let h := (L.reach s.reach).symmetricReach.tdiv 2
  decide (d > h) || decide (d < -h)

def farSites (L : VeneerLayout) : ℕ := L.sites.countP L.isFar

def largestBody (L : VeneerLayout) : ℕ := L.bodies.foldl (fun a b => max a b.size) 0

/-- The state of the sweep over the branches. -/
structure Sweep where
  plan : VeneerPlan
  latest : ℕ → Option ℕ
  ahead : ℕ → ℕ

def window (L : VeneerLayout) (m : ℤ) (s : VeneerLayoutSite) : RelocReach where
  minDelta := int64 ((L.reach s.reach).minDelta + m)
  maxDelta := int64 ((L.reach s.reach).maxDelta - m)

def boundaryDelta (L : VeneerLayout) (b : ℕ) (c : ℤ) : ℤ := int64 (int64 (L.start b) - c)

def reuse (L : VeneerLayout) (m : ℤ) (st : Sweep) (s : VeneerLayoutSite) : Option ℕ :=
  match st.latest s.target with
  | none => none
  | some v =>
    let d := L.boundaryDelta (st.plan.veneers.getD v default).boundary (siteAt L.start s)
    if (L.window m s).inWindow d then some v else none

/-- Moves a boundary pointer forward while the next boundary is in reach; at most `k` times. -/
def advance (L : VeneerLayout) (c maxDelta : ℤ) : ℕ → ℕ → ℕ
  | 0, p => p
  | k + 1, p =>
    if p < L.n ∧ L.boundaryDelta (p + 1) c ≤ maxDelta then L.advance c maxDelta k (p + 1) else p

/-- The boundary for a new veneer of a site, with the pointer at `p`: the furthest one ahead, else
the start of the site's own function. -/
def boundaryFor (L : VeneerLayout) (m : ℤ) (s : VeneerLayoutSite) (p : ℕ) : Option ℕ :=
  if p > s.function then some p
  else if L.boundaryDelta s.function (siteAt L.start s) ≥ (L.window m s).minDelta then
    some s.function
  else none

def veneerDelta (L : VeneerLayout) (b : ℕ) (t : VeneerLayoutTarget) : ℤ :=
  int64 (L.posOf L.start t - int64 (L.start b))

/-- The first body that covers a distance with the margin to spare. -/
def bodyFor (L : VeneerLayout) (m : ℤ) (vd : ℤ) : ℕ :=
  L.bodies.findIdx fun b => (b.reach.shrink m).inWindow vd

def place (L : VeneerLayout) (m : ℤ) (st : Sweep) (si : ℕ) (s : VeneerLayoutSite) (p : ℕ) :
    Except VeneerPlan Sweep :=
  let plan := st.plan
  let work := plan.work
  match L.boundaryFor m s p with
  | none => .error { plan with
      status := .noBoundaryInReach, failedSite := si, failedDelta := L.delta s }
  | some boundary =>
    let vd := L.veneerDelta boundary (L.target s.target)
    let body := L.bodyFor m vd
    let work := { work with
      behindPlacements := work.behindPlacements + if p > s.function then 0 else 1
      bodyProbes := work.bodyProbes + min (body + 1) L.bodies.length }
    if body = L.bodies.length then
      .error { plan with
        status := .bodyOutOfReach, failedSite := si, failedDelta := L.delta s
        failedVeneerDelta := vd, work := work }
    else
      let idx := plan.veneers.length
      let highest := match st.latest s.target with
        | none => true
        | some v => decide ((plan.veneers.getD v default).boundary ≤ boundary)
      .ok { st with
        plan := { plan with
          veneers := plan.veneers ++ [⟨boundary, s.target, body⟩]
          siteVeneer := plan.siteVeneer.set si (some idx)
          work := { work with veneersPlaced := work.veneersPlaced + 1 } }
        latest := if highest then Function.update st.latest s.target (some idx) else st.latest }

def visit (L : VeneerLayout) (m : ℤ) (st : Sweep) (s : VeneerLayoutSite) (si : ℕ) :
    Except VeneerPlan Sweep :=
  let plan := { st.plan with
    work := { st.plan.work with sitesExamined := st.plan.work.sitesExamined + 1 } }
  if (L.window m s).inWindow (L.delta s) then .ok { st with plan := plan }
  else if !s.routable then
    .error { plan with status := .notRoutable, failedSite := si, failedDelta := L.delta s }
  else match L.reuse m st s with
    | some v =>
      .ok { st with plan := { plan with
        siteVeneer := plan.siteVeneer.set si (some v)
        work := { plan.work with veneersReused := plan.work.veneersReused + 1 } } }
    | none =>
      let p := st.ahead s.reach
      let p' := L.advance (siteAt L.start s) (L.window m s).maxDelta (L.n - p) p
      L.place m { st with
        plan := { plan with
          work := { plan.work with pointerAdvances := plan.work.pointerAdvances + (p' - p) } }
        ahead := Function.update st.ahead s.reach p' } si s p'

def sweep (L : VeneerLayout) (m : ℤ) (plan : VeneerPlan) : Except VeneerPlan Sweep :=
  L.sites.zipIdx.foldlM (fun st s => L.visit m st s.1 s.2)
    { plan := plan, latest := fun _ => none, ahead := fun _ => 0 }

/-- The margin, and whether it was capped at half the narrowest reach. -/
def marginOf (L : VeneerLayout) : ℕ × Bool :=
  let margin := uint64 (L.farSites * L.largestBody)
  if margin > L.halfMin.toNat then (L.halfMin.toNat, true) else (margin, false)

def planBranchVeneers (L : VeneerLayout) : VeneerPlan :=
  let plan : VeneerPlan := { siteVeneer := List.replicate L.sites.length none }
  match L.firstBadSite none 0 L.sites with
  | some si => { plan with status := .malformed, failedSite := si }
  | none =>
    if L.targets.any L.badTarget then { plan with status := .malformed }
    else
      let plan := { plan with work := { plan.work with farSites := L.farSites } }
      if L.farSites = 0 then plan
      else if L.bodies.any fun b => b.size = 0 then { plan with status := .malformed }
      else if L.halfMin ≤ 0 ∨ L.largestBody = 0 then { plan with status := .malformed }
      else
        let plan := { plan with margin := L.marginOf.1, marginCapped := L.marginOf.2 }
        match L.sweep (int64 L.marginOf.1) plan with
        | .ok st => st.plan
        | .error plan => plan

/-- A branch that does not reach on the final layout. -/
structure VeneerMisfit where
  isVeneer : Bool
  index : ℕ
  delta : ℤ

def sizeOf (L : VeneerLayout) (v : PlannedVeneer) : ℕ := (L.body v.body).size

def fill (L : VeneerLayout) (filled : ℕ → ℕ) (v : PlannedVeneer) : ℕ → ℕ :=
  Function.update filled v.boundary (uint64 (filled v.boundary + L.sizeOf v))

def islandBytes (L : VeneerLayout) (vs : List PlannedVeneer) : ℕ → ℕ := vs.foldl L.fill fun _ => 0

/-- The bytes of the functions and of the islands before boundary `b`. -/
def before (L : VeneerLayout) (vs : List PlannedVeneer) : ℕ → ℕ × ℕ
  | 0 => (0, 0)
  | b + 1 =>
    let (before, inserted) := L.before vs b
    (uint64 (before + L.sizeAt b), uint64 (inserted + L.islandBytes vs b))

def islandBase (L : VeneerLayout) (vs : List PlannedVeneer) (b : ℕ) : ℕ :=
  let (before, inserted) := L.before vs b
  uint64 (before + inserted)

def fstart (L : VeneerLayout) (vs : List PlannedVeneer) (b : ℕ) : ℕ :=
  let (before, inserted) := L.before vs b
  uint64 (before + uint64 (inserted + L.islandBytes vs b))

/-- Where the veneers stand, in placement order within every island. -/
def stack (L : VeneerLayout) (base : ℕ → ℕ) (filled : ℕ → ℕ) : List PlannedVeneer → List ℕ
  | [] => []
  | v :: vs => uint64 (base v.boundary + filled v.boundary) :: L.stack base (L.fill filled v) vs

def vpos (L : VeneerLayout) (vs : List PlannedVeneer) : List ℕ :=
  L.stack (L.islandBase vs) (fun _ => 0) vs

def siteMisfit (L : VeneerLayout) (plan : VeneerPlan) (s : VeneerLayoutSite) (si : ℕ) :
    Option VeneerMisfit :=
  let c := siteAt (L.fstart plan.veneers) s
  let aim := match plan.siteVeneer.getD si none with
    | none => L.posOf (L.fstart plan.veneers) (L.target s.target)
    | some v => int64 ((L.vpos plan.veneers).getD v 0)
  if (L.reach s.reach).inWindow (int64 (aim - c)) then none else some ⟨false, si, int64 (aim - c)⟩

def veneerMisfit (L : VeneerLayout) (plan : VeneerPlan) (v : PlannedVeneer) (i : ℕ) :
    Option VeneerMisfit :=
  let d := int64 (L.posOf (L.fstart plan.veneers) (L.target v.target)
    - int64 ((L.vpos plan.veneers).getD i 0))
  if (L.body v.body).reach.inWindow d then none else some ⟨true, i, d⟩

def strayVeneer (L : VeneerLayout) (v : PlannedVeneer) (i : ℕ) : Option VeneerMisfit :=
  if L.bodies.length ≤ v.body ∨ L.n < v.boundary then some ⟨true, i, 0⟩ else none

def findVeneerPlanMisfit (L : VeneerLayout) (plan : VeneerPlan) : Option VeneerMisfit :=
  (plan.veneers.zipIdx.findSome? fun v => L.strayVeneer v.1 v.2) <|>
  (L.sites.zipIdx.findSome? fun s => L.siteMisfit plan s.1 s.2) <|>
  (plan.veneers.zipIdx.findSome? fun v => L.veneerMisfit plan v.1 v.2)

end VeneerLayout

end DssPrime
