import DssPrime.Mir.Cfg

/-!
# Dominator trees, and the scratch they are computed in

The model of `mir_dom.cpp`: the dominator tree, the children of the tree, the dominance frontier
and the post-dominator tree of a function, and the queries on them.  The trees, the children and
the frontier are computed in two ways, by a fresh overload that allocates its arrays and by one
that works in a scratch bound to the module, whose arrays keep what earlier functions left there
except for the slots that are reset.

An array is a function on slots; an unset slot is `none`, and so is the block id that names no
block.  The fixpoint and the walk of the reverse graph have no cap in the source: they take the
fuel they may use, and running out of it is reported.
-/

namespace DssPrime

inductive MirDomAbort where
  | staleScratch
  | predsSize
  | stepCap
  | outOfFuel

/-- The arrays of the fixpoint. -/
structure ChkArrays where
  idom : ℕ → Option ℕ
  gaveUp : ℕ → Bool
  rpoIndex : ℕ → Option ℕ

namespace ChkArrays

def unset : ChkArrays := ⟨fun _ => none, fun _ => false, fun _ => none⟩

def rpo (a : ChkArrays) (s : ℕ) : ℕ := (a.rpoIndex s).getD 0xFFFFFFFF

def climb (a : ChkArrays) : ℕ → ℕ → ℕ → Option (ℕ × ℕ)
  | steps, f, g =>
    if a.rpo f > a.rpo g then
      match a.idom f with
      | none => none
      | some next =>
        if a.rpoIndex next = none then none
        else match steps with
          | 0 => none
          | steps + 1 => a.climb steps next g
    else some (f, steps)

/-- The rounds of `intersect`; the first argument bounds their number, which the steps do too. -/
def intersectLoop (a : ChkArrays) : ℕ → ℕ → ℕ → ℕ → Option ℕ
  | _, 0, f, g => if f = g then some f else none
  | 0, _ + 1, f, g => if f = g then some f else none
  | rounds + 1, steps + 1, f, g =>
    if f = g then some f
    else if a.rpoIndex f = none ∨ a.rpoIndex g = none then none
    else match a.climb steps f g with
      | none => none
      | some (f', steps') =>
        match a.climb steps' g f' with
        | none => none
        | some (g', steps'') => a.intersectLoop rounds steps'' f' g'

/-- The nearest common dominator of two slots, within `cap` steps. -/
def intersect (a : ChkArrays) (cap f g : ℕ) : Option ℕ := a.intersectLoop cap cap f g

def meet (cap b : ℕ) (st : Option ℕ × ChkArrays) (p : ℕ) : Option ℕ × ChkArrays :=
  let (newIdom, a) := st
  if a.rpoIndex p = none then st
  else if a.idom p = none then st
  else match newIdom with
    | none => (some p, a)
    | some q =>
      match a.intersect cap q p with
      | none => (newIdom, { a with gaveUp := Function.update a.gaveUp b true })
      | some s => (some s, a)

/-- One slot of a round: the arrays and whether anything changed. -/
def relax (cap : ℕ) (preds : ℕ → List ℕ) (st : ChkArrays × Bool) (b : ℕ) : ChkArrays × Bool :=
  let (newIdom, a) := (preds b).foldl (meet cap b) (none, st.1)
  if newIdom ≠ none ∧ a.idom b ≠ newIdom then
    ({ a with idom := Function.update a.idom b newIdom }, true)
  else (a, st.2)

/-- The rounds until nothing changes. -/
def iterate (cap : ℕ) (order : List ℕ) (preds : ℕ → List ℕ) :
    ℕ → ChkArrays → Except MirDomAbort ChkArrays
  | 0, _ => .error .outOfFuel
  | fuel + 1, a =>
    let (a', changed) := order.tail.foldl (relax cap preds) (a, false)
    if changed then iterate cap order preds fuel a' else .ok a'

def index (order : List ℕ) (a : ChkArrays) : ChkArrays :=
  order.zipIdx.foldl
    (fun a b => { a with rpoIndex := Function.update a.rpoIndex b.1 (some b.2) }) a

def runChkCoreInto (fuel nodeCount entrySlot : ℕ) (order : List ℕ) (preds : ℕ → List ℕ)
    (a : ChkArrays) : Except MirDomAbort ChkArrays :=
  let a := index order a
  if entrySlot ≥ nodeCount then .ok a
  else
    iterate (nodeCount * 2 + 4) order preds fuel
      { a with idom := Function.update a.idom entrySlot (some entrySlot) }

end ChkArrays

/-- A function to analyse: its module's identity and size, its entry, its blocks in reverse
post-order and the predecessor map of the module. -/
structure MirDomInput where
  moduleId : ℕ
  blockCount : ℕ
  entry : ℕ
  order : List ℕ
  preds : List (List ℕ)
  order_lt : ∀ b ∈ order, b < blockCount

structure MirDomTree where
  size : ℕ
  idom : ℕ → Option ℕ
  gaveUp : ℕ → Bool

namespace MirDomTree

def unset (size : ℕ) : MirDomTree := ⟨size, fun _ => none, fun _ => false⟩

def take (a : ChkArrays) (t : MirDomTree) (s : ℕ) : MirDomTree :=
  { t with
    idom := Function.update t.idom s (a.idom s)
    gaveUp := Function.update t.gaveUp s (a.gaveUp s) }

/-- The dominator of a slot, if it names a block. -/
def validIdom (t : MirDomTree) (s : ℕ) : Option ℕ :=
  if s < t.size then (t.idom s).filter (· ≠ 0) else none

end MirDomTree

def computeMirDomTree (fuel : ℕ) (A : MirDomInput) : Except MirDomAbort MirDomTree :=
  if A.entry = 0 then .ok (.unset A.blockCount)
  else do
    let core ← ChkArrays.unset.runChkCoreInto fuel A.blockCount A.entry A.order
      fun b => A.preds.getD b []
    return (List.range A.blockCount).foldl (MirDomTree.take core) (.unset A.blockCount)

inductive MirDomResult where
  | dominates | doesNot | gaveUp
  deriving DecidableEq

/-- Climbs from `cur` looking for `a`; the first argument is the steps left. -/
def idomWalk (idom : ℕ → Option ℕ) (a : ℕ) : ℕ → ℕ → MirDomResult
  | steps, cur =>
    match idom cur with
    | none => .doesNot
    | some next =>
      if next = 0 ∨ next = cur then .doesNot
      else match steps with
        | 0 => .gaveUp
        | steps + 1 => if next = a then .dominates else idomWalk idom a steps next

def mirDominatesBlock (a b : ℕ) (t : MirDomTree) : MirDomResult :=
  if a = 0 ∨ b = 0 then .doesNot
  else if a = b then .dominates
  else if b ≥ t.size then .doesNot
  else idomWalk t.idom a (t.size + 2) b

def addChild (t : MirDomTree) (children : ℕ → List ℕ) (i : ℕ) : ℕ → List ℕ :=
  if i < 1 then children
  else if i < t.size ∧ t.gaveUp i then children
  else match t.validIdom i with
    | none => children
    | some parent =>
      if parent = i then children
      else Function.update children parent (children parent ++ [i])

def mirDomTreeChildren (A : MirDomInput) (t : MirDomTree) : ℕ → List ℕ :=
  (List.range A.blockCount).foldl (addChild t) fun _ => []

structure MirFrontier where
  df : ℕ → List ℕ
  first : List ℕ

namespace MirFrontier

def push (F : MirFrontier) (slot b : ℕ) : MirFrontier where
  df := Function.update F.df slot (F.df slot ++ [b])
  first := if F.df slot = [] then F.first ++ [slot] else F.first

def climb (t : MirDomTree) (b bIdom : ℕ) : ℕ → ℕ → MirFrontier → Except MirDomAbort MirFrontier
  | steps, runner, F =>
    if runner ≠ 0 ∧ runner ≠ bIdom then
      match steps with
      | 0 => .error .stepCap
      | steps + 1 =>
        let F := F.push runner b
        match t.idom runner with
        | none => .ok F
        | some next => if next = 0 ∨ next = runner then .ok F else climb t b bIdom steps next F
    else .ok F

def contribution (t : MirDomTree) (preds : List (List ℕ)) (F : MirFrontier) (i : ℕ) :
    Except MirDomAbort MirFrontier :=
  if i < 1 then .ok F
  else if i < t.size ∧ t.gaveUp i then .ok F
  else
    let pb := preds.getD i []
    if pb.length < 2 then .ok F
    else match t.validIdom i with
      | none => .ok F
      | some bIdom => pb.foldlM (fun F p => climb t i bIdom (t.size * 2 + 4) p F) F

end MirFrontier

def mirDominanceFrontier (A : MirDomInput) (t : MirDomTree) : Except MirDomAbort (ℕ → List ℕ) := do
  let F ← (List.range A.blockCount).foldlM (MirFrontier.contribution t A.preds) ⟨fun _ => [], []⟩
  return F.df

/-- The worklist of the iterated frontier, top first, the blocks that were ever on it and the
frontier so far. -/
structure MirIdf where
  worklist : List ℕ
  onWorklist : List ℕ
  idf : List ℕ

def MirIdf.push (st : MirIdf) (f : ℕ) : MirIdf :=
  if f ∈ st.idf then st
  else if f ∈ st.onWorklist then { st with idf := st.idf ++ [f] }
  else ⟨f :: st.worklist, f :: st.onWorklist, st.idf ++ [f]⟩

/-- The rounds until the worklist is empty. -/
def MirIdf.run (size : ℕ) (df : ℕ → List ℕ) : ℕ → MirIdf → Except MirDomAbort (List ℕ)
  | _, ⟨[], _, idf⟩ => .ok idf
  | 0, ⟨_ :: _, _, _⟩ => .error .outOfFuel
  | fuel + 1, ⟨b :: worklist, on, idf⟩ =>
    if b ≥ size then MirIdf.run size df fuel ⟨worklist, on, idf⟩
    else MirIdf.run size df fuel ((df b).foldl MirIdf.push ⟨worklist, on, idf⟩)

def mirIteratedDominanceFrontier (fuel size : ℕ) (df : ℕ → List ℕ) (defBlocks : List ℕ) :
    Except MirDomAbort (List ℕ) :=
  MirIdf.run size df fuel ⟨defBlocks.reverse, defBlocks, []⟩

/-- Arrays that are kept from one function to the next. -/
structure MirDomScratch where
  moduleIdV : ℕ
  blockCount : ℕ
  core : ChkArrays
  tree : MirDomTree
  children : ℕ → List ℕ
  touched : List ℕ
  touchedSorted : List ℕ
  childrenFilled : Bool
  frontier : MirFrontier
  frontierFilled : Bool

/-- Drops repetitions that stand next to each other. -/
def unique : List ℕ → List ℕ
  | [] => []
  | [a] => [a]
  | a :: b :: l => if a = b then unique (b :: l) else a :: unique (b :: l)

namespace MirDomScratch

def empty : MirDomScratch where
  moduleIdV := 0
  blockCount := 0
  core := .unset
  tree := .unset 0
  children := fun _ => []
  touched := []
  touchedSorted := []
  childrenFilled := false
  frontier := ⟨fun _ => [], []⟩
  frontierFilled := false

def resetSlot (sc : MirDomScratch) (s : ℕ) : MirDomScratch :=
  { sc with
    core :=
      { idom := Function.update sc.core.idom s none
        gaveUp := Function.update sc.core.gaveUp s false
        rpoIndex := Function.update sc.core.rpoIndex s none }
    tree :=
      { sc.tree with
        idom := Function.update sc.tree.idom s none
        gaveUp := Function.update sc.tree.gaveUp s false }
    children := Function.update sc.children s [] }

def bind (A : MirDomInput) (sc : MirDomScratch) : Except MirDomAbort MirDomScratch :=
  if sc.blockCount = 0 ∧ sc.moduleIdV = 0 then
    .ok { sc with
      moduleIdV := A.moduleId
      blockCount := A.blockCount
      core := .unset
      tree := .unset A.blockCount
      children := fun _ => []
      frontier := { sc.frontier with df := fun _ => [] } }
  else if sc.moduleIdV ≠ A.moduleId ∨ sc.blockCount ≠ A.blockCount then .error .staleScratch
  else .ok sc

/-- Clears what the last function left. -/
def reset (sc : MirDomScratch) : MirDomScratch :=
  let sc := sc.touched.foldl resetSlot sc
  { sc with
    touched := []
    frontier := ⟨sc.frontier.first.foldl (fun df s => Function.update df s []) sc.frontier.df, []⟩
    frontierFilled := false }

def touchedBy (A : MirDomInput) : List ℕ :=
  A.order ++ if A.entry ≠ 0 ∧ A.entry < A.blockCount then [A.entry] else []

/-- Records what was computed, and that nothing is known of the children yet. -/
def record (A : MirDomInput) (sc : MirDomScratch) (core : ChkArrays) (tree : MirDomTree) :
    MirDomScratch :=
  { sc with
    core := core
    tree := tree
    touched := touchedBy A
    touchedSorted := unique ((touchedBy A).mergeSort (· ≤ ·))
    childrenFilled := false }

def computeInto (fuel : ℕ) (A : MirDomInput) (sc : MirDomScratch) :
    Except MirDomAbort MirDomScratch :=
  if A.entry = 0 then .ok (sc.record A sc.core sc.tree)
  else do
    let core ← sc.core.runChkCoreInto fuel A.blockCount A.entry A.order fun b => A.preds.getD b []
    return sc.record A core ((touchedBy A).foldl (MirDomTree.take core) sc.tree)

def computeMirDomTree (fuel : ℕ) (A : MirDomInput) (sc : MirDomScratch) :
    Except MirDomAbort MirDomScratch := do
  let sc ← sc.bind A
  if A.preds.length ≠ A.blockCount then .error .predsSize else sc.reset.computeInto fuel A

def mirDomTreeChildren (sc : MirDomScratch) : MirDomScratch :=
  if sc.childrenFilled then sc
  else { sc with
    childrenFilled := true
    children := sc.touchedSorted.foldl (addChild sc.tree) sc.children }

def mirDominanceFrontier (A : MirDomInput) (sc : MirDomScratch) :
    Except MirDomAbort MirDomScratch :=
  if A.preds.length ≠ A.blockCount then .error .predsSize
  else if sc.frontierFilled then .ok sc
  else do
    let F ← sc.touchedSorted.foldlM (MirFrontier.contribution sc.tree A.preds) sc.frontier
    return { sc with frontierFilled := true, frontier := F }

end MirDomScratch

structure MirPostDomTree where
  ipdom : ℕ → Option ℕ
  gaveUp : ℕ → Bool
  virtualExit : ℕ

/-- The buffers of the reversed graph. -/
structure PostDomBuffers where
  revPreds : ℕ → List ℕ
  revSuccs : ℕ → List ℕ
  visited : ℕ → Bool
  order : List ℕ
  core : ChkArrays
  tree : MirPostDomTree
  touchedRev : List ℕ
  touchedNodes : List ℕ

namespace PostDomBuffers

def fresh (n : ℕ) : PostDomBuffers where
  revPreds := fun _ => []
  revSuccs := fun _ => []
  visited := fun _ => false
  order := []
  core := .unset
  tree := ⟨fun _ => none, fun _ => false, n⟩
  touchedRev := []
  touchedNodes := []

/-- Adds a predecessor in the reverse graph. -/
def pushRevPred (B : PostDomBuffers) (slot v : ℕ) : PostDomBuffers :=
  { B with
    revPreds := Function.update B.revPreds slot (B.revPreds slot ++ [v])
    touchedRev := if B.revPreds slot = [] then B.touchedRev ++ [slot] else B.touchedRev }

/-- Adds a successor in the reverse graph. -/
def pushRevSucc (B : PostDomBuffers) (slot v : ℕ) : PostDomBuffers :=
  { B with
    revSuccs := Function.update B.revSuccs slot (B.revSuccs slot ++ [v])
    touchedRev := if B.revSuccs slot = [] then B.touchedRev ++ [slot] else B.touchedRev }

def pushEdge (B : PostDomBuffers) (b s : ℕ) : PostDomBuffers :=
  (B.pushRevPred b s).pushRevSucc s b

/-- Adds the edges of a block: those to its successors, and one to the virtual exit from a
reachable block that leaves the function. -/
def pushBlock (m : MirData) (reachable : List ℕ) (B : PostDomBuffers) (b : ℕ) : PostDomBuffers :=
  let B := (m.blockSuccessors b).foldl
    (fun B s => if s = 0 ∨ s ≥ m.blockCount then B else B.pushEdge b s) B
  if b ∉ reachable then B
  else if m.blockInstCount b = 0 then B
  else
    let term := m.instOpcode (m.blockInstAt b (m.blockInstCount b - 1))
    if term = .ret ∨ term = .unreachable then B.pushEdge b m.blockCount else B

/-- The walk of the reverse graph: the frames with the index of the next successor, the slots met
and the post-order so far, latest first. -/
def walk (succs : ℕ → List ℕ) :
    ℕ → List (ℕ × ℕ) → (ℕ → Bool) → List ℕ → Except MirDomAbort ((ℕ → Bool) × List ℕ)
  | _, [], visited, order => .ok (visited, order)
  | 0, _ :: _, _, _ => .error .outOfFuel
  | fuel + 1, (slot, nextSucc) :: stack, visited, order =>
    match (succs slot)[nextSucc]? with
    | some s =>
      if visited s then walk succs fuel ((slot, nextSucc + 1) :: stack) visited order
      else walk succs fuel ((s, 0) :: (slot, nextSucc + 1) :: stack)
        (Function.update visited s true) order
    | none => walk succs fuel stack visited (slot :: order)

def take (core : ChkArrays) (t : MirPostDomTree) (s : ℕ) : MirPostDomTree :=
  { t with
    ipdom := Function.update t.ipdom s (core.idom s)
    gaveUp := Function.update t.gaveUp s (core.gaveUp s) }

def computePostDomInto (fuel : ℕ) (m : MirData) (f : ℕ) (B : PostDomBuffers) :
    Except MirDomAbort PostDomBuffers :=
  let virtualSlot := m.blockCount
  let B := { B with
    order := []
    touchedRev := []
    touchedNodes := []
    tree := { B.tree with virtualExit := virtualSlot } }
  if m.funcBlockCount f = 0 then .ok B
  else do
    let reachable := mirReversePostOrder m (m.funcEntry f)
    let B := (m.funcBlocks f).foldl (pushBlock m reachable) B
    let (visited, order) ← walk B.revSuccs fuel [(virtualSlot, 0)]
      (Function.update B.visited virtualSlot true) []
    let core ← B.core.runChkCoreInto fuel (m.blockCount + 1) virtualSlot order B.revPreds
    return { B with
      visited := visited
      order := order
      touchedNodes := order
      core := core
      tree := order.foldl (take core) B.tree }

end PostDomBuffers

def computeMirPostDomTree (fuel : ℕ) (m : MirData) (f : ℕ) :
    Except MirDomAbort MirPostDomTree := do
  let B ← (PostDomBuffers.fresh m.blockCount).computePostDomInto fuel m f
  return B.tree

def mirPostDominatesBlock (a b : ℕ) (t : MirPostDomTree) : MirDomResult :=
  if a = 0 ∨ b = 0 then .doesNot
  else if a = b then .dominates
  else if b ≥ t.virtualExit + 1 then .doesNot
  else idomWalk t.ipdom a (t.virtualExit + 3) b

/-- Buffers that are kept from one function to the next. -/
structure MirPostDomScratch where
  moduleIdV : ℕ
  blockCount : ℕ
  buffers : PostDomBuffers

namespace MirPostDomScratch

def empty : MirPostDomScratch := ⟨0, 0, .fresh 0⟩

def bind (moduleId : ℕ) (m : MirData) (sc : MirPostDomScratch) :
    Except MirDomAbort MirPostDomScratch :=
  if sc.blockCount = 0 ∧ sc.moduleIdV = 0 then
    .ok { moduleIdV := moduleId
          blockCount := m.blockCount
          buffers := { PostDomBuffers.fresh m.blockCount with
            order := sc.buffers.order
            tree := { ipdom := fun _ => none, gaveUp := fun _ => false
                      virtualExit := sc.buffers.tree.virtualExit }
            touchedRev := sc.buffers.touchedRev
            touchedNodes := sc.buffers.touchedNodes } }
  else if sc.moduleIdV ≠ moduleId ∨ sc.blockCount ≠ m.blockCount then .error .staleScratch
  else .ok sc

def resetRev (B : PostDomBuffers) (s : ℕ) : PostDomBuffers :=
  { B with
    revPreds := Function.update B.revPreds s []
    revSuccs := Function.update B.revSuccs s [] }

def resetNode (B : PostDomBuffers) (s : ℕ) : PostDomBuffers :=
  { B with
    visited := Function.update B.visited s false
    core :=
      { idom := Function.update B.core.idom s none
        gaveUp := Function.update B.core.gaveUp s false
        rpoIndex := Function.update B.core.rpoIndex s none }
    tree :=
      { B.tree with
        ipdom := Function.update B.tree.ipdom s none
        gaveUp := Function.update B.tree.gaveUp s false } }

/-- Clears what the last function left. -/
def reset (B : PostDomBuffers) : PostDomBuffers :=
  let B := B.touchedNodes.foldl resetNode (B.touchedRev.foldl resetRev B)
  { B with touchedRev := [], touchedNodes := [] }

def computeMirPostDomTree (fuel moduleId : ℕ) (m : MirData) (f : ℕ) (sc : MirPostDomScratch) :
    Except MirDomAbort MirPostDomScratch := do
  let sc ← sc.bind moduleId m
  let B ← (reset sc.buffers).computePostDomInto fuel m f
  return { sc with buffers := B }

end MirPostDomScratch

end DssPrime
