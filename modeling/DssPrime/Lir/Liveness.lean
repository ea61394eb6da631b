import DssPrime.Graph.PostOrder
import DssPrime.Graph.RoundRobin
import DssPrime.Lir.RegAlloc
import Mathlib

/-!
# Liveness of virtual registers

The model of `lir_liveness.cpp`: the reverse post-order of a function's blocks with the unreachable
ones behind it, the backward data flow to its fixpoint, and one interval of positions for each
virtual register. An instruction has two positions, an early one at which it reads and a late one
at which it writes, or the early one if it writes before it has read everything.

The bitsets are finite sets: a vector with more words for the same set costs the fixpoint another
round, which changes nothing.
-/

namespace DssPrime

/-- How an assembly bundle uses an operand. -/
inductive LirAsmOperandRole where
  | use | defn | useDef | earlyDef

def lirAsmRoleReads : LirAsmOperandRole → Bool
  | .use | .useDef => true
  | .defn | .earlyDef => false

def lirAsmRoleWrites : LirAsmOperandRole → Bool
  | .use => false
  | .defn | .useDef | .earlyDef => true

def lirAsmRoleWritesEarly : LirAsmOperandRole → Bool
  | .earlyDef => true
  | .use | .defn | .useDef => false

structure LivenessInst where
  result : LirReg
  earlyClobber : Bool
  operands : List (Option LirReg)
  roles : Option (List LirAsmOperandRole)

def LirReg.valid (r : LirReg) : Bool := decide (r.regClass ≠ .none)

def lirForEachInstDef (i : LivenessInst) : List (LirReg × Bool) :=
  (if i.result.valid then [(i.result, i.earlyClobber)] else []) ++
    (i.operands.zip (i.roles.getD [])).filterMap fun x => x.1.bind fun r =>
      if r.valid && lirAsmRoleWrites x.2 then some (r, lirAsmRoleWritesEarly x.2) else none

def lirForEachInstUse (i : LivenessInst) : List LirReg :=
  i.operands.zipIdx.filterMap fun x => x.1.bind fun r =>
    if r.valid && (i.roles.bind (·[x.2]?)).all lirAsmRoleReads then some r else none

def forEachUse (i : LivenessInst) : List LirReg :=
  (lirForEachInstUse i).filter fun r => !r.isPhysical

def forEachDef (i : LivenessInst) : List (LirReg × Bool) :=
  (lirForEachInstDef i).filter fun d => !d.1.isPhysical

structure LivenessFunc where
  blocks : List ℕ
  insts : ℕ → List LivenessInst
  succs : ℕ → List ℕ
  nodup : blocks.Nodup

namespace LivenessFunc

def next (f : LivenessFunc) (b : ℕ) : List ℕ := (f.succs b).filter (· ∈ f.blocks)

def reachableRpo (f : LivenessFunc) (entry : ℕ) : List ℕ :=
  (PostOrder.walk f.next (f.blocks.map fun b => (f.next b).length + 1).sum entry).getD []

end LivenessFunc

/-- The blocks in reverse post-order, then the unreachable ones. -/
def computeRpo (f : LivenessFunc) : List ℕ :=
  match f.blocks with
  | [] => []
  | entry :: _ => f.reachableRpo entry ++ f.blocks.filter (· ∉ f.reachableRpo entry)

def insertVReg (s : Finset ℕ) (id : ℕ) : Finset ℕ := if id = 0 then s else insert id s

/-- What an instruction adds to what its block reads before writing it, and writes. -/
def localStep (s : Finset ℕ × Finset ℕ) (i : LivenessInst) : Finset ℕ × Finset ℕ :=
  ((forEachUse i).foldl (fun use r => if r.id ∈ s.2 then use else insertVReg use r.id) s.1,
    (forEachDef i).foldl (fun defs d => insertVReg defs d.1.id) s.2)

def localSets (insts : List LivenessInst) : Finset ℕ × Finset ℕ :=
  insts.foldl localStep (∅, ∅)

/-- The registers live at the ends of the blocks. -/
structure LiveSets where
  liveIn : ℕ → Finset ℕ
  liveOut : ℕ → Finset ℕ

def joinOut (f : LivenessFunc) (s : LiveSets) (b : ℕ) : Finset ℕ :=
  (f.succs b).foldl (fun out t => if t ∈ f.blocks then out ∪ s.liveIn t else out) (s.liveOut b)

def transfer (f : LivenessFunc) (b : ℕ) (out : Finset ℕ) : Finset ℕ :=
  (out \ (localSets (f.insts b)).2) ∪ (localSets (f.insts b)).1

def liveStep (f : LivenessFunc) (s : LiveSets × Bool) (b : ℕ) : LiveSets × Bool :=
  let out := joinOut f s.1 b
  let newIn := transfer f b out
  (⟨Function.update s.1.liveIn b newIn, Function.update s.1.liveOut b out⟩,
    s.2 || decide (out ≠ s.1.liveOut b) || decide (newIn ≠ s.1.liveIn b))

def liveRound (f : LivenessFunc) (order : List ℕ) (s : LiveSets) : LiveSets × Bool :=
  order.reverse.foldl (liveStep f) (s, false)

def liveFixpoint (f : LivenessFunc) (order : List ℕ) : Option LiveSets :=
  RoundRobin.run (liveRound f order)
    (2 * f.blocks.length * (f.blocks.map fun b => (localSets (f.insts b)).1.card).sum + 1)
    ⟨fun _ => ∅, fun _ => ∅⟩

def numberBlocks (f : LivenessFunc) : ℕ → List ℕ → List (ℕ × ℕ)
  | _, [] => []
  | first, b :: rest => (b, first) :: numberBlocks f (first + 2 * (f.insts b).length) rest

inductive RangeEvent where
  | use (r : LirReg) (pos : ℕ)
  | define (r : LirReg) (pos : ℕ)
  | liveOut (id : ℕ) (pos : ℕ)

def RangeEvent.id : RangeEvent → ℕ
  | .use r _ | .define r _ => r.id
  | .liveOut id _ => id

structure RangeState where
  firstDef : Option ℕ := none
  lastUse : ℕ := 0
  everSeen : Bool := false
  cls : LirRegClass := .none

def RangeState.record (s : RangeState) : RangeEvent → RangeState
  | .use r pos =>
    { s with
      everSeen := true, cls := r.regClass
      lastUse := if s.lastUse < pos then pos else s.lastUse }
  | .define r pos =>
    { s with
      everSeen := true, cls := r.regClass
      firstDef := if s.firstDef.all (pos < ·) then some pos else s.firstDef }
  | .liveOut _ pos =>
    { s with everSeen := true, lastUse := if s.lastUse < pos then pos else s.lastUse }

def instEvents (i : LivenessInst) (earlyPos : ℕ) : List RangeEvent :=
  (forEachUse i).map (.use · earlyPos) ++
    (forEachDef i).map fun d => .define d.1 (if d.2 then earlyPos else earlyPos + 1)

def setBits (s : Finset ℕ) : List ℕ := (List.range (s.sup id + 1)).filter (· ∈ s)

def blockEvents (f : LivenessFunc) (liveOut : ℕ → Finset ℕ) (x : ℕ × ℕ) : List RangeEvent :=
  ((f.insts x.1).zipIdx.flatMap fun i => instEvents i.1 (x.2 + 2 * i.2)) ++
    if x.2 + 2 * (f.insts x.1).length = 0 then []
    else (setBits (liveOut x.1)).map (.liveOut · (x.2 + 2 * (f.insts x.1).length - 1))

def rangeStates (events : List RangeEvent) : ℕ → RangeState :=
  events.foldl (fun states e => Function.update states e.id ((states e.id).record e)) fun _ => {}

def emitRange (id : ℕ) (s : RangeState) : LirLiveRange :=
  let start := s.firstDef.getD 0
  ⟨id, s.cls, start, if start < s.lastUse then s.lastUse + 1 else start + 1⟩

def rangeBefore (a b : LirLiveRange) : Prop :=
  a.start < b.start ∨ a.start = b.start ∧ a.vreg ≤ b.vreg

instance : DecidableRel rangeBefore := fun a b =>
  inferInstanceAs (Decidable (a.start < b.start ∨ a.start = b.start ∧ a.vreg ≤ b.vreg))

def emitRanges (events : List RangeEvent) : List LirLiveRange :=
  (((List.range ((events.map fun e => e.id + 1).foldr max 0)).filter fun id =>
    id ≠ 0 && (rangeStates events id).everSeen).map fun id =>
      emitRange id (rangeStates events id)).insertionSort rangeBefore

/-- The result of the analysis. -/
structure LirFuncLiveness where
  blockOrder : List ℕ
  sets : LiveSets
  positionToInst : List (ℕ × ℕ)
  ranges : List LirLiveRange

def analyzeFuncLiveness (f : LivenessFunc) : Option LirFuncLiveness :=
  (liveFixpoint f (computeRpo f)).map fun sets =>
    { blockOrder := computeRpo f
      sets := sets
      positionToInst := (computeRpo f).flatMap fun b =>
        (List.range (f.insts b).length).flatMap fun i => [(b, i), (b, i)]
      ranges := emitRanges
        ((numberBlocks f 0 (computeRpo f)).flatMap (blockEvents f sets.liveOut)) }

end DssPrime
