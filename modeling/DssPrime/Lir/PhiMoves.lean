import DssPrime.Mir.Opcode
import DssPrime.Run.ParallelCopy

/-!
# Phi elimination

The model of how `mir_to_lir.cpp` writes the phis of a block on the edges into it
(`emitPhiMovesForEdge`) and of where it places these copies (`lowerTerminator`).

A phi has a virtual register, or, for a `long double`, a home in the frame.  A register is written
by moves through temporaries; a home by copies of the datum through a staging slot of the phi.  What
a `long double` value stands for is the address of its datum.

Copies that stand before the terminator also stand before the reads of its own operands, which say
where the branch goes.
-/

namespace DssPrime

/-- The instructions of an edge: a move, the address of a slot, and the copy of a `long double`
between two addresses held in registers. -/
inductive EdgeInst where
  | mov (dst src : ℕ)
  | lea (dst slot : ℕ)
  | homeCopy (src dst : ℕ)

/-- The registers and the `long double` objects in memory, by their addresses. -/
structure EdgeState (V D : Type) where
  regs : ℕ → V
  mem : V → D

section Step

variable {V D : Type} [DecidableEq V] (frame : ℕ → V)

/-- What an instruction does; `frame` gives the addresses of the slots. -/
def EdgeInst.step (s : EdgeState V D) : EdgeInst → EdgeState V D
  | .mov dst src => { s with regs := Function.update s.regs dst (s.regs src) }
  | .lea dst slot => { s with regs := Function.update s.regs dst (frame slot) }
  | .homeCopy src dst => { s with mem := Function.update s.mem (s.regs dst) (s.mem (s.regs src)) }

def runEdge (s : EdgeState V D) (code : List EdgeInst) : EdgeState V D :=
  code.foldl (EdgeInst.step frame) s

end Step

/-- A phi, with its incoming value for each predecessor. -/
structure MirPhi where
  inst : ℕ
  isWideFloat : Bool
  incomings : List (ℕ × ℕ)
  deriving DecidableEq

def MirPhi.incoming (phi : MirPhi) (pred : ℕ) : Option ℕ :=
  (phi.incomings.find? fun inc => inc.1 = pred).map Prod.snd

/-- Where the lowering keeps the values: their registers, the slots of allocas and of `long double`
phis, and the staging slots of the latter. -/
structure ValueMap where
  valueToReg : ℕ → Option ℕ
  allocaSlotIndex : ℕ → Option ℕ
  wideFloatPhiStagingSlot : ℕ → Option ℕ

/-- The registers that hold the three addresses of a `long double` copy. -/
structure MemPair where
  home : ℕ
  staging : ℕ
  incoming : ℕ

/-- The copies of an edge as they are collected; `next` is the next new register. -/
structure EdgeCopies where
  next : ℕ
  code : List EdgeInst
  pairs : List (ℕ × ℕ)
  memPairs : List MemPair

namespace ValueMap

variable (c : ValueMap)

/-- The address of a slot, in a new register. -/
def emitLeaFrameSlot (e : EdgeCopies) (slot : ℕ) : ℕ × EdgeCopies :=
  (e.next, { e with next := e.next + 1, code := e.code ++ [.lea e.next slot] })

/-- The register of a value; an address of a slot is computed anew at each use. -/
def regForValue (e : EdgeCopies) (v : ℕ) : Option (ℕ × EdgeCopies) :=
  match c.allocaSlotIndex v with
  | some slot => some (emitLeaFrameSlot e slot)
  | none => (c.valueToReg v).map fun r => (r, e)

/-- The operands of the copies of one phi. -/
def collectPhi (pred : ℕ) (e : EdgeCopies) (phi : MirPhi) : Option EdgeCopies :=
  if phi.isWideFloat then do
    let homeSlot ← c.allocaSlotIndex phi.inst
    let stagingSlot ← c.wideFloatPhiStagingSlot phi.inst
    let v ← phi.incoming pred
    let (incoming, e) ← c.regForValue e v
    let (home, e) := emitLeaFrameSlot e homeSlot
    let (staging, e) := emitLeaFrameSlot e stagingSlot
    return { e with memPairs := e.memPairs ++ [⟨home, staging, incoming⟩] }
  else do
    let r ← c.valueToReg phi.inst
    let v ← phi.incoming pred
    let (incoming, e) ← c.regForValue e v
    return { e with pairs := e.pairs ++ [(r, incoming)] }

/-- The copies of the edge from `pred` to a block with the phis `phis`, and the next new register.
The registers are written before the homes. -/
def emitPhiMovesForEdge (pred : ℕ) (phis : List MirPhi) (next : ℕ) :
    Option (List EdgeInst × ℕ) := do
  let e ← phis.foldlM (c.collectPhi pred) ⟨next, [], [], []⟩
  return (e.code
    ++ e.pairs.zipIdx.map (fun p => .mov (e.next + p.2) p.1.2)
    ++ e.pairs.zipIdx.map (fun p => .mov p.1.1 (e.next + p.2))
    ++ e.memPairs.map (fun q => .homeCopy q.incoming q.staging)
    ++ e.memPairs.map (fun q => .homeCopy q.staging q.home), e.next + e.pairs.length)

end ValueMap

/-- Every branch of the terminator goes to a block that the lowering chooses. -/
def terminatorOwnsEverySuccessorBranch (op : MirOpcode) : Bool :=
  op = .condBr || op = .switch || op = .inlineAsmGoto

/-- A lowered terminator: the code before the branch, the registers the branch goes by, and the
blocks of the edges that have one. -/
structure LoweredTerminator where
  inline : List EdgeInst
  operands : List ℕ
  splits : List (ℕ × List EdgeInst)

namespace ValueMap

variable (c : ValueMap) (phisOf : ℕ → List MirPhi)

/-- The registers of the terminator's operands. -/
def operandRegs (e : EdgeCopies) : List ℕ → Option (List ℕ × EdgeCopies)
  | [] => some ([], e)
  | v :: vs => do
    let (r, e) ← c.regForValue e v
    let (rs, e) ← operandRegs e vs
    return (r :: rs, e)

/-- The copies of all edges, one after the other. -/
def inlineMoves (pred : ℕ) : List ℕ → ℕ → Option (List EdgeInst × ℕ)
  | [], next => some ([], next)
  | s :: succs, next => do
    let (code, next) ← c.emitPhiMovesForEdge pred (phisOf s) next
    let (rest, next) ← inlineMoves pred succs next
    return (code ++ rest, next)

/-- The copies of the edges to blocks with phis, each in a block of its own; a successor listed
before has its block already. -/
def splitMoves (pred : ℕ) : List ℕ → List (ℕ × List EdgeInst) → ℕ →
    Option (List (ℕ × List EdgeInst))
  | [], splits, _ => some splits
  | s :: succs, splits, next =>
    if phisOf s = [] ∨ s ∈ splits.map Prod.fst then splitMoves pred succs splits next
    else do
      let (code, next) ← c.emitPhiMovesForEdge pred (phisOf s) next
      splitMoves pred succs (splits ++ [(s, code)]) next

/-- The end of block `pred`.  `operands` are the values whose registers the branch reads: an
address, a discriminant, the two sides of a fused compare. -/
def lowerTerminator (op : MirOpcode) (pred : ℕ) (operands succs : List ℕ) (next : ℕ) :
    Option LoweredTerminator :=
  if succs.length > 1 ∧ terminatorOwnsEverySuccessorBranch op = true then do
    let (regs, e) ← c.operandRegs ⟨next, [], [], []⟩ operands
    let splits ← c.splitMoves phisOf pred succs [] e.next
    return ⟨e.code, regs, splits⟩
  else do
    let (code, next) ← c.inlineMoves phisOf pred succs next
    let (regs, e) ← c.operandRegs ⟨next, [], [], []⟩ operands
    return ⟨code ++ e.code, regs, []⟩

end ValueMap

/-- Where control arrives, and with which state.  `goesTo` is the branch: the successor it chooses
by the values it reads. -/
def LoweredTerminator.arrive {V D : Type} [DecidableEq V] (frame : ℕ → V) (t : LoweredTerminator)
    (goesTo : List V → ℕ) (s : EdgeState V D) : ℕ × EdgeState V D :=
  let s := runEdge frame s t.inline
  let succ := goesTo (t.operands.map s.regs)
  (succ, match t.splits.lookup succ with
    | some code => runEdge frame s code
    | none => s)

end DssPrime
