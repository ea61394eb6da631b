import DssPrime.Mir.Basic
import DssPrime.Graph.Worklist

/-!
# Where a pointer comes from, and which stack slots escape

`MirPointerEscape` classifies every value of a module by the object its address is derived
from — a stack slot, something outside the function, or unknown — and collects the stack slots
whose address leaves the function.  It runs once per pass, in four phases:

* `seedAndCollect` gives the opcodes that root an address their origin, and lists the values
  that derive their address from another value (`gep`, `bitcast`, `phi`) with the edges from
  the values they derive it from;
* `markSlotDerived` closes the stack slots under these edges;
* `solveOrigins` solves the origin lattice by a worklist with a step cap;
* `scanEscapes` marks the slots whose address is used in a way that lets it leave.
-/

namespace DssPrime

/-- The origin lattice: unresolved at the bottom, unknown at the top, and in between one point
per stack slot and one for everything outside the function. -/
inductive MirPointerOrigin where
  | unresolved
  | slot (alloca : ℕ)
  | external
  | unknown
  deriving DecidableEq

/-- What the root of a pointer is. -/
inductive MirPointerRootClass where
  | slot | external | baseDerived | merged | unknown
  deriving DecidableEq

def mirPointerRootClass : MirOpcode → MirPointerRootClass
  | .alloca => .slot
  | .arg | .globalAddr | .blockAddress | .const | .load | .atomicLoad | .call => .external
  | .gep | .bitcast => .baseDerived
  | .phi => .merged
  | _ => .unknown

/-- What a use does with an address: derives a new one from it, keeps it inside the
instruction, or lets it escape. -/
inductive MirPointerUseKind where
  | propagates | contained | escapes
  deriving DecidableEq

/-- The use table: the effect of using an address as operand number `operandIndex`. -/
def mirPointerUseKind (userOp : MirOpcode) (operandIndex : ℕ) : MirPointerUseKind :=
  match userOp with
  | .gep | .bitcast => if operandIndex = 0 then .propagates else .escapes
  | .phi => .propagates
  | .load | .atomicLoad | .atomicCas => if operandIndex = 0 then .contained else .escapes
  | .store | .atomicStore => if operandIndex = 1 then .contained else .escapes
  | .iCmpEq | .iCmpNe | .iCmpSlt | .iCmpSle | .iCmpSgt | .iCmpSge | .iCmpUlt | .iCmpUle
  | .iCmpUgt | .iCmpUge => .contained
  | _ => .escapes

def mirOpcodeObservesFrame : MirOpcode → Bool
  | .inlineAsm | .inlineAsmGoto | .vaRegSaveAreaAddr | .vaOverflowArgAreaAddr
  | .vaHomeArgAreaAddr | .recoverParentFrameSlot | .stackSave | .stackRestore | .sehTryBegin
  | .sehTryEnd | .sehFilterReturn | .sehExceptionCode | .sehExceptionInfo => true
  | _ => false

namespace MirData

/-- Every instruction of the module with its function, in program order. -/
def allInsts (m : MirData) : List (ℕ × ℕ) :=
  m.moduleFuncs.flatMap fun f => (m.funcBlocks f).flatMap fun b => (m.blockInsts b).map (f, ·)

end MirData

/-- The result of the analysis (and its state while it is built). -/
structure MirPointerEscape where
  origins : List MirPointerOrigin
  propEdges : List (ℕ × ℕ)
  derived : List ℕ
  funcSlots : List (ℕ × ℕ)
  /-- The values whose address may be derived from a stack slot. -/
  slotDerived : List ℕ
  escapedSlots : List ℕ
  allSlotsEscape : List ℕ
  deriving Inhabited

namespace MirPointerEscape

variable (m : MirData)

def propUsers (edges : List (ℕ × ℕ)) (v : ℕ) : List ℕ :=
  (edges.filter fun e => e.1 = v).map Prod.snd

def join : MirPointerOrigin → MirPointerOrigin → MirPointerOrigin
  | .unresolved, b => b
  | a, .unresolved => a
  | a, b => if a = b then a else .unknown

def originAt (origins : List MirPointerOrigin) (p : ℕ) : MirPointerOrigin :=
  if m.IsInst p then origins.getD p .unresolved else .unknown

def empty : MirPointerEscape where
  origins := List.replicate m.instCount .unresolved
  propEdges := []
  derived := []
  funcSlots := []
  slotDerived := []
  escapedSlots := []
  allSlotsEscape := []

def seedFrame (st : MirPointerEscape) (f id : ℕ) : MirPointerEscape :=
  let st := if mirOpcodeObservesFrame (m.instOpcode id) then
    { st with allSlotsEscape := f :: st.allSlotsEscape } else st
  if m.instOpcode id = .alloca then { st with funcSlots := st.funcSlots ++ [(f, id)] } else st

def seedRoot (st : MirPointerEscape) (id : ℕ) : MirPointerEscape :=
  match mirPointerRootClass (m.instOpcode id) with
  | .slot => { st with origins := st.origins.set id (.slot id) }
  | .external => { st with origins := st.origins.set id .external }
  | .unknown => { st with origins := st.origins.set id .unknown }
  | .baseDerived =>
    match m.instOperands id with
    | [] => { st with origins := st.origins.set id .unknown }
    | base :: _ => { st with
        propEdges := st.propEdges ++ [(base, id)]
        derived := st.derived ++ [id] }
  | .merged => { st with
      propEdges := st.propEdges ++
        ((m.phiIncomings id).filter fun inc => inc.value ≠ 0).map fun inc => (inc.value, id)
      derived := st.derived ++ [id] }

def seedInst (st : MirPointerEscape) (e : ℕ × ℕ) : MirPointerEscape :=
  let st := seedFrame m st e.1 e.2
  if m.instCount ≤ e.2 then st else seedRoot m st e.2

def seedAndCollect : MirPointerEscape := m.allInsts.foldl (seedInst m) (empty m)

/-- Close the stack slots under the derivation edges.  The walk has no cap; one step per
instruction is enough. -/
def markSlotDerived (st : MirPointerEscape) : Option MirPointerEscape :=
  let next v := (propUsers st.propEdges v).filter (· < m.instCount)
  let roots := Worklist.pushNew ((st.funcSlots.map Prod.snd).filter (· < m.instCount)) [] []
  (Worklist.run next m.instCount roots.1 roots.2).map fun s => { st with slotDerived := s }

def transfer (origins : List MirPointerOrigin) (id : ℕ) : MirPointerOrigin :=
  if mirPointerRootClass (m.instOpcode id) = .merged then
    (m.phiIncomings id).foldl (fun joined inc => join joined (originAt m origins inc.value))
      .unresolved
  else
    match m.instOperands id with
    | [] => .unknown
    | base :: _ => originAt m origins base

/-- The worklist iteration; `none` is the abort on the step cap. -/
def solveLoop (edges : List (ℕ × ℕ)) :
    ℕ → List ℕ → List MirPointerOrigin → Option (List MirPointerOrigin)
  | _, [], origins => some origins
  | 0, _ :: _, _ => none
  | fuel + 1, id :: work, origins =>
    if m.instCount ≤ id then solveLoop edges fuel work origins
    else if transfer m origins id = .unresolved then solveLoop edges fuel work origins
    else if originAt m origins id = transfer m origins id then solveLoop edges fuel work origins
    else solveLoop edges fuel ((propUsers edges id).reverse ++ work)
      (origins.set id (transfer m origins id))

def stepCap (st : MirPointerEscape) : ℕ := 4 * (m.instCount + st.propEdges.length) + 64

def solveOrigins (st : MirPointerEscape) : Option MirPointerEscape :=
  (solveLoop m st.propEdges (stepCap m st) st.derived.reverse st.origins).map fun o =>
    { st with origins := o }

def scanOperand (f : ℕ) (op : MirOpcode) (st : MirPointerEscape) (e : ℕ × ℕ) :
    MirPointerEscape :=
  if mirPointerUseKind op e.1 ≠ .escapes then st
  else match originAt m st.origins e.2 with
    | .slot s => { st with escapedSlots := s :: st.escapedSlots }
    | .external => st
    | _ => if e.2 ∈ st.slotDerived then { st with allSlotsEscape := f :: st.allSlotsEscape }
      else st

def scanInst (st : MirPointerEscape) (e : ℕ × ℕ) : MirPointerEscape :=
  if mirPointerRootClass (m.instOpcode e.2) = .merged then st
  else ((List.range (m.instOperands e.2).length).zip (m.instOperands e.2)).foldl
    (scanOperand m e.1 (m.instOpcode e.2)) st

def scanEscapes (st : MirPointerEscape) : MirPointerEscape := m.allInsts.foldl (scanInst m) st

def build : Option MirPointerEscape := do
  let st ← markSlotDerived m (seedAndCollect m)
  let st ← solveOrigins m st
  return scanEscapes m st

def originOf (st : MirPointerEscape) (p : ℕ) : MirPointerOrigin :=
  if m.IsInst p then
    match st.origins.getD p .unresolved with
    | .slot s => .slot s
    | .external => .external
    | _ => .unknown
  else .unknown

def slotEscapes (st : MirPointerEscape) (slot : ℕ) : Bool :=
  if ¬ m.IsInst slot then true
  else if m.instOpcode slot ≠ .alloca then true
  else if slot ∈ st.escapedSlots then true
  else decide (m.blockFunc (m.instBlock slot) ∈ st.allSlotsEscape)

/-- The two addresses are derived from objects that cannot overlap. -/
def provablyDisjoint (st : MirPointerEscape) (a b : ℕ) : Bool :=
  if a = 0 ∨ b = 0 then false
  else if a = b then false
  else match originOf m st a, originOf m st b with
    | .slot s, .slot t => decide (s ≠ t)
    | .slot s, .external => !slotEscapes m st s
    | .external, .slot s => !slotEscapes m st s
    | _, _ => false

end MirPointerEscape

end DssPrime
