import DssPrime.Hir.ConstEvalArith

/-!
# Constant folding

The pass replaces an instruction by a constant when its operands are constants.  Opcodes of the
unsigned family are folded on the raw 64-bit payloads (`foldUnsigned`), the others by the
constant evaluator, whose domain the cores of the operand literals decide.  The result is
renormalised to the instruction's type.
-/

namespace DssPrime

mutual

/-- A symbol address has no counterpart among the evaluator's literals. -/
def toHirLiteral : MirLiteralValue → HirLiteralValue
  | .symbolAddr core _ _ => .monostate core
  | .aggregate core fields => .aggregate core (toHirLiterals fields)
  | .monostate core => .monostate core
  | .bool core v => .bool core v
  | .int64 core v => .int64 core v
  | .uint64 core v => .uint64 core v
  | .double core v => .double core v
  | .string core v => .string core v
  | .bitInt core w s v => .bitInt core w s v
  | .wideFloat core v => .wideFloat core v

def toHirLiterals : List MirLiteralValue → List HirLiteralValue
  | [] => []
  | v :: vs => toHirLiteral v :: toHirLiterals vs

end

namespace ConstFold

def binaryOpKind : MirOpcode → Option HirOpKind
  | .add => some .add
  | .sub => some .sub
  | .mul => some .mul
  | .sDiv => some .div
  | .sMod => some .rem
  | .and => some .bitAnd
  | .or => some .bitOr
  | .xor => some .bitXor
  | .shl => some .shl
  | .aShr => some .shr
  | .iCmpEq => some .eq
  | .iCmpNe => some .ne
  | .iCmpSlt => some .lt
  | .iCmpSle => some .le
  | .iCmpSgt => some .gt
  | .iCmpSge => some .ge
  | _ => none

def unaryOpKind : MirOpcode → Option HirOpKind
  | .neg => some .neg
  | .not => some .bitNot
  | _ => none

def isUnsignedOp : MirOpcode → Bool
  | .uDiv | .uMod | .lShr | .iCmpUlt | .iCmpUle | .iCmpUgt | .iCmpUge => true
  | _ => false

def normalizeToType (folded : HirLiteralValue) (dstKind : TypeKind)
    (charIsUnsigned : Option Bool) : Option HirLiteralValue :=
  if folded.core = .bool then
    some (.int64 .bool (boolBits ((asInt64 folded).getD 0#64 != 0#64)))
  else do
    let ik ← intKindInfo dstKind charIsUnsigned
    let iv ← asInt64 folded
    return .int64 dstKind (wrapToIntTarget iv ik)

def foldUnsigned (op : MirOpcode) (a b : HirLiteralValue) : Option HirLiteralValue := do
  let av ← asInt64 a
  let bv ← asInt64 b
  match op with
  | .uDiv => if bv = 0#64 then none else some (.int64 a.core (av / bv))
  | .uMod => if bv = 0#64 then none else some (.int64 a.core (av % bv))
  | .lShr =>
    if bv.toInt < 0 ∨ 64 ≤ bv.toInt then none else some (.int64 a.core (av >>> bv.toNat))
  | .iCmpUlt => some (.int64 .bool (boolBits (av.ult bv)))
  | .iCmpUle => some (.int64 .bool (boolBits (av.ule bv)))
  | .iCmpUgt => some (.int64 .bool (boolBits (bv.ult av)))
  | .iCmpUge => some (.int64 .bool (boolBits (bv.ule av)))
  | _ => none

def foldUnary (op : MirOpcode) (operand : HirLiteralValue) (dstKind : TypeKind)
    (charIsUnsigned : Option Bool) : Option HirLiteralValue := do
  let k ← unaryOpKind op
  let folded ← applyUnaryInt k operand
  normalizeToType folded dstKind charIsUnsigned

def foldBinary (op : MirOpcode) (a b : HirLiteralValue) (dstKind : TypeKind)
    (charIsUnsigned : Option Bool) : Option HirLiteralValue :=
  if isUnsignedOp op then do
    let folded ← foldUnsigned op a b
    normalizeToType folded dstKind charIsUnsigned
  else do
    let k ← binaryOpKind op
    let folded ← applyBinaryInt k a b charIsUnsigned
    normalizeToType folded dstKind charIsUnsigned

section

variable (m : MirData) (t : TypeInterner) (charIsUnsigned : Option Bool)

/-- The constant an operand holds: a result folded earlier (the cache) or a constant of the
module. -/
def readConstOperand (constCache : List (ℕ × HirLiteralValue)) (oldOp : ℕ) :
    Option HirLiteralValue :=
  match constCache.lookup oldOp with
  | some v => some v
  | none =>
    if m.instOpcode oldOp = .const then
      some (toHirLiteral (m.literals.getD (m.instPayload oldOp) (.monostate .void)))
    else none

def tryFold (constCache : List (ℕ × HirLiteralValue)) (oldId : ℕ) : Option HirLiteralValue :=
  let op := m.instOpcode oldId
  let dstKind := t.kind (m.instType oldId)
  if m.instType oldId ≠ 0 ∧ (dstKind = .bitInt ∨ isInt128Kind dstKind = true) then none
  else match m.instOperands oldId with
    | [o] =>
      if (unaryOpKind op).isSome then do
        let operand ← readConstOperand m constCache o
        foldUnary op operand dstKind charIsUnsigned
      else none
    | [o₁, o₂] => do
      let a ← readConstOperand m constCache o₁
      let b ← readConstOperand m constCache o₂
      foldBinary op a b dstKind charIsUnsigned
    | _ => none

end

end ConstFold

end DssPrime
