import DssPrime.Mir.Basic

/-!
# The integer arithmetic of the constant evaluator

The evaluator works on 64-bit payloads.  A literal carries a `core`, the kind it was written at,
and the core of the operands decides the *domain* of an operation (its width and signedness, by
the usual arithmetic conversions): operands are converted to the domain, the operation runs in
64 bits and the result is reduced to the domain again.

The literals of the mid-level IR and of the tree IR are field-identical, so one type serves for
both.
-/

namespace DssPrime

inductive HirOpKind where
  | add | sub | mul | div | rem | bitAnd | bitOr | bitXor | shl | shr
  | eq | ne | lt | le | gt | ge | neg | not | bitNot
  deriving DecidableEq

def HirOpKind.isComparison : HirOpKind → Bool
  | eq | ne | lt | le | gt | ge => true
  | _ => false

/-- The shifts, whose domain is that of the left operand alone. -/
def HirOpKind.isShiftOp : HirOpKind → Bool
  | shl | shr => true
  | _ => false

abbrev HirLiteralValue := MirLiteralValue

/-- Width and signedness of an integer kind. -/
structure IntKindInfo where
  bits : ℕ
  isSigned : Bool
  deriving DecidableEq

/-- Width and signedness of a standard integer kind.  The signedness of `char` is the target's
answer; without one `char` has no reading. -/
def intKindInfo (k : TypeKind) (charIsUnsigned : Option Bool) : Option IntKindInfo :=
  match k with
  | .bool => some ⟨1, false⟩
  | .i8 => some ⟨8, true⟩
  | .u8 => some ⟨8, false⟩
  | .byte => some ⟨8, false⟩
  | .i16 => some ⟨16, true⟩
  | .u16 => some ⟨16, false⟩
  | .i32 => some ⟨32, true⟩
  | .u32 => some ⟨32, false⟩
  | .char => charIsUnsigned.map fun u => ⟨8, !u⟩
  | .i64 => some ⟨64, true⟩
  | .u64 => some ⟨64, false⟩
  | .i128 => some ⟨128, true⟩
  | .u128 => some ⟨128, false⟩
  | _ => none

/-- Reduce a 64-bit payload to a width and signedness: mask and re-extend. -/
def wrapToIntTarget (v : BitVec 64) (target : IntKindInfo) : BitVec 64 :=
  if 64 ≤ target.bits then v
  else
    let mask : BitVec 64 := (1#64 <<< target.bits) - 1#64
    let masked := v &&& mask
    if target.isSigned && (masked &&& (1#64 <<< (target.bits - 1))) != 0#64 then masked ||| ~~~mask
    else masked

def asInt64 : HirLiteralValue → Option (BitVec 64)
  | .int64 _ v => some v
  | .uint64 _ v => if 2 ^ 63 - 1 < v.toNat then none else some v
  | .bool _ b => some (if b then 1#64 else 0#64)
  | .bitInt _ _ _ v => if -2 ^ 63 ≤ v ∧ v ≤ 2 ^ 63 - 1 then some (BitVec.ofInt 64 v) else none
  | _ => none

def asIntBits : HirLiteralValue → Option (BitVec 64)
  | .uint64 _ v => some v
  | v => asInt64 v

def isInt128Kind (k : TypeKind) : Bool := k == .i128 || k == .u128

structure BitIntOperandType where
  width : ℕ
  isSigned : Bool
  isBitPrecise : Bool
  deriving DecidableEq

def bitIntOperandType (v : HirLiteralValue) (charIsUnsigned : Option Bool) :
    Option BitIntOperandType :=
  if isInt128Kind v.core then some ⟨128, v.core == .i128, false⟩
  else match v with
    | .bitInt _ width isSigned _ => some ⟨width, isSigned, true⟩
    | .int64 core _ | .uint64 core _ | .bool core _ =>
      (intKindInfo core charIsUnsigned).map fun ik => ⟨ik.bits, ik.isSigned, false⟩
    | _ => none

/-- Integer promotion: a standard type narrower than `int` becomes `int`. -/
def promoteBitIntOperand (t : BitIntOperandType) : BitIntOperandType :=
  if !t.isBitPrecise && t.width < 32 then ⟨32, true, false⟩ else t

def bitIntUac (a b : BitIntOperandType) : BitIntOperandType :=
  let a := promoteBitIntOperand a
  let b := promoteBitIntOperand b
  if a.isBitPrecise && b.isBitPrecise then
    if a.width ≠ b.width then (if b.width < a.width then a else b)
    else ⟨a.width, a.isSigned && b.isSigned, true⟩
  else if a.isBitPrecise != b.isBitPrecise then
    let bit := if a.isBitPrecise then a else b
    let std := if a.isBitPrecise then b else a
    if std.width < bit.width then bit else ⟨std.width, std.isSigned, false⟩
  else if a.width ≠ b.width then (if b.width < a.width then a else b)
  else ⟨a.width, a.isSigned && b.isSigned, false⟩

def intKindFromWidth (width : ℕ) (isSigned : Bool) : TypeKind :=
  match width with
  | 8 => if isSigned then .i8 else .u8
  | 16 => if isSigned then .i16 else .u16
  | 32 => if isSigned then .i32 else .u32
  | 128 => if isSigned then .i128 else .u128
  | _ => if isSigned then .i64 else .u64

/-- The domain of an operation: none when an operand is bit-precise, wider than 64 bits or no
integer. -/
def intOpDomain (op : HirOpKind) (a b : HirLiteralValue) (charIsUnsigned : Option Bool) :
    Option IntKindInfo := do
  let at' ← bitIntOperandType a charIsUnsigned
  if at'.isBitPrecise then none
  else do
    let rt ←
      if op.isShiftOp then some (promoteBitIntOperand at')
      else do
        let bt ← bitIntOperandType b charIsUnsigned
        if bt.isBitPrecise then none else some (bitIntUac at' bt)
    if rt.isBitPrecise || 64 < rt.width then none else some ⟨rt.width, rt.isSigned⟩

def applyUnaryInt (op : HirOpKind) (inner : HirLiteralValue) : Option HirLiteralValue := do
  let iv ← asInt64 inner
  match op with
  | .neg => some (.int64 inner.core (-iv))
  | .bitNot => some (.int64 inner.core (~~~iv))
  | .not => some (.int64 .bool (if iv = 0#64 then 1#64 else 0#64))
  | _ => none

def boolBits (b : Bool) : BitVec 64 := if b then 1#64 else 0#64

/-- The 64-bit operation of a domain, before its result is reduced; `uns` says that the domain
is unsigned.  `none` is a refusal: a zero divisor, the overflowing signed division and a shift
count outside `[0, 64)`. -/
def rawBinaryInt (op : HirOpKind) (uns : Bool) (av bv : BitVec 64) : Option (BitVec 64) :=
  match op with
  | .add => some (av + bv)
  | .sub => some (av - bv)
  | .mul => some (av * bv)
  | .div =>
    if bv = 0#64 then none
    else if uns then some (av / bv)
    else if av = BitVec.intMin 64 ∧ bv = -1#64 then none
    else some (av.sdiv bv)
  | .rem =>
    if bv = 0#64 then none
    else if uns then some (av % bv)
    else if av = BitVec.intMin 64 ∧ bv = -1#64 then none
    else some (av.srem bv)
  | .bitAnd => some (av &&& bv)
  | .bitOr => some (av ||| bv)
  | .bitXor => some (av ^^^ bv)
  | .shl => if bv.toInt < 0 ∨ 64 ≤ bv.toInt then none else some (av <<< bv.toNat)
  | .shr =>
    if bv.toInt < 0 ∨ 64 ≤ bv.toInt then none
    else some (if uns then av >>> bv.toNat else av.sshiftRight bv.toNat)
  | .eq => some (boolBits (av == bv))
  | .ne => some (boolBits (av != bv))
  | .lt => some (boolBits (if uns then av.ult bv else av.slt bv))
  | .le => some (boolBits (if uns then av.ule bv else av.sle bv))
  | .gt => some (boolBits (if uns then bv.ult av else bv.slt av))
  | .ge => some (boolBits (if uns then bv.ule av else bv.sle av))
  | .neg | .not | .bitNot => none

/-- Is the result of the operation reduced to its domain?  Comparisons and the signed division
are not. -/
def reducesResult (op : HirOpKind) (uns : Bool) : Bool :=
  match op with
  | .add | .sub | .mul | .bitAnd | .bitOr | .bitXor | .shl | .shr => true
  | .div | .rem => uns
  | _ => false

/-- Fold a binary operator.  The optimiser's options are fixed: overflow wraps, a zero divisor
and a shift count out of range refuse. -/
def applyBinaryInt (op : HirOpKind) (a b : HirLiteralValue) (charIsUnsigned : Option Bool) :
    Option HirLiteralValue := do
  let av64 ← asIntBits a
  let bv64 ← asIntBits b
  if (a.core = .char ∨ b.core = .char) ∧ charIsUnsigned = none then none
  else do
    let dom := intOpDomain op a b charIsUnsigned
    let convert (v : BitVec 64) := (dom.map (wrapToIntTarget v)).getD v
    let uns := dom.any fun d => !d.isSigned
    let bv := if op.isShiftOp then bv64 else convert bv64
    let r ← rawBinaryInt op uns (convert av64) bv
    let core := if op.isComparison then a.core
      else (dom.map fun d => intKindFromWidth d.bits d.isSigned).getD a.core
    return .int64 core (if reducesResult op uns then convert r else r)

end DssPrime
