import Mathlib
import DssPrime.Types.BitIntDivision
import DssPrime.Hir.StandardArith

/-!
# The evaluator against C, for the wide integers

A pair of operands with a `_BitInt` or a 128-bit one is folded over `_BitInt` values: both operands
become such a value at their own type, the operation runs at the type the usual arithmetic
conversions give (the promoted left operand's for a shift), and the result is packed again, inline
when it is a standard type of at most 64 bits.

What the fold returns is stated on integers (`cWide`). Two things differ from the operators of
`int`: a shift never refuses, it saturates its count, and the unrepresentable quotient is left out
here.
-/

namespace DssPrime

def BitIntValue.low64 (v : BitIntValue) : BitVec 64 := v.limbs.getD 0 0#64

/-- The value as a signed 64-bit one, if it is one: the low limb, when the others only extend its
sign. -/
def BitIntValue.narrow (v : BitIntValue) : Option (BitVec 64) :=
  let neg := v.isNegative
  if decide (v.low64.toInt < 0) ≠ neg then none
  else
    let fill := if neg then BitVec.allOnes 64 else 0#64
    if v.limbs.tail.all (· == fill) then some v.low64 else none

inductive WideLiteral where
  | plain (v : HirLiteralValue)
  | bitInt (core : TypeKind) (v : BitIntValue)

namespace WideLiteral

def toHir : WideLiteral → HirLiteralValue
  | plain v => v
  | bitInt core v => .bitInt core v.width v.isSigned v.toInt

def core (v : WideLiteral) : TypeKind := v.toHir.core

def holdsBitInt : WideLiteral → Bool
  | plain _ => false
  | bitInt _ _ => true

def isWide (v : WideLiteral) : Bool := v.holdsBitInt || isInt128Kind v.core

def asInt64 : WideLiteral → Option (BitVec 64)
  | plain v => DssPrime.asInt64 v
  | bitInt _ v => v.narrow

end WideLiteral

inductive ConstEvalFailure where
  | unsupportedTypeKind | unsupportedOperator | divisionByZero

def makeBoolLiteral (b : Bool) : WideLiteral := .plain (.int64 .bool (boolBits b))

def asBitIntValue (v : WideLiteral) (charIsUnsigned : Option Bool) : Option BitIntValue :=
  match v with
  | .bitInt _ bv => some bv
  | .plain p => do
    let ot ← bitIntOperandType p charIsUnsigned
    match p with
    | .int64 _ i => some (.fromI64 i ot.width ot.isSigned)
    | .uint64 _ u => some (.fromU64 u ot.width ot.isSigned)
    | .bool _ b => some (.fromU64 (boolBits b) ot.width ot.isSigned)
    | _ => none

/-- Package a folded value: a standard result of at most 64 bits inline, every other one in
limbs. -/
def packBitIntResult (r : BitIntValue) (rt : BitIntOperandType) : WideLiteral :=
  if rt.isBitPrecise then .bitInt .bitInt r
  else
    let core := intKindFromWidth rt.width rt.isSigned
    if isInt128Kind core then .bitInt core r
    else if rt.isSigned then .plain (.int64 core r.low64)
    else .plain (.uint64 core r.low64)

def HirOpKind.holds (op : HirOpKind) (c : Ordering) : Bool :=
  match op with
  | .eq => c == .eq
  | .ne => c != .eq
  | .lt => c == .lt
  | .le => c != .gt
  | .gt => c == .gt
  | .ge => c != .lt
  | _ => false

/-- The count of a shift: the value if it is a nonnegative 64-bit one, else the low limb of a wide
operand. -/
def shiftCount (b : WideLiteral) (bv : BitIntValue) : ℕ :=
  match b.asInt64 with
  | some ic =>
    if 0 ≤ ic.toInt then ic.toNat else if b.isWide then bv.low64.toNat else 0
  | none => if b.isWide then bv.low64.toNat else 0

def foldWideOperands (op : HirOpKind) (b : WideLiteral) (at' bt : BitIntOperandType)
    (av bv : BitIntValue) : Except ConstEvalFailure WideLiteral :=
  if op.isComparison then
    let ct := bitIntUac at' bt
    .ok (makeBoolLiteral (op.holds (BitIntValue.compare av bv ct.width ct.isSigned)))
  else if op.isShiftOp then
    let rt := promoteBitIntOperand at'
    let count := shiftCount b bv
    .ok (packBitIntResult
      (if op = .shl then BitIntValue.shiftLeft av count rt.width rt.isSigned
        else BitIntValue.shiftRight av count rt.width rt.isSigned) rt)
  else
    let rt := bitIntUac at' bt
    match op with
    | .add => .ok (packBitIntResult (.add av bv rt.width rt.isSigned) rt)
    | .sub => .ok (packBitIntResult (.sub av bv rt.width rt.isSigned) rt)
    | .mul => .ok (packBitIntResult (.mul av bv rt.width rt.isSigned) rt)
    | .bitAnd => .ok (packBitIntResult (.bitAnd av bv rt.width rt.isSigned) rt)
    | .bitOr => .ok (packBitIntResult (.bitOr av bv rt.width rt.isSigned) rt)
    | .bitXor => .ok (packBitIntResult (.bitXor av bv rt.width rt.isSigned) rt)
    | .div =>
      match BitIntValue.divide av bv rt.width rt.isSigned with
      | none => .error .divisionByZero
      | some q => .ok (packBitIntResult q rt)
    | .rem =>
      match BitIntValue.remainder av bv rt.width rt.isSigned with
      | none => .error .divisionByZero
      | some r => .ok (packBitIntResult r rt)
    | _ => .error .unsupportedOperator

def foldBitIntBinary (op : HirOpKind) (a b : WideLiteral) (charIsUnsigned : Option Bool) :
    Option (Except ConstEvalFailure WideLiteral) :=
  if !a.isWide && !b.isWide then none
  else some <|
    match bitIntOperandType a.toHir charIsUnsigned, bitIntOperandType b.toHir charIsUnsigned,
      asBitIntValue a charIsUnsigned, asBitIntValue b charIsUnsigned with
    | some at', some bt, some av, some bv => foldWideOperands op b at' bt av bv
    | _, _, _, _ => .error .unsupportedTypeKind

def foldBitIntUnary (op : HirOpKind) (inner : WideLiteral) (charIsUnsigned : Option Bool) :
    Option (Except ConstEvalFailure WideLiteral) :=
  if !inner.holdsBitInt && !isInt128Kind inner.core then none
  else some <|
    match bitIntOperandType inner.toHir charIsUnsigned, asBitIntValue inner charIsUnsigned with
    | some ot, some bv =>
      match op with
      | .neg => .ok (packBitIntResult (.neg bv ot.width ot.isSigned) ot)
      | .bitNot => .ok (packBitIntResult (.bitNot bv ot.width ot.isSigned) ot)
      | .not => .ok (makeBoolLiteral bv.isZero)
      | _ => .error .unsupportedOperator
    | _, _ => .error .unsupportedTypeKind

namespace ConstEval

open Bits (wrapInt)

def convert (t : BitIntOperandType) (z : ℤ) : ℤ := wrapInt t.width t.isSigned z

def truthType : BitIntOperandType := ⟨1, false, false⟩

/-- The result of a binary operator on values of two types, one of them wide: its type and its
value.  The operands are converted to the common type, shifts keep the promoted type of the left
one. -/
def cWide (op : HirOpKind) (ta tb : BitIntOperandType) (x y : ℤ) :
    Option (BitIntOperandType × ℤ) :=
  let t := bitIntUac ta tb
  let s := promoteBitIntOperand ta
  match op with
  | .add => some (t, convert t (convert t x + convert t y))
  | .sub => some (t, convert t (convert t x - convert t y))
  | .mul => some (t, convert t (convert t x * convert t y))
  | .div =>
    let q := (convert t x).tdiv (convert t y)
    if convert t y = 0 ∨ convert t q ≠ q then none else some (t, q)
  | .rem =>
    let q := (convert t x).tdiv (convert t y)
    if convert t y = 0 ∨ convert t q ≠ q then none
    else some (t, (convert t x).tmod (convert t y))
  | .bitAnd => some (t, convert t (Int.land (convert t x) (convert t y)))
  | .bitOr => some (t, convert t (Int.lor (convert t x) (convert t y)))
  | .bitXor => some (t, convert t (Int.xor (convert t x) (convert t y)))
  | .shl =>
    if y < 0 ∨ s.width ≤ y then none
    else some (s, convert s (convert s x * 2 ^ y.toNat))
  | .shr => if y < 0 ∨ s.width ≤ y then none else some (s, convert s x / 2 ^ y.toNat)
  | .eq => some (truthType, truth (convert t x = convert t y))
  | .ne => some (truthType, truth (convert t x ≠ convert t y))
  | .lt => some (truthType, truth (convert t x < convert t y))
  | .le => some (truthType, truth (convert t x ≤ convert t y))
  | .gt => some (truthType, truth (convert t y < convert t x))
  | .ge => some (truthType, truth (convert t y ≤ convert t x))
  | .neg | .not | .bitNot => none

def cWideUnary (op : HirOpKind) (t : BitIntOperandType) (x : ℤ) :
    Option (BitIntOperandType × ℤ) :=
  match op with
  | .neg => some (t, convert t (-x))
  | .bitNot => some (t, convert t (Int.lnot x))
  | .not => some (truthType, truth (x = 0))
  | _ => none

/-- The integer that a literal stands for in a type. -/
inductive IsInteger (ch : Option Bool) : WideLiteral → BitIntOperandType → ℤ → Prop
  /-- A signed payload: the value, or its pattern for a type of at most 64 bits. -/
  | int64 {core : TypeKind} {k : IntKindInfo} {i : BitVec 64} {x : ℤ}
      (h : intKindInfo core ch = some k) (hx : k.Fits x) (hi : i.toInt ≡ x [ZMOD 2 ^ 64])
      (hwide : 64 < k.bits → i.toInt = x) :
    IsInteger ch (.plain (.int64 core i)) ⟨k.bits, k.isSigned, false⟩ x
  | uint64 {core : TypeKind} {k : IntKindInfo} {u : BitVec 64} {x : ℤ}
      (h : intKindInfo core ch = some k) (hx : k.Fits x) (hu : (u.toNat : ℤ) ≡ x [ZMOD 2 ^ 64])
      (hwide : 64 < k.bits → (u.toNat : ℤ) = x) :
    IsInteger ch (.plain (.uint64 core u)) ⟨k.bits, k.isSigned, false⟩ x
  | bool {core : TypeKind} {k : IntKindInfo} {b : Bool} (h : intKindInfo core ch = some k)
      (hx : k.Fits (boolBits b).toNat) :
    IsInteger ch (.plain (.bool core b)) ⟨k.bits, k.isSigned, false⟩ (boolBits b).toNat
  | bitInt {v : BitIntValue} (hv : v.Valid) (hw : v.width ≤ 8388608) :
    IsInteger ch (.bitInt .bitInt v) ⟨v.width, v.isSigned, true⟩ v.toInt
  | int128 {core : TypeKind} {v : BitIntValue} (hc : isInt128Kind core = true) (hv : v.Valid)
      (hw : v.width = 128) (hs : v.isSigned = (core == .i128)) :
    IsInteger ch (.bitInt core v) ⟨128, core == .i128, false⟩ v.toInt

def Returns (ch : Option Bool) (r : Option (Except ConstEvalFailure WideLiteral))
    (p : BitIntOperandType × ℤ) : Prop :=
  ∃ v, r = some (.ok v) ∧ IsInteger ch v p.1 p.2

def Refuses (r : Option (Except ConstEvalFailure WideLiteral)) : Prop :=
  ∃ f, r = some (.error f)

def Follows (ch : Option Bool) (r : Option (Except ConstEvalFailure WideLiteral))
    (c : Option (BitIntOperandType × ℤ)) : Prop :=
  (∀ p ∈ c, Returns ch r p) ∧ (c = none → Refuses r)

section Types

variable {ch : Option Bool} {a b : WideLiteral} {t ta tb : BitIntOperandType} {x y : ℤ}

structure OperandType (t : BitIntOperandType) : Prop where
  pos : 1 ≤ t.width
  le : t.width ≤ 8388608
  std : t.isBitPrecise = false → t.width ≤ 32 ∨ t.width = 64 ∨ t.width = 128

structure ResultType (t : BitIntOperandType) : Prop where
  pos : 1 ≤ t.width
  le : t.width ≤ 8388608
  std : t.isBitPrecise = false → t.width = 32 ∨ t.width = 64 ∨ t.width = 128

theorem OperandType.promote (h : OperandType t) : ResultType (promoteBitIntOperand t) := by
  have hstd := h.std
  rw [promoteBitIntOperand]
  split_ifs with hp
  · exact ⟨by decide, by decide, fun _ => .inl rfl⟩
  · refine ⟨h.pos, h.le, fun hb => ?_⟩
    rw [hb] at hp
    simp only [Bool.not_false, Bool.true_and, decide_eq_true_eq] at hp
    have := hstd hb
    omega

theorem OperandType.uac (ha : OperandType ta) (hb : OperandType tb) :
    ResultType (bitIntUac ta tb) := by
  have hpa := ha.promote
  have hpb := hb.promote
  rw [bitIntUac]
  generalize promoteBitIntOperand ta = pa at hpa
  generalize promoteBitIntOperand tb = pb at hpb
  obtain ⟨wa, sa, ba⟩ := pa
  obtain ⟨wb, sb, bb⟩ := pb
  cases ba with
  | true =>
    cases bb with
    | true =>
      simp only [Bool.and_self, if_true]
      split_ifs
      · exact hpa
      · exact hpb
      · exact ⟨hpa.pos, hpa.le, fun h => by cases h⟩
    | false =>
      simp only [Bool.and_false, Bool.false_eq_true, if_false, Bool.bne_false, if_true]
      split_ifs
      · exact hpa
      · exact hpb
  | false =>
    cases bb with
    | true =>
      simp only [Bool.false_and, Bool.false_eq_true, if_false, Bool.bne_true, Bool.not_false,
        if_true]
      split_ifs
      · exact hpb
      · exact hpa
    | false =>
      simp only [Bool.and_self, Bool.false_eq_true, if_false, bne_self_eq_false]
      split_ifs
      · exact hpa
      · exact hpb
      · exact ⟨hpa.pos, hpa.le, fun _ => hpa.std rfl⟩

theorem intKindInfo_width {k : TypeKind} {i : IntKindInfo} (h : intKindInfo k ch = some i) :
    1 ≤ i.bits ∧ (i.bits ≤ 32 ∨ i.bits = 64 ∨ i.bits = 128) := by
  cases k <;> simp only [intKindInfo, Option.some.injEq, reduceCtorEq] at h
  case char =>
    cases ch with
    | none => cases h
    | some u =>
      simp only [Option.map_some, Option.some.injEq] at h
      subst h
      exact ⟨by simp, by simp⟩
  all_goals
    subst h
    exact ⟨by decide, by decide⟩

theorem intKindInfo_128 {k : TypeKind} {i : IntKindInfo} (h : intKindInfo k ch = some i)
    (hk : isInt128Kind k = true) : i = ⟨128, k == .i128⟩ := by
  rw [isInt128Kind, Bool.or_eq_true, beq_iff_eq, beq_iff_eq] at hk
  rcases hk with rfl | rfl
  · exact (Option.some.inj h).symm
  · exact (Option.some.inj h).symm

theorem IsInteger.operandType (h : IsInteger ch a t x) : OperandType t := by
  cases h with
  | int64 hk | uint64 hk | bool hk =>
    obtain ⟨hpos, hw⟩ := intKindInfo_width hk
    exact ⟨hpos, by simp only; omega, fun _ => hw⟩
  | bitInt hv hw => exact ⟨hv.width_pos, hw, fun hb => by cases hb⟩
  | int128 hc hv hw hs => exact ⟨by simp, by simp, fun _ => .inr (.inr rfl)⟩

theorem operandType_of_info {core : TypeKind} {k : IntKindInfo}
    (hk : intKindInfo core ch = some k) :
    (if isInt128Kind core then some ⟨128, core == .i128, false⟩
      else (intKindInfo core ch).map fun ik => ⟨ik.bits, ik.isSigned, false⟩) =
      some (⟨k.bits, k.isSigned, false⟩ : BitIntOperandType) := by
  split_ifs with hc
  · rw [intKindInfo_128 hk hc]
  · rw [hk, Option.map_some]

theorem IsInteger.bitIntOperandType_eq (h : IsInteger ch a t x) :
    bitIntOperandType a.toHir ch = some t := by
  cases h with
  | int64 hk | uint64 hk | bool hk => exact operandType_of_info hk
  | bitInt hv hw => rfl
  | int128 hc hv hw hs => exact if_pos hc

theorem valid_limb (v : BitVec 64) (s : Bool) : BitIntValue.Valid ⟨[v], 64, s⟩ where
  width_pos := by simp
  length_eq := by simp
  padding i hi hi' := by
    simp only [List.length_singleton] at hi hi'
    omega

theorem val_limb (v : BitVec 64) : Limbs.val [v] = v.toNat := by
  rw [Limbs.val_cons, Limbs.val_nil, Nat.mul_zero, Nat.add_zero]

theorem toInt_limb_signed (v : BitVec 64) : BitIntValue.toInt ⟨[v], 64, true⟩ = v.toInt := by
  rw [BitIntValue.toInt, wrapInt, val_limb, if_pos rfl, BitVec.toInt_eq_toNat_bmod]

theorem toInt_limb_unsigned (v : BitVec 64) : BitIntValue.toInt ⟨[v], 64, false⟩ = v.toNat := by
  have hlt := v.isLt
  rw [BitIntValue.toInt, wrapInt, val_limb, if_neg Bool.false_ne_true]
  exact Int.emod_eq_of_lt (by omega) (by exact_mod_cast hlt)

theorem fromI64_spec {W : ℕ} (S : Bool) (v : BitVec 64) (h1 : 1 ≤ W) (hW : W ≤ 8388608) :
    (BitIntValue.fromI64 v W S).Valid ∧
      (BitIntValue.fromI64 v W S).toInt = wrapInt W S v.toInt := by
  have h32 : W + 63 < 2 ^ 32 := by omega
  refine ⟨BitIntValue.valid_convertTo _ S h32, ?_⟩
  rw [BitIntValue.fromI64, BitIntValue.toInt_convertTo (valid_limb v true) S h32,
    toInt_limb_signed, BitIntValue.declared_eq h1]

theorem fromU64_spec {W : ℕ} (S : Bool) (v : BitVec 64) (h1 : 1 ≤ W) (hW : W ≤ 8388608) :
    (BitIntValue.fromU64 v W S).Valid ∧
      (BitIntValue.fromU64 v W S).toInt = wrapInt W S v.toNat := by
  have h32 : W + 63 < 2 ^ 32 := by omega
  refine ⟨BitIntValue.valid_convertTo _ S h32, ?_⟩
  rw [BitIntValue.fromU64, BitIntValue.toInt_convertTo (valid_limb v false) S h32,
    toInt_limb_unsigned, BitIntValue.declared_eq h1]

theorem wrapInt_payload {k : IntKindInfo} (h1 : 1 ≤ k.bits) {p : ℤ} (hx : k.Fits x)
    (hp : p ≡ x [ZMOD 2 ^ 64]) (hwide : 64 < k.bits → p = x) :
    wrapInt k.bits k.isSigned p = x := by
  have hself : wrapInt k.bits k.isSigned x = x := reduce_of_fits h1 hx
  by_cases hw : 64 < k.bits
  · rw [hwide hw, hself]
  · exact (Bits.wrapInt_congr (hp.of_dvd (pow_dvd_pow 2 (by omega)))).trans hself

theorem IsInteger.asBitIntValue_spec (h : IsInteger ch a t x) :
    ∃ bv, asBitIntValue a ch = some bv ∧ bv.Valid ∧ bv.toInt = x := by
  have hot := h.operandType
  have hty := h.bitIntOperandType_eq
  cases h with
  | int64 hk hx hi hwide =>
    obtain ⟨hv, hval⟩ := fromI64_spec _ _ hot.pos hot.le
    refine ⟨_, ?_, hv, hval.trans (wrapInt_payload hot.pos hx hi hwide)⟩
    rw [WideLiteral.toHir] at hty
    rw [asBitIntValue, hty]
    rfl
  | uint64 hk hx hu hwide =>
    obtain ⟨hv, hval⟩ := fromU64_spec _ _ hot.pos hot.le
    refine ⟨_, ?_, hv, hval.trans (wrapInt_payload hot.pos hx hu hwide)⟩
    rw [WideLiteral.toHir] at hty
    rw [asBitIntValue, hty]
    rfl
  | bool hk hx =>
    obtain ⟨hv, hval⟩ := fromU64_spec _ _ hot.pos hot.le
    refine ⟨_, ?_, hv, hval.trans (reduce_of_fits hot.pos hx)⟩
    rw [WideLiteral.toHir] at hty
    rw [asBitIntValue, hty]
    rfl
  | bitInt hv hw => exact ⟨_, rfl, hv, rfl⟩
  | int128 hc hv hw hs => exact ⟨_, rfl, hv, rfl⟩

theorem limbs_of_width {v : BitIntValue} (hv : v.Valid) (hw : v.width ≤ 64) :
    v.limbs = [v.low64] := by
  have hlen := hv.length_eq
  have hpos := hv.width_pos
  obtain ⟨l, hl⟩ := List.length_eq_one_iff.1 (show v.limbs.length = 1 by omega)
  rw [BitIntValue.low64, hl]
  rfl

theorem intKindInfo_fromWidth {w : ℕ} (hw : w = 32 ∨ w = 64) (s : Bool) :
    intKindInfo (intKindFromWidth w s) ch = some ⟨w, s⟩ := by
  rcases hw with rfl | rfl <;> cases s <;> rfl

theorem isInteger_inline (ch : Option Bool) {r : BitIntValue} (hr : r.Valid)
    (hw : r.width = 32 ∨ r.width = 64) :
    IsInteger ch (if isInt128Kind (intKindFromWidth r.width r.isSigned) = true then
        .bitInt (intKindFromWidth r.width r.isSigned) r
      else if r.isSigned = true then .plain (.int64 (intKindFromWidth r.width r.isSigned) r.low64)
      else .plain (.uint64 (intKindFromWidth r.width r.isSigned) r.low64))
      ⟨r.width, r.isSigned, false⟩ r.toInt := by
  have hinfo : intKindInfo (intKindFromWidth r.width r.isSigned) ch = some ⟨r.width, r.isSigned⟩ :=
    intKindInfo_fromWidth hw r.isSigned
  have hnot : ¬ isInt128Kind (intKindFromWidth r.width r.isSigned) = true := by
    rcases hw with hw | hw <;> rw [hw] <;> cases r.isSigned <;> decide
  have hfits : IntKindInfo.Fits ⟨r.width, r.isSigned⟩ r.toInt :=
    fits_reduce (t := ⟨r.width, r.isSigned⟩) hr.width_pos _
  have hmod : (r.low64.toNat : ℤ) ≡ r.toInt [ZMOD 2 ^ 64] := by
    have h := hr.toInt_modEq
    rw [limbs_of_width hr (by omega), val_limb] at h
    exact h
  rw [if_neg hnot]
  split_ifs with hs
  · refine .int64 hinfo hfits ?_ (fun h => by simp only at h; omega)
    refine Int.ModEq.trans ?_ hmod
    rw [BitVec.toInt_eq_toNat_bmod]
    have := Int.bmod_emod (x := (r.low64.toNat : ℤ)) (m := 2 ^ 64)
    push_cast at this
    exact this
  · exact .uint64 hinfo hfits hmod (fun h => by simp only at h; omega)

/-- **A packed result is the value at its type.** -/
theorem isInteger_pack (ch : Option Bool) {r : BitIntValue} (ht : ResultType t) (hr : r.Valid)
    (hw : r.width = t.width) (hs : r.isSigned = t.isSigned) :
    IsInteger ch (packBitIntResult r t) t r.toInt := by
  obtain ⟨W, S, B⟩ := t
  simp only at hw hs
  subst hw hs
  cases B with
  | true => exact .bitInt hr ht.le
  | false =>
    rw [packBitIntResult]
    simp only [Bool.false_eq_true, if_false]
    rcases ht.std rfl with h32 | h64 | h128
    · exact isInteger_inline ch hr (.inl h32)
    · exact isInteger_inline ch hr (.inr h64)
    · have hcore : isInt128Kind (intKindFromWidth r.width r.isSigned) = true := by
        simp only at h128
        rw [h128]
        cases r.isSigned <;> rfl
      have hsign : r.isSigned = (intKindFromWidth r.width r.isSigned == .i128) := by
        simp only at h128
        rw [h128]
        cases r.isSigned <;> rfl
      rw [if_pos hcore]
      have h : IsInteger ch (.bitInt (intKindFromWidth r.width r.isSigned) r)
          ⟨128, intKindFromWidth r.width r.isSigned == .i128, false⟩ r.toInt :=
        .int128 hcore hr h128 hsign
      rw [← hsign] at h
      simp only at h128
      rw [h128] at h ⊢
      exact h

end Types

section Folds

variable {ch : Option Bool} {a b : WideLiteral} {t ta tb : BitIntOperandType} {x y z : ℤ}
  {av bv : BitIntValue} {r : Option (Except ConstEvalFailure WideLiteral)}

theorem ResultType.limbs (ht : ResultType t) : t.width + 63 < 2 ^ 32 := by
  have := ht.le
  omega

theorem ResultType.declared_eq (ht : ResultType t) : BitIntValue.declared t.width = t.width :=
  BitIntValue.declared_eq ht.pos

theorem returns_pack (ht : ResultType t) {v : BitIntValue}
    (hr : r = some (.ok (packBitIntResult v t)))
    (hv : v.Valid) (hw : v.width = BitIntValue.declared t.width) (hs : v.isSigned = t.isSigned)
    (hz : v.toInt = z) : Returns ch r (t, z) :=
  ⟨_, hr, hz ▸ isInteger_pack ch ht hv (hw.trans ht.declared_eq) hs⟩

theorem returns_ofLimbs (ht : ResultType t) {ls : List (BitVec 64)} {w : ℤ}
    (hr : r = some (.ok (packBitIntResult (.ofLimbs ls t.width t.isSigned) t)))
    (hval : (BitIntValue.ofLimbs ls t.width t.isSigned).toInt =
      wrapInt (BitIntValue.declared t.width) t.isSigned w) (hz : convert t w = z) :
    Returns ch r (t, z) := by
  rw [ht.declared_eq] at hval
  refine returns_pack ht hr (BitIntValue.valid_ofLimbs ls t.isSigned ht.limbs) ?_ rfl
    (hval.trans hz)
  exact BitIntValue.declared_eq (BitIntValue.declared_pos _)

theorem returns_wrapTo (ht : ResultType t) {v : BitIntValue} {w : ℤ}
    (hr : r = some (.ok (packBitIntResult (v.wrapTo t.width t.isSigned) t)))
    (hval : (v.wrapTo t.width t.isSigned).toInt =
      wrapInt (BitIntValue.declared t.width) t.isSigned w) (hz : convert t w = z) :
    Returns ch r (t, z) := by
  rw [ht.declared_eq] at hval
  exact returns_pack ht hr (BitIntValue.valid_wrapTo v t.isSigned ht.limbs) rfl rfl
    (hval.trans hz)

theorem returns_truth (p : Prop) [Decidable p] (hr : r = some (.ok (makeBoolLiteral (decide p)))) :
    Returns ch r (truthType, truth p) := by
  have hval : (boolBits (decide p)).toInt = truth p := by
    by_cases hp : p <;> simp [hp, truth, boolBits]
  have hfits : IntKindInfo.Fits ⟨1, false⟩ (truth p) := by
    rw [truth]
    split_ifs <;> decide
  refine ⟨_, hr, ?_⟩
  refine .int64 (show intKindInfo .bool ch = some ⟨1, false⟩ from rfl) hfits ?_ fun _ => hval
  rw [hval]

theorem follows_of_returns {p : BitIntOperandType × ℤ} (h : Returns ch r p) :
    Follows ch r (some p) :=
  ⟨fun q hq => Option.some.inj hq ▸ h, fun hn => by cases hn⟩

theorem follows_of_refuses (h : Refuses r) : Follows ch r none :=
  ⟨fun q hq => (by cases hq), fun _ => h⟩

/-! Converting first does not change what is reduced afterwards. -/

theorem convert_modEq (t : BitIntOperandType) (z : ℤ) : convert t z ≡ z [ZMOD 2 ^ t.width] :=
  Bits.wrapInt_modEq _ _ _

theorem convert_congr (h : x ≡ y [ZMOD 2 ^ t.width]) : convert t x = convert t y :=
  Bits.wrapInt_congr h

theorem convert_bitwise {f : ℤ → ℤ → ℤ} {g : Bool → Bool → Bool}
    (hf : ∀ (x y : ℤ) (i : ℕ), (f x y).testBit i = g (x.testBit i) (y.testBit i)) :
    convert t (f x y) = convert t (f (convert t x) (convert t y)) := by
  apply Bits.wrapInt_eq_of_testBit
  intro i hi
  rw [hf, hf, Bits.testBit_of_modEq (convert_modEq t x) hi,
    Bits.testBit_of_modEq (convert_modEq t y) hi]

theorem follows_modular (ht : ResultType (bitIntUac ta tb)) (hav : av.Valid) (hbv : bv.Valid)
    {op : HirOpKind} (hop : op ∈ [HirOpKind.add, .sub, .mul, .bitAnd, .bitOr, .bitXor]) :
    Follows ch (some (foldWideOperands op b ta tb av bv)) (cWide op ta tb av.toInt bv.toInt) := by
  have hmx := convert_modEq (bitIntUac ta tb) av.toInt
  have hmy := convert_modEq (bitIntUac ta tb) bv.toInt
  simp only [List.mem_cons, List.not_mem_nil, or_false] at hop
  rcases hop with rfl | rfl | rfl | rfl | rfl | rfl
  · exact follows_of_returns (returns_ofLimbs ht rfl (BitIntValue.toInt_add _ hav hbv ht.limbs)
      (convert_congr (hmx.add hmy).symm))
  · exact follows_of_returns (returns_ofLimbs ht rfl (BitIntValue.toInt_sub _ hav hbv ht.limbs)
      (convert_congr (hmx.sub hmy).symm))
  · exact follows_of_returns (returns_ofLimbs ht rfl (BitIntValue.toInt_mul _ hav hbv ht.limbs)
      (convert_congr (hmx.mul hmy).symm))
  · exact follows_of_returns (returns_ofLimbs ht rfl (BitIntValue.toInt_bitAnd _ hav hbv ht.limbs)
      (convert_bitwise Int.testBit_land))
  · exact follows_of_returns (returns_ofLimbs ht rfl (BitIntValue.toInt_bitOr _ hav hbv ht.limbs)
      (convert_bitwise Int.testBit_lor))
  · exact follows_of_returns (returns_ofLimbs ht rfl (BitIntValue.toInt_bitXor _ hav hbv ht.limbs)
      (convert_bitwise Int.testBit_lxor))

theorem holds_compare (p q : ℤ) :
    (HirOpKind.eq.holds (Ord.compare p q) = decide (p = q) ∧
      HirOpKind.ne.holds (Ord.compare p q) = decide (p ≠ q)) ∧
    (HirOpKind.lt.holds (Ord.compare p q) = decide (p < q) ∧
      HirOpKind.le.holds (Ord.compare p q) = decide (p ≤ q)) ∧
    HirOpKind.gt.holds (Ord.compare p q) = decide (q < p) ∧
    HirOpKind.ge.holds (Ord.compare p q) = decide (q ≤ p) := by
  rcases lt_trichotomy p q with h | rfl | h
  · rw [compare_lt_iff_lt.2 h]
    simp [HirOpKind.holds, h, h.le, h.ne, h.not_ge, h.not_gt]
  · rw [compare_eq_iff_eq.2 rfl]
    simp [HirOpKind.holds]
  · rw [compare_gt_iff_gt.2 h]
    simp [HirOpKind.holds, h, h.le, h.ne', h.not_ge, h.not_gt]

theorem follows_compare (ht : ResultType (bitIntUac ta tb)) (hav : av.Valid) (hbv : bv.Valid)
    {op : HirOpKind} (hop : op.isComparison = true) :
    Follows ch (some (foldWideOperands op b ta tb av bv)) (cWide op ta tb av.toInt bv.toInt) := by
  have hcmp := BitIntValue.compare_eq (bitIntUac ta tb).isSigned hav hbv ht.limbs
  rw [ht.declared_eq] at hcmp
  obtain ⟨⟨heq, hne⟩, ⟨hlt, hle⟩, hgt, hge⟩ := holds_compare
    (convert (bitIntUac ta tb) av.toInt) (convert (bitIntUac ta tb) bv.toInt)
  rw [foldWideOperands, if_pos hop]
  simp only [hcmp]
  cases op with
  | eq => exact follows_of_returns (returns_truth _ (by rw [← heq]; rfl))
  | ne => exact follows_of_returns (returns_truth _ (by rw [← hne]; rfl))
  | lt => exact follows_of_returns (returns_truth _ (by rw [← hlt]; rfl))
  | le => exact follows_of_returns (returns_truth _ (by rw [← hle]; rfl))
  | gt => exact follows_of_returns (returns_truth _ (by rw [← hgt]; rfl))
  | ge => exact follows_of_returns (returns_truth _ (by rw [← hge]; rfl))
  | _ => cases hop

def wideQuotient (ta tb : BitIntOperandType) (x y : ℤ) : ℤ :=
  (convert (bitIntUac ta tb) x).tdiv (convert (bitIntUac ta tb) y)

def QuotientOverflows (op : HirOpKind) (ta tb : BitIntOperandType) (x y : ℤ) : Prop :=
  (op = .div ∨ op = .rem) ∧ convert (bitIntUac ta tb) y ≠ 0 ∧
    convert (bitIntUac ta tb) (wideQuotient ta tb x y) ≠ wideQuotient ta tb x y

theorem convert_tmod (ht : ResultType t) (x y : ℤ) :
    convert t ((convert t x).tmod y) = (convert t x).tmod y := by
  have hx : IntKindInfo.Fits ⟨t.width, t.isSigned⟩ (convert t x) := fits_reduce ht.pos x
  have h0 := fits_zero ⟨t.width, t.isSigned⟩
  apply reduce_of_fits (t := ⟨t.width, t.isSigned⟩) ht.pos
  generalize convert t x = p at hx
  rw [IntKindInfo.Fits] at hx h0 ⊢
  have hle : (p.tmod y).natAbs ≤ p.natAbs := by
    rw [Int.natAbs_tmod]
    exact Nat.mod_le _ _
  by_cases hp : 0 ≤ p
  · have hnn := Int.tmod_nonneg y hp
    omega
  · have hnn := Int.tmod_nonneg y (show 0 ≤ -p by omega)
    rw [Int.neg_tmod] at hnn
    omega

theorem follows_division (ht : ResultType (bitIntUac ta tb)) (hav : av.Valid) (hbv : bv.Valid)
    {op : HirOpKind} (hop : op = .div ∨ op = .rem)
    (hfit : ¬ QuotientOverflows op ta tb av.toInt bv.toInt) :
    Follows ch (some (foldWideOperands op b ta tb av bv)) (cWide op ta tb av.toInt bv.toInt) := by
  have hdiv := BitIntValue.toInt_divRem (bitIntUac ta tb).isSigned hav hbv ht.limbs
  rw [ht.declared_eq] at hdiv
  by_cases hy : convert (bitIntUac ta tb) bv.toInt = 0
  · rcases hop with rfl | rfl
    · have hnone : BitIntValue.divide av bv (bitIntUac ta tb).width (bitIntUac ta tb).isSigned =
          none := (hdiv false).1 hy
      have hc : cWide .div ta tb av.toInt bv.toInt = none := if_pos (.inl hy)
      rw [hc]
      refine follows_of_refuses ⟨.divisionByZero, ?_⟩
      simp [foldWideOperands, HirOpKind.isComparison, HirOpKind.isShiftOp, hnone]
    · have hnone : BitIntValue.remainder av bv (bitIntUac ta tb).width (bitIntUac ta tb).isSigned =
          none := (hdiv true).1 hy
      have hc : cWide .rem ta tb av.toInt bv.toInt = none := if_pos (.inl hy)
      rw [hc]
      refine follows_of_refuses ⟨.divisionByZero, ?_⟩
      simp [foldWideOperands, HirOpKind.isComparison, HirOpKind.isShiftOp, hnone]
  · have hq : convert (bitIntUac ta tb) (wideQuotient ta tb av.toInt bv.toInt) =
        wideQuotient ta tb av.toInt bv.toInt := by
      by_contra hne
      exact hfit ⟨hop, hy, hne⟩
    have hcond : ¬ (convert (bitIntUac ta tb) bv.toInt = 0 ∨
        convert (bitIntUac ta tb) (wideQuotient ta tb av.toInt bv.toInt) ≠
          wideQuotient ta tb av.toInt bv.toInt) := by
      rintro (h | h)
      · exact hy h
      · exact h hq
    rcases hop with rfl | rfl
    · obtain ⟨v, hv, hvalid, hw, hs, hval⟩ := (hdiv false).2 hy
      rw [show cWide .div ta tb av.toInt bv.toInt =
        some (bitIntUac ta tb, wideQuotient ta tb av.toInt bv.toInt) from if_neg hcond]
      refine follows_of_returns (returns_pack ht ?_ hvalid (hw.trans ht.declared_eq.symm) hs
        (hval.trans hq))
      have hv' : BitIntValue.divide av bv (bitIntUac ta tb).width (bitIntUac ta tb).isSigned =
          some v := hv
      simp [foldWideOperands, HirOpKind.isComparison, HirOpKind.isShiftOp, hv']
    · obtain ⟨v, hv, hvalid, hw, hs, hval⟩ := (hdiv true).2 hy
      rw [show cWide .rem ta tb av.toInt bv.toInt = some (bitIntUac ta tb,
        (convert (bitIntUac ta tb) av.toInt).tmod (convert (bitIntUac ta tb) bv.toInt)) from
        if_neg hcond]
      refine follows_of_returns (returns_pack ht ?_ hvalid (hw.trans ht.declared_eq.symm) hs
        (hval.trans (convert_tmod ht _ _)))
      have hv' : BitIntValue.remainder av bv (bitIntUac ta tb).width (bitIntUac ta tb).isSigned =
          some v := hv
      simp [foldWideOperands, HirOpKind.isComparison, HirOpKind.isShiftOp, hv']

theorem not_refuses_div (ht : ResultType (bitIntUac ta tb)) (hav : av.Valid) (hbv : bv.Valid)
    (hy : convert (bitIntUac ta tb) bv.toInt ≠ 0) :
    ¬ Refuses (some (foldWideOperands .div b ta tb av bv)) := by
  have hdiv := BitIntValue.toInt_divRem (bitIntUac ta tb).isSigned hav hbv ht.limbs
  rw [ht.declared_eq] at hdiv
  obtain ⟨v, hv, -⟩ := (hdiv false).2 hy
  have hv' : BitIntValue.divide av bv (bitIntUac ta tb).width (bitIntUac ta tb).isSigned = some v :=
    hv
  rintro ⟨f, hf⟩
  simp [foldWideOperands, HirOpKind.isComparison, HirOpKind.isShiftOp, hv'] at hf

/-! Shift counts. -/

theorem narrow_eq {v : BitIntValue} (hv : v.Valid) (h0 : 0 ≤ v.toInt) (h63 : v.toInt < 2 ^ 63) :
    v.narrow = some v.low64 ∧ (v.low64.toNat : ℤ) = v.toInt := by
  have hneg : v.isNegative = false := by
    rw [hv.isNegative_eq]
    exact decide_eq_false (by omega)
  have hval := hv.toInt_eq
  rw [hneg] at hval
  simp only [Bool.false_eq_true, if_false, sub_zero] at hval
  cases hl : v.limbs with
  | nil =>
    have hlen := hv.length_eq
    have hpos := hv.width_pos
    rw [hl, List.length_nil] at hlen
    omega
  | cons l ls =>
    rw [hl, Limbs.val_cons] at hval
    have hlow : v.low64 = l := by
      rw [BitIntValue.low64, hl]
      rfl
    have hls : Limbs.val ls = 0 := by
      push_cast at hval
      omega
    have hlt : l.toNat < 2 ^ 63 := by
      push_cast at hval
      omega
    have hli : l.toInt = l.toNat := BitVec.toInt_eq_toNat_of_lt (by omega)
    have hall : ls.all (· == 0#64) = true := by
      rw [List.all_eq_true]
      intro m hm
      rw [(BitIntValue.val_eq_zero_iff ls).1 hls m hm]
      rfl
    refine ⟨?_, ?_⟩
    · rw [BitIntValue.narrow, hneg, hlow, hl, List.tail_cons]
      have hsign : decide (l.toInt < 0) = false := decide_eq_false (by omega)
      simp only [hsign, ne_eq, not_true, if_false, Bool.false_eq_true, hall, if_true]
    · rw [hlow, hval, hls]
      push_cast
      omega

theorem shiftCount_eq (hb : IsInteger ch b tb y) (h0 : 0 ≤ y) (h63 : y < 2 ^ 63)
    (bv : BitIntValue) :
    shiftCount b bv = y.toNat := by
  have hread : ∃ ic, b.asInt64 = some ic ∧ ic.toInt = y := by
    cases hb with
    | int64 hk hx hi hwide =>
      rename_i i
      refine ⟨i, rfl, ?_⟩
      have hlo := BitVec.le_toInt i
      have hhi : i.toInt < 2 ^ (64 - 1) := BitVec.toInt_lt
      have hdvd := hi.dvd
      omega
    | uint64 hk hx hu hwide =>
      rename_i u
      have hlt := u.isLt
      have hdvd := hu.dvd
      have hu' : (u.toNat : ℤ) = y := by omega
      refine ⟨u, ?_, ?_⟩
      · exact if_neg (by omega)
      · rw [BitVec.toInt_eq_toNat_of_lt (by omega), hu']
    | bool hk hx =>
      rename_i c
      refine ⟨boolBits c, rfl, ?_⟩
      cases c <;> rfl
    | bitInt hv hw | int128 hc hv hw hs =>
      obtain ⟨hn, hl⟩ := narrow_eq hv h0 h63
      refine ⟨_, hn, ?_⟩
      rw [BitVec.toInt_eq_toNat_of_lt (by omega), hl]
  obtain ⟨ic, hic, hval⟩ := hread
  rw [shiftCount, hic]
  simp only [hval, h0, if_true]
  rw [← hval]
  have hnn : 0 ≤ ic.toInt := by omega
  rw [BitVec.toInt_eq_toNat_of_msb (by simpa [BitVec.msb_eq_toInt] using hnn)]
  rfl

theorem toInt_shiftLeft_any (ht : ResultType t) (hav : av.Valid) (c : ℕ) :
    (BitIntValue.shiftLeft av c t.width t.isSigned).toInt =
      wrapInt (BitIntValue.declared t.width) t.isSigned (av.toInt * 2 ^ c) := by
  by_cases hc : c < t.width
  · exact BitIntValue.toInt_shiftLeft t.isSigned hav ht.limbs hc
  · rw [BitIntValue.shiftLeft, if_pos (by omega)]
    rw [BitIntValue.toInt_wrapTo t.isSigned ht.limbs
      (by simp only [List.length_replicate, BitIntValue.withType_length]),
      Limbs.val_replicate_zero]
    apply Bits.wrapInt_congr
    rw [ht.declared_eq, Int.modEq_iff_dvd]
    simp only [Nat.cast_zero, sub_zero]
    exact Dvd.dvd.mul_left (pow_dvd_pow 2 (by omega)) _

theorem toInt_shiftRight_any (ht : ResultType t) (hav : av.Valid) (c : ℕ) :
    (BitIntValue.shiftRight av c t.width t.isSigned).toInt =
      wrapInt (BitIntValue.declared t.width) t.isSigned
        (convert t av.toInt / 2 ^ min c (t.width - 1)) := by
  have hpos := ht.pos
  have hdec := ht.declared_eq
  have hmin : BitIntValue.shiftRight av c t.width t.isSigned =
      BitIntValue.shiftRight av (min c (t.width - 1)) t.width t.isSigned := by
    rw [BitIntValue.shiftRight, BitIntValue.shiftRight]
    have hcount : (if t.width ≤ c then (if t.width = 0 then 0 else t.width - 1) else c) =
        if t.width ≤ min c (t.width - 1) then (if t.width = 0 then 0 else t.width - 1)
          else min c (t.width - 1) := by
      split_ifs <;> omega
    simp only [hcount]
  rw [hmin, BitIntValue.toInt_shiftRight t.isSigned hav ht.limbs (by omega), convert, hdec]

def saturatedShift (op : HirOpKind) (t : BitIntOperandType) (x y : ℤ) : ℤ :=
  if op = .shl then convert t (convert t x * 2 ^ y.toNat)
  else convert t x / 2 ^ min y.toNat (t.width - 1)

theorem returns_shift (ht : ResultType (promoteBitIntOperand ta)) (hav : av.Valid)
    (hb : IsInteger ch b tb y) (h0 : 0 ≤ y) (h63 : y < 2 ^ 63) {op : HirOpKind}
    (hop : op.isShiftOp = true) :
    Returns ch (some (foldWideOperands op b ta tb av bv))
      (promoteBitIntOperand ta, saturatedShift op (promoteBitIntOperand ta) av.toInt y) := by
  have hcount := shiftCount_eq hb h0 h63 bv
  have hcmp : ¬ op.isComparison = true := by cases op <;> simp_all [HirOpKind.isComparison,
    HirOpKind.isShiftOp]
  rw [foldWideOperands, if_neg hcmp, if_pos hop]
  simp only [hcount]
  by_cases hshl : op = .shl
  · rw [saturatedShift, if_pos hshl, if_pos hshl]
    have hval := toInt_shiftLeft_any ht hav y.toNat
    rw [ht.declared_eq] at hval
    refine returns_pack ht rfl ?_ ?_ ?_ (hval.trans (convert_congr ?_))
    · rw [BitIntValue.shiftLeft]
      split_ifs
      · exact BitIntValue.valid_wrapTo _ _ ht.limbs
      · exact BitIntValue.valid_wrapTo _ _ ht.limbs
    · rw [BitIntValue.shiftLeft]
      split_ifs <;> rfl
    · rw [BitIntValue.shiftLeft]
      split_ifs <;> rfl
    · exact ((convert_modEq _ _).mul_right _).symm
  · rw [saturatedShift, if_neg hshl, if_neg hshl]
    have hfits : IntKindInfo.Fits
        ⟨(promoteBitIntOperand ta).width, (promoteBitIntOperand ta).isSigned⟩
        (convert (promoteBitIntOperand ta) av.toInt) := fits_reduce ht.pos _
    exact returns_wrapTo ht rfl (toInt_shiftRight_any ht hav y.toNat)
      (reduce_of_fits (t := ⟨(promoteBitIntOperand ta).width, (promoteBitIntOperand ta).isSigned⟩)
        ht.pos (fits_shiftRight hfits _))

theorem IsInteger.resultType (h : IsInteger ch a t x) (hw : a.isWide = true) : ResultType t := by
  have hot := h.operandType
  refine ⟨hot.pos, hot.le, fun hb => ?_⟩
  cases h with
  | int64 hk | uint64 hk | bool hk =>
    have hc := intKindInfo_128 hk (show isInt128Kind _ = true from hw)
    exact .inr (.inr (by rw [hc]))
  | bitInt hv hw => cases hb
  | int128 hc hv hw hs => exact .inr (.inr rfl)

theorem follows_unary (ha : IsInteger ch a t x) (hw : a.isWide = true) {op : HirOpKind}
    (hop : op = .neg ∨ op = .bitNot ∨ op = .not) :
    Follows ch (foldBitIntUnary op a ch) (cWideUnary op t x) := by
  have ht := ha.resultType hw
  obtain ⟨v, hv, hvalid, rfl⟩ := ha.asBitIntValue_spec
  have hent : ¬ (!a.holdsBitInt && !isInt128Kind a.core) = true := by
    rw [WideLiteral.isWide] at hw
    revert hw
    cases a.holdsBitInt <;> cases isInt128Kind a.core <;> decide
  rw [foldBitIntUnary, if_neg hent, ha.bitIntOperandType_eq, hv]
  rcases hop with rfl | rfl | rfl
  · exact follows_of_returns (returns_ofLimbs ht rfl (BitIntValue.toInt_neg _ hvalid ht.limbs) rfl)
  · exact follows_of_returns
      (returns_wrapTo ht rfl (BitIntValue.toInt_bitNot _ hvalid ht.limbs) rfl)
  · exact follows_of_returns (returns_truth _ (by rw [← hvalid.isZero_eq]))

theorem foldBitIntBinary_eq (ha : IsInteger ch a ta x) (hb : IsInteger ch b tb y)
    (hw : a.isWide = true ∨ b.isWide = true) (op : HirOpKind) :
    ∃ av bv, (av.Valid ∧ av.toInt = x) ∧ (bv.Valid ∧ bv.toInt = y) ∧
      foldBitIntBinary op a b ch = some (foldWideOperands op b ta tb av bv) := by
  obtain ⟨av, hav, hva, hx⟩ := ha.asBitIntValue_spec
  obtain ⟨bv, hbv, hvb, hy⟩ := hb.asBitIntValue_spec
  refine ⟨av, bv, ⟨hva, hx⟩, ⟨hvb, hy⟩, ?_⟩
  have hent : ¬ (!a.isWide && !b.isWide) = true := by
    rcases hw with hw | hw <;> simp [hw]
  rw [foldBitIntBinary, if_neg hent, ha.bitIntOperandType_eq, hb.bitIntOperandType_eq, hav, hbv]

/-- **The folds over wide integers are C's operators**: every operator but a shift returns the
mathematical result at the type of the usual arithmetic conversions and refuses a zero divisor,
an unrepresentable quotient apart; a shift never refuses and saturates its count; the unary
operators return the result at the operand's type. -/
theorem foldBitInt_exact (ha : IsInteger ch a ta x) (hb : IsInteger ch b tb y)
    (hw : a.isWide = true ∨ b.isWide = true) :
    (∀ op : HirOpKind, op ∉ [HirOpKind.neg, .not, .bitNot] → op.isShiftOp = false →
      ¬ QuotientOverflows op ta tb x y →
        Follows ch (foldBitIntBinary op a b ch) (cWide op ta tb x y)) ∧
    (∀ op : HirOpKind, op.isShiftOp = true →
      ¬ Refuses (foldBitIntBinary op a b ch) ∧
      (0 ≤ y → y < 2 ^ 63 → Returns ch (foldBitIntBinary op a b ch)
        (promoteBitIntOperand ta, saturatedShift op (promoteBitIntOperand ta) x y))) ∧
    (a.isWide = true → ∀ op ∈ [HirOpKind.neg, .not, .bitNot],
      Follows ch (foldBitIntUnary op a ch) (cWideUnary op ta x)) := by
  have huac := ha.operandType.uac hb.operandType
  refine ⟨fun op hop hsh hfit => ?_, fun op hop => ?_, fun hwa op hop => ?_⟩
  · obtain ⟨av, bv, ⟨hav, rfl⟩, ⟨hbv, rfl⟩, hfold⟩ := foldBitIntBinary_eq ha hb hw op
    rw [hfold]
    cases op with
    | add | sub | mul | bitAnd | bitOr | bitXor => exact follows_modular huac hav hbv (by simp)
    | div => exact follows_division huac hav hbv (.inl rfl) hfit
    | rem => exact follows_division huac hav hbv (.inr rfl) hfit
    | eq | ne | lt | le | gt | ge => exact follows_compare huac hav hbv rfl
    | shl | shr => cases hsh
    | neg | not | bitNot => simp at hop
  · obtain ⟨av, bv, ⟨hav, rfl⟩, ⟨hbv, -⟩, hfold⟩ := foldBitIntBinary_eq ha hb hw op
    rw [hfold]
    refine ⟨?_, fun h0 h63 => returns_shift ha.operandType.promote hav hb h0 h63 hop⟩
    rintro ⟨f, hf⟩
    cases op with
    | shl | shr => cases hf
    | _ => cases hop
  · refine follows_unary ha hwa ?_
    simp only [List.mem_cons, List.not_mem_nil, or_false] at hop
    tauto

theorem isInteger_one_nine :
    IsInteger none (.bitInt .bitInt (.fromU64 1#64 8 true)) ⟨8, true, true⟩ 1 ∧
      IsInteger none (.plain (.int64 .i32 9#64)) ⟨32, true, false⟩ 9 := by
  have hone : (BitIntValue.fromU64 1#64 8 true).toInt = 1 := by decide
  refine ⟨?_, .int64 (show intKindInfo .i32 none = some ⟨32, true⟩ from rfl) (by decide) (by decide)
    (by decide)⟩
  rw [← hone]
  exact .bitInt (BitIntValue.valid_fromU64 true _ (by decide)) (by decide)

theorem foldBitInt_exact_one_nine :
    Returns none (foldBitIntBinary .add (.bitInt .bitInt (.fromU64 1#64 8 true))
      (.plain (.int64 .i32 9#64)) none) (⟨32, true, false⟩, 10) ∧
    Returns none (foldBitIntBinary .shl (.bitInt .bitInt (.fromU64 1#64 8 true))
      (.plain (.int64 .i32 9#64)) none) (⟨8, true, true⟩, 0) := by
  obtain ⟨hbinary, hshift, -⟩ := foldBitInt_exact isInteger_one_nine.1 isInteger_one_nine.2
    (.inl rfl)
  have hadd := (hbinary .add (by decide) rfl (by rintro ⟨h | h, -⟩ <;> cases h)).1
    (⟨32, true, false⟩, 10) (by decide)
  have hshl := (hshift .shl rfl).2 (by decide) (by decide)
  refine ⟨hadd, ?_⟩
  have hval : saturatedShift .shl ⟨8, true, true⟩ 1 9 = 0 := by decide
  rw [← hval]
  exact hshl

theorem foldBitIntBinary_wideCount :
    (IsInteger none (.bitInt .bitInt (.fromU64 1#64 8 true)) ⟨8, true, true⟩ 1 ∧
      IsInteger none (.plain (.int64 .i32 9#64)) ⟨32, true, false⟩ 9 ∧
      ¬ Follows none (foldBitIntBinary .shl (.bitInt .bitInt (.fromU64 1#64 8 true))
        (.plain (.int64 .i32 9#64)) none) (cWide .shl ⟨8, true, true⟩ ⟨32, true, false⟩ 1 9)) ∧
    IsInteger none (.bitInt .bitInt (.fromU64 128#64 8 true)) ⟨8, true, true⟩ (-128) ∧
    IsInteger none (.bitInt .bitInt (.fromU64 255#64 8 true)) ⟨8, true, true⟩ (-1) ∧
    ¬ Follows none (foldBitIntBinary .div (.bitInt .bitInt (.fromU64 128#64 8 true))
      (.bitInt .bitInt (.fromU64 255#64 8 true)) none)
      (cWide .div ⟨8, true, true⟩ ⟨8, true, true⟩ (-128) (-1)) := by
  have hmin : (BitIntValue.fromU64 128#64 8 true).toInt = -128 := by decide
  have hneg : (BitIntValue.fromU64 255#64 8 true).toInt = -1 := by decide
  have ha : IsInteger none (.bitInt .bitInt (.fromU64 128#64 8 true)) ⟨8, true, true⟩ (-128) := by
    rw [← hmin]
    exact .bitInt (BitIntValue.valid_fromU64 true _ (by decide)) (by decide)
  have hb : IsInteger none (.bitInt .bitInt (.fromU64 255#64 8 true)) ⟨8, true, true⟩ (-1) := by
    rw [← hneg]
    exact .bitInt (BitIntValue.valid_fromU64 true _ (by decide)) (by decide)
  refine ⟨⟨isInteger_one_nine.1, isInteger_one_nine.2, fun h => ?_⟩, ha, hb, fun h => ?_⟩
  · obtain ⟨f, hf⟩ := h.2 (by decide)
    cases hf
  · obtain ⟨av, bv, ⟨hav, -⟩, ⟨hbv, hy⟩, hfold⟩ := foldBitIntBinary_eq ha hb (.inl rfl) .div
    have href := h.2 (by decide)
    rw [hfold] at href
    exact not_refuses_div (ha.operandType.uac hb.operandType) hav hbv (by rw [hy]; decide) href

end Folds

end ConstEval

end DssPrime
