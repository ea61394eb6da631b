import DssPrime.Opt.ConstFold
import DssPrime.Bits.Extend

/-!
# How constant folding reads its operands

An `N`-bit constant is held in a literal whose core says whether its 64-bit payload is extended
by sign or by zero (`IsConst`).  The fold of a binary instruction is one 64-bit operation on the
operands, extended as `reading` says (`foldBinary_eq`): below 32 bits, and for bit-precise
operands, as their cores say, otherwise at the common signedness of the domain.
-/

namespace DssPrime.ConstFold

open Bits

variable {N M : ℕ}

theorem getLsbD_mask {D : ℕ} (h : D < 64) (i : ℕ) :
    ((1#64 <<< D) - 1#64).getLsbD i = decide (i < D) := by
  have h1 : (1#64 <<< D).toNat = 2 ^ D := by
    rw [← BitVec.twoPow_eq, BitVec.toNat_twoPow_of_lt h]
  have h2 : ((1#64 <<< D) - 1#64).toNat = 2 ^ D - 1 := by
    rw [BitVec.toNat_sub_of_le, h1]
    · rfl
    · rw [BitVec.le_def, h1]; exact Nat.one_le_two_pow
  rw [BitVec.getLsbD, h2, Nat.testBit_two_pow_sub_one]

theorem wrapToIntTarget_eq {D : ℕ} (v : BitVec 64) (s : Bool) (h1 : 1 ≤ D) (h : D ≤ 64) :
    wrapToIntTarget v ⟨D, s⟩ = widen 64 s (v.setWidth D) := by
  rw [wrapToIntTarget]
  by_cases hD : 64 ≤ D
  · obtain rfl : D = 64 := le_antisymm h hD
    rw [if_pos hD, widen_self, BitVec.setWidth_eq]
  · have hlt : D < 64 := by omega
    have hmask : v &&& ((1#64 <<< D) - 1#64) = (v.setWidth D).setWidth 64 := by
      apply BitVec.eq_of_getLsbD_eq
      intro i hi
      rw [BitVec.getLsbD_and, getLsbD_mask hlt, BitVec.getLsbD_setWidth, BitVec.getLsbD_setWidth]
      simp [hi, Bool.and_comm]
    have hmsb : (v.setWidth D).msb = v.getLsbD (D - 1) := by
      rw [BitVec.msb_eq_getLsbD_last, BitVec.getLsbD_setWidth]
      simp [show D - 1 < D by omega]
    have htest : (((v.setWidth D).setWidth 64 &&& (1#64 <<< (D - 1))) != 0#64) =
        (v.setWidth D).msb := by
      rw [← BitVec.twoPow_eq, BitVec.and_twoPow, hmsb, BitVec.getLsbD_setWidth,
        BitVec.getLsbD_setWidth]
      have h0 : BitVec.twoPow 64 (D - 1) ≠ 0#64 := by
        intro h0
        have := congrArg BitVec.toNat h0
        rw [BitVec.toNat_twoPow_of_lt (by omega)] at this
        exact absurd this (by simp)
      have h3 : D - 1 < 64 := by omega
      have h4 : D - 1 < D := by omega
      cases v.getLsbD (D - 1) <;> simp [h0, h3, h4]
    rw [if_neg hD]
    simp only [hmask, htest]
    cases s with
    | false => simp [widen]
    | true =>
      cases hm : (v.setWidth D).msb with
      | false =>
        simp only [Bool.and_false, Bool.false_eq_true, if_false, widen, if_true]
        rw [BitVec.signExtend_eq_setWidth_of_msb_false hm]
      | true =>
        simp only [Bool.and_true, if_true, widen]
        apply BitVec.eq_of_getLsbD_eq
        intro i hi
        rw [BitVec.getLsbD_or, BitVec.getLsbD_not, getLsbD_mask hlt, BitVec.getLsbD_signExtend,
          BitVec.getLsbD_setWidth, hm]
        by_cases hiD : i < D <;> simp [hi, hiD]

/-- What the type of a constant is to the fold. -/
inductive ConstShape where
  | std (core : TypeKind)
  | bitInt (width : ℕ) (isSigned : Bool)
  deriving DecidableEq

namespace ConstShape

def isBitInt : ConstShape → Bool
  | std _ => false
  | bitInt _ _ => true

def core : ConstShape → TypeKind
  | std core => core
  | bitInt _ _ => .bitInt

def info (charIsUnsigned : Option Bool) : ConstShape → Option IntKindInfo
  | std core => intKindInfo core charIsUnsigned
  | bitInt w s => if (if s then 2 else 1) ≤ w then some ⟨w, s⟩ else none

end ConstShape

inductive IsConst (A : ConstShape) (s : Bool) (x : BitVec N) : HirLiteralValue → Prop
  | int64 {core : TypeKind} (h : A = .std core) : IsConst A s x (.int64 core (widen 64 s x))
  | uint64 {core : TypeKind} (h : A = .std core) (hx : s = true → x.msb = false) :
    IsConst A s x (.uint64 core (widen 64 s x))
  | bool {b : Bool} (h : A = .std .bool) (hx : widen 64 s x = boolBits b) :
    IsConst A s x (.bool .bool b)
  | bitInt (h : A = .bitInt N s) :
    IsConst A s x (.bitInt .bitInt N s (if s then x.toInt else x.toNat))

/-- The result an opcode is defined to have on patterns: a pattern, or a truth value. -/
def opcodeResult (op : MirOpcode) (x : BitVec N) (y : BitVec M) : Option (BitVec N ⊕ Bool) :=
  match op with
  | .add => some (.inl (x + y.setWidth N))
  | .sub => some (.inl (x - y.setWidth N))
  | .mul => some (.inl (x * y.setWidth N))
  | .sDiv => some (.inl (x.sdiv (y.setWidth N)))
  | .uDiv => some (.inl (x / y.setWidth N))
  | .sMod => some (.inl (x.srem (y.setWidth N)))
  | .uMod => some (.inl (x % y.setWidth N))
  | .and => some (.inl (x &&& y.setWidth N))
  | .or => some (.inl (x ||| y.setWidth N))
  | .xor => some (.inl (x ^^^ y.setWidth N))
  | .shl => some (.inl (x <<< y.toNat))
  | .lShr => some (.inl (x >>> y.toNat))
  | .aShr => some (.inl (x.sshiftRight y.toNat))
  | .iCmpEq => some (.inr (x == y.setWidth N))
  | .iCmpNe => some (.inr (x != y.setWidth N))
  | .iCmpSlt => some (.inr (x.slt (y.setWidth N)))
  | .iCmpSle => some (.inr (x.sle (y.setWidth N)))
  | .iCmpSgt => some (.inr ((y.setWidth N).slt x))
  | .iCmpSge => some (.inr ((y.setWidth N).sle x))
  | .iCmpUlt => some (.inr (x.ult (y.setWidth N)))
  | .iCmpUle => some (.inr (x.ule (y.setWidth N)))
  | .iCmpUgt => some (.inr ((y.setWidth N).ult x))
  | .iCmpUge => some (.inr ((y.setWidth N).ule x))
  | _ => none

/-- The payload of a result at a type of signedness `s`. -/
def renormalise (s : Bool) : BitVec N ⊕ Bool → BitVec 64
  | .inl z => widen 64 s z
  | .inr b => boolBits b

def isShift (op : MirOpcode) : Bool := op == .shl || op == .lShr || op == .aShr

def isCompare : MirOpcode → Bool
  | .iCmpEq | .iCmpNe | .iCmpSlt | .iCmpSle | .iCmpSgt | .iCmpSge | .iCmpUlt | .iCmpUle
  | .iCmpUgt | .iCmpUge => true
  | _ => false

section Reading

variable {ch : Option Bool} {A B : ConstShape} {s sA sB : Bool} {x : BitVec N} {y : BitVec M}
  {a b : HirLiteralValue}

theorem ofInt_value (h : N ≤ 64) (s : Bool) (x : BitVec N) :
    BitVec.ofInt 64 (if s then x.toInt else x.toNat) = widen 64 s x := by
  cases s with
  | false =>
    apply BitVec.eq_of_toNat_eq
    have hlt : x.toNat < 2 ^ 64 := x.isLt.trans_le (Nat.pow_le_pow_right Nat.two_pos h)
    rw [toNat_widen_false h]
    simp only [Bool.false_eq_true, if_false, BitVec.ofInt_natCast, BitVec.toNat_ofNat]
    exact Nat.mod_eq_of_lt hlt
  | true =>
    apply BitVec.eq_of_toInt_eq
    have h2 := BitVec.toInt_bmod_cancel (widen 64 true x)
    rw [toInt_widen_true h] at h2 ⊢
    simp only [if_true, BitVec.toInt_ofInt, h2]

theorem IsConst.core_eq (h : IsConst A s x a) : a.core = A.core := by
  cases h with
  | int64 h | uint64 h | bool h | bitInt h => subst h; rfl

theorem IsConst.asInt64_eq (h : IsConst A s x a) (hN : N ≤ 64) {v : BitVec 64}
    (hv : asInt64 a = some v) : v = widen 64 s x := by
  cases h with
  | int64 h => exact (Option.some.inj hv).symm
  | uint64 h =>
    rw [asInt64] at hv
    split_ifs at hv
    exact (Option.some.inj hv).symm
  | bool h hx => rw [hx]; exact (Option.some.inj hv).symm
  | bitInt h =>
    have hval := ofInt_value hN s x
    generalize (if s then x.toInt else (x.toNat : ℤ)) = w at hv hval
    rw [asInt64] at hv
    split_ifs at hv
    rw [← Option.some.inj hv, hval]

theorem IsConst.asIntBits_eq (h : IsConst A s x a) (hN : N ≤ 64) {v : BitVec 64}
    (hv : asIntBits a = some v) : v = widen 64 s x := by
  cases h with
  | uint64 h => exact (Option.some.inj hv).symm
  | int64 h => exact IsConst.asInt64_eq (.int64 h) hN hv
  | bool h hx => exact IsConst.asInt64_eq (.bool h hx) hN hv
  | bitInt h => exact IsConst.asInt64_eq (.bitInt h) hN hv

theorem IsConst.operandType (h : IsConst A s x a) (hi : A.info ch = some ⟨N, s⟩) (hN : N ≤ 64) :
    bitIntOperandType a ch = some ⟨N, s, A.isBitInt⟩ := by
  have h128 : isInt128Kind A.core = false := by
    cases A with
    | bitInt w s => rfl
    | std core =>
      rw [ConstShape.info] at hi
      simp only [ConstShape.core, isInt128Kind, Bool.or_eq_false_iff, beq_eq_false_iff_ne]
      constructor
      · rintro rfl
        simp only [intKindInfo, Option.some.injEq, IntKindInfo.mk.injEq] at hi
        omega
      · rintro rfl
        simp only [intKindInfo, Option.some.injEq, IntKindInfo.mk.injEq] at hi
        omega
  cases h with
  | bitInt h =>
    subst h
    simp [bitIntOperandType, MirLiteralValue.core, isInt128Kind, ConstShape.isBitInt]
  | int64 h | uint64 h | bool h =>
    subst h
    rw [ConstShape.info] at hi
    rw [ConstShape.core] at h128
    simp only [bitIntOperandType, MirLiteralValue.core, h128, Bool.false_eq_true, if_false, hi,
      Option.map_some, ConstShape.isBitInt]

/-- The width and signedness a standard operation of `N`-bit operands runs at. -/
def stdDomain (N : ℕ) (s : Bool) : IntKindInfo := if N < 32 then ⟨32, true⟩ else ⟨N, s⟩

theorem intOpDomain_eq {k : HirOpKind} (hk : k.isShiftOp = false) {x y : BitVec N}
    (ha : IsConst A sA x a) (hb : IsConst B sB y b) (hA : A.info ch = some ⟨N, sA⟩)
    (hB : B.info ch = some ⟨N, sB⟩) (hN : N ≤ 64) :
    intOpDomain k a b ch =
      if A.isBitInt || B.isBitInt then none else some (stdDomain N (sA && sB)) := by
  rw [intOpDomain, ha.operandType hA hN, hb.operandType hB hN, hk]
  cases hAb : A.isBitInt with
  | true => simp
  | false =>
    cases hBb : B.isBitInt with
    | true => simp
    | false =>
      by_cases h32 : N < 32
      · simp [bitIntUac, promoteBitIntOperand, h32, stdDomain]
      · simp [bitIntUac, promoteBitIntOperand, h32, stdDomain, hN]

theorem intOpDomain_shift {k : HirOpKind} (hk : k.isShiftOp = true)
    (ha : IsConst A sA x a) (hA : A.info ch = some ⟨N, sA⟩) (hN : N ≤ 64) :
    intOpDomain k a b ch = if A.isBitInt then none else some (stdDomain N sA) := by
  rw [intOpDomain, ha.operandType hA hN, hk]
  cases hAb : A.isBitInt with
  | true => simp
  | false =>
    by_cases h32 : N < 32
    · simp [promoteBitIntOperand, h32, stdDomain]
    · simp [promoteBitIntOperand, h32, stdDomain, hN]

theorem intKindInfo_pos {k : TypeKind} (h : intKindInfo k ch = some ⟨N, s⟩) : 1 ≤ N := by
  cases k <;> simp only [intKindInfo, Option.some.injEq, IntKindInfo.mk.injEq,
    reduceCtorEq] at h <;>
    try omega
  cases ch with
  | none => simp at h
  | some u => simp only [Option.map_some, Option.some.injEq, IntKindInfo.mk.injEq] at h; omega

theorem ConstShape.info_pos (h : A.info ch = some ⟨N, s⟩) : 1 ≤ N := by
  cases A with
  | std core => exact intKindInfo_pos h
  | bitInt w s' =>
    rw [ConstShape.info] at h
    split_ifs at h with hw h' <;>
      simp only [Option.some.injEq, IntKindInfo.mk.injEq] at h <;> omega

theorem wrapToIntTarget_stdDomain (h1 : 1 ≤ N) (hN : N ≤ 64) (d : Bool) (x : BitVec N) :
    wrapToIntTarget (widen 64 s x) (stdDomain N d) = widen 64 (if N < 32 then s else d) x := by
  rw [stdDomain]
  split_ifs with h32
  · rw [wrapToIntTarget_eq _ _ (by omega) (by omega), widen_setWidth_widen (by omega) (by omega),
      widen_widen h32 (by omega)]
  · rw [wrapToIntTarget_eq _ _ h1 hN, setWidth_widen hN]

theorem setWidth_wrap_stdDomain (h1 : 1 ≤ N) (hN : N ≤ 64) (d : Bool) (v : BitVec 64) :
    (wrapToIntTarget v (stdDomain N d)).setWidth N = v.setWidth N := by
  rw [stdDomain]
  split_ifs with h32
  · rw [wrapToIntTarget_eq _ _ (by omega) (by omega)]
    rw [← BitVec.setWidth_setWidth_of_le (widen 64 true (v.setWidth 32)) (show N ≤ 32 by omega),
      setWidth_widen (by omega), BitVec.setWidth_setWidth_of_le _ (by omega)]
  · rw [wrapToIntTarget_eq _ _ h1 hN, setWidth_widen hN]

end Reading

def rawUnsigned (op : MirOpcode) (av bv : BitVec 64) : Option (BitVec 64) :=
  match op with
  | .uDiv => if bv = 0#64 then none else some (av / bv)
  | .uMod => if bv = 0#64 then none else some (av % bv)
  | .lShr => if bv.toInt < 0 ∨ 64 ≤ bv.toInt then none else some (av >>> bv.toNat)
  | .iCmpUlt => some (boolBits (av.ult bv))
  | .iCmpUle => some (boolBits (av.ule bv))
  | .iCmpUgt => some (boolBits (bv.ult av))
  | .iCmpUge => some (boolBits (bv.ule av))
  | _ => none

def code64 (op : MirOpcode) (uns : Bool) (av bv : BitVec 64) : Option (BitVec 64) :=
  if isUnsignedOp op then rawUnsigned op av bv
  else (binaryOpKind op).bind fun k => rawBinaryInt k uns av bv

def readOperand (op : MirOpcode) (v : HirLiteralValue) : Option (BitVec 64) :=
  if isUnsignedOp op then asInt64 v else asIntBits v

/-- How the fold reads its operands: the signedness of the domain, and the extension of each
operand. -/
def reading (op : MirOpcode) (A B : ConstShape) (N : ℕ) (sA sB : Bool) : Bool × Bool × Bool :=
  if isUnsignedOp op || A.isBitInt || (!isShift op && B.isBitInt) || N < 32 then (false, sA, sB)
  else if isShift op then (!sA, sA, sB)
  else (!(sA && sB), sA && sB, sA && sB)

def finish (op : MirOpcode) (A B : ConstShape) (sR : Bool) (N : ℕ) (r : BitVec 64) : BitVec 64 :=
  if isCompare op then r
  else if A = .std .bool ∧ (isUnsignedOp op || (B.isBitInt && !isShift op)) = true then
    boolBits (r != 0#64)
  else widen 64 sR (r.setWidth N)

section Fold

variable {ch : Option Bool} {A B : ConstShape} {sA sB sR : Bool} {W : ℕ} {x : BitVec N}
  {y : BitVec M} {a b : HirLiteralValue} {op : MirOpcode} {kR : TypeKind}

theorem intKindInfo_cases {k : TypeKind} {s : Bool} (h : intKindInfo k ch = some ⟨W, s⟩)
    (hW : W ≤ 64) :
    (⟨W, s⟩ : IntKindInfo) ∈
    ([⟨1, false⟩, ⟨8, true⟩, ⟨8, false⟩, ⟨16, true⟩, ⟨16, false⟩, ⟨32, true⟩,
      ⟨32, false⟩, ⟨64, true⟩, ⟨64, false⟩] : List IntKindInfo) := by
  cases k <;> simp only [intKindInfo, Option.some.injEq, IntKindInfo.mk.injEq, reduceCtorEq] at h
  case char =>
    cases ch with
    | none => simp at h
    | some u =>
      simp only [Option.map_some, Option.some.injEq, IntKindInfo.mk.injEq] at h
      obtain ⟨rfl, rfl⟩ := h
      cases u <;> decide
  case i128 | u128 => omega
  all_goals
    obtain ⟨rfl, rfl⟩ := h
    decide

theorem widen_boolBits (h : intKindInfo kR ch = some ⟨W, sR⟩) (hW : W ≤ 64) (t : Bool) :
    widen 64 sR ((boolBits t).setWidth W) = boolBits t := by
  have hc := intKindInfo_cases h hW
  simp only [List.mem_cons, IntKindInfo.mk.injEq, List.not_mem_nil, or_false] at hc
  rcases hc with ⟨rfl, rfl⟩ | ⟨rfl, rfl⟩ | ⟨rfl, rfl⟩ | ⟨rfl, rfl⟩ | ⟨rfl, rfl⟩ | ⟨rfl, rfl⟩ |
    ⟨rfl, rfl⟩ | ⟨rfl, rfl⟩ | ⟨rfl, rfl⟩ <;> cases t <;> decide

theorem normalizeToType_int64 (h : intKindInfo kR ch = some ⟨W, sR⟩) (hW : W ≤ 64)
    (c : TypeKind) (v : BitVec 64) :
    (normalizeToType (.int64 c v) kR ch).bind asInt64 =
      some (if c = .bool then boolBits (v != 0#64) else widen 64 sR (v.setWidth W)) := by
  rw [normalizeToType]
  by_cases hc : c = .bool
  · simp [MirLiteralValue.core, hc, asInt64]
  · simp only [MirLiteralValue.core, hc, if_false, h, asInt64, Option.bind_eq_bind,
      Option.bind_some, Option.pure_def, wrapToIntTarget_eq v sR (intKindInfo_pos h) hW]

theorem foldUnsigned_eq (hop : isUnsignedOp op = true) {av bv : BitVec 64}
    (ha : asInt64 a = some av) (hb : asInt64 b = some bv) :
    foldUnsigned op a b = (rawUnsigned op av bv).map
      (.int64 (if isCompare op then .bool else a.core)) := by
  rw [foldUnsigned, ha, hb]
  cases op <;> simp only [isUnsignedOp, Bool.false_eq_true] at hop <;>
    simp only [Option.bind_eq_bind, Option.bind_some, rawUnsigned, isCompare, if_true,
      Bool.false_eq_true, if_false, Option.map_some]
  case uDiv | uMod | lShr => split_ifs <;> rfl

theorem applyBinaryInt_none {k : HirOpKind} {av bv : BitVec 64} (ha : asIntBits a = some av)
    (hb : asIntBits b = some bv) (hch : ¬ ((a.core = .char ∨ b.core = .char) ∧ ch = none))
    (hd : intOpDomain k a b ch = none) :
    applyBinaryInt k a b ch = (rawBinaryInt k false av bv).map (.int64 a.core) := by
  simp only [applyBinaryInt, ha, hb, hd, if_neg hch, Option.bind_eq_bind, Option.bind_some,
    Option.map_none, Option.getD_none, Option.any_none, ite_self, Option.pure_def]
  cases rawBinaryInt k false av bv <;> rfl

theorem applyBinaryInt_some {k : HirOpKind} {av bv : BitVec 64} {D : IntKindInfo}
    (ha : asIntBits a = some av) (hb : asIntBits b = some bv)
    (hch : ¬ ((a.core = .char ∨ b.core = .char) ∧ ch = none))
    (hd : intOpDomain k a b ch = some D) :
    applyBinaryInt k a b ch =
      (rawBinaryInt k (!D.isSigned) (wrapToIntTarget av D)
        (if k.isShiftOp then bv else wrapToIntTarget bv D)).map fun r =>
        .int64 (if k.isComparison then a.core else intKindFromWidth D.bits D.isSigned)
          (if reducesResult k (!D.isSigned) then wrapToIntTarget r D else r) := by
  simp only [applyBinaryInt, ha, hb, hd, if_neg hch, Option.bind_eq_bind, Option.bind_some,
    Option.map_some, Option.getD_some, Option.any_some, Option.pure_def]
  cases rawBinaryInt k (!D.isSigned) (wrapToIntTarget av D)
    (if k.isShiftOp then bv else wrapToIntTarget bv D) <;> rfl

theorem not_char_of_info {sA : Bool} (hA : A.info ch = some ⟨N, sA⟩) :
    ¬ (A.core = .char ∧ ch = none) := by
  rintro ⟨hc, rfl⟩
  cases A with
  | bitInt w s => simp [ConstShape.core] at hc
  | std core =>
    rw [ConstShape.core] at hc
    subst hc
    simp [ConstShape.info, intKindInfo] at hA

theorem core_eq_bool : A.core = .bool ↔ A = .std .bool := by
  cases A <;> simp [ConstShape.core]

theorem rawBinaryInt_compare {k : HirOpKind} (hk : k.isComparison = true) (uns : Bool)
    (av bv : BitVec 64) : ∃ t, rawBinaryInt k uns av bv = some (boolBits t) := by
  cases k <;> simp only [HirOpKind.isComparison, Bool.false_eq_true] at hk <;> exact ⟨_, rfl⟩

theorem boolBits_ne_zero (t : Bool) : boolBits (boolBits t != 0#64) = boolBits t := by
  cases t <;> decide

theorem intKindFromWidth_ne_bool (w : ℕ) (s : Bool) : intKindFromWidth w s ≠ .bool := by
  unfold intKindFromWidth
  split <;> cases s <;> simp

theorem binaryOpKind_spec {k : HirOpKind} (h : binaryOpKind op = some k) :
    isUnsignedOp op = false ∧ k.isShiftOp = isShift op ∧ k.isComparison = isCompare op ∧
      ∀ uns, isCompare op = true → reducesResult k uns = false := by
  cases op <;> simp only [binaryOpKind, Option.some.injEq, reduceCtorEq] at h <;> subst h <;>
    exact ⟨rfl, rfl, rfl, by decide⟩

/-- The types of a binary instruction: both operands have `N` bits (the count of a shift may
have any width) and so has the result, unless it is a truth value. -/
structure WellTyped (ch : Option Bool) (op : MirOpcode) (A B : ConstShape) (kR : TypeKind)
    (N M W : ℕ) (sA sB sR : Bool) : Prop where
  left : A.info ch = some ⟨N, sA⟩
  right : B.info ch = some ⟨M, sB⟩
  result : intKindInfo kR ch = some ⟨W, sR⟩
  bound : N ≤ 64 ∧ M ≤ 64 ∧ W ≤ 64
  same : isShift op = false → M = N
  width : isCompare op = false → W = N

theorem reading_of_narrow
    (h : (isUnsignedOp op || A.isBitInt || (!isShift op && B.isBitInt)) = true ∨
    N < 32) : reading op A B N sA sB = (false, sA, sB) := by
  rw [reading, if_pos]
  rcases h with h | h
  · rw [h, Bool.true_or]
  · simp [h]

theorem normalize_noncompare (hty : WellTyped ch op A B kR N M W sA sB sR)
    (hcmp : isCompare op = false) {c : TypeKind} {v r : BitVec 64}
    (hc : c = .bool ↔ A = .std .bool ∧ (isUnsignedOp op || (B.isBitInt && !isShift op)) = true)
    (hv : c = .bool → v = r) (hw : v.setWidth N = r.setWidth N) :
    (normalizeToType (.int64 c v) kR ch).bind asInt64 = some (finish op A B sR N r) := by
  rw [normalizeToType_int64 hty.result hty.bound.2.2, finish, hcmp]
  by_cases hb : c = .bool
  · rw [if_pos hb, if_neg (by simp), if_pos (hc.1 hb), hv hb]
  · have := hty.width hcmp
    subst this
    rw [if_neg hb, if_neg (by simp), if_neg (fun h => hb (hc.2 h)), hw]

theorem normalize_compare (hty : WellTyped ch op A B kR N M W sA sB sR)
    (hcmp : isCompare op = true) (c : TypeKind) (t : Bool) :
    (normalizeToType (.int64 c (boolBits t)) kR ch).bind asInt64 =
      some (finish op A B sR N (boolBits t)) := by
  rw [normalizeToType_int64 hty.result hty.bound.2.2, finish, hcmp, if_pos rfl]
  split_ifs with hb
  · rw [boolBits_ne_zero]
  · rw [widen_boolBits hty.result hty.bound.2.2]

theorem foldBinary_unsigned (hty : WellTyped ch op A B kR N M W sA sB sR)
    (hop : isUnsignedOp op = true) (ha : IsConst A sA x a)
    (ra : asInt64 a = some (widen 64 sA x)) (rb : asInt64 b = some (widen 64 sB y)) :
    (foldBinary op a b kR ch).bind asInt64 =
      (rawUnsigned op (widen 64 sA x) (widen 64 sB y)).map (finish op A B sR N) := by
  rw [foldBinary, if_pos hop, foldUnsigned_eq hop ra rb]
  cases hr : rawUnsigned op (widen 64 sA x) (widen 64 sB y) with
  | none => rfl
  | some r =>
    simp only [Option.map_some, Option.bind_eq_bind, Option.bind_some]
    cases hcmp : isCompare op with
    | false =>
      refine normalize_noncompare hty hcmp ?_ (fun _ => rfl) rfl
      simp [ha.core_eq, core_eq_bool, hop]
    | true =>
      obtain ⟨t, rfl⟩ : ∃ t, r = boolBits t := by
        cases op <;> simp only [isUnsignedOp, isCompare, Bool.false_eq_true] at hop hcmp <;>
          exact ⟨_, (Option.some.inj hr).symm⟩
      exact normalize_compare hty hcmp _ t

theorem reading_of_std (h1 : isUnsignedOp op = false) (h2 : A.isBitInt = false)
    (h3 : isShift op = false → B.isBitInt = false) {d : Bool}
    (hd : d = if isShift op then sA else sA && sB) :
    reading op A B N sA sB = (!(stdDomain N d).isSigned, if N < 32 then sA else d,
      if isShift op then sB else if N < 32 then sB else d) := by
  rw [reading, h1, h2]
  cases hs : isShift op with
  | true =>
    subst hd
    by_cases h32 : N < 32 <;> simp [h32, stdDomain, hs]
  | false =>
    subst hd
    by_cases h32 : N < 32 <;> simp [h32, stdDomain, hs, h3 hs]

theorem foldBinary_evaluator {k : HirOpKind} (hty : WellTyped ch op A B kR N M W sA sB sR)
    (hk : binaryOpKind op = some k) (ha : IsConst A sA x a) (hb : IsConst B sB y b)
    (ra : asIntBits a = some (widen 64 sA x)) (rb : asIntBits b = some (widen 64 sB y)) :
    (foldBinary op a b kR ch).bind asInt64 =
      (rawBinaryInt k (reading op A B N sA sB).1 (widen 64 (reading op A B N sA sB).2.1 x)
        (widen 64 (reading op A B N sA sB).2.2 y)).map (finish op A B sR N) := by
  obtain ⟨hu, hsh, hcm, hred⟩ := binaryOpKind_spec hk
  have hN1 := ConstShape.info_pos hty.left
  have hch : ¬ ((a.core = .char ∨ b.core = .char) ∧ ch = none) := by
    rintro ⟨h | h, hc⟩
    · exact not_char_of_info hty.left ⟨ha.core_eq ▸ h, hc⟩
    · exact not_char_of_info hty.right ⟨hb.core_eq ▸ h, hc⟩
  rw [foldBinary, hu, if_neg (by simp), hk]
  simp only [Option.bind_eq_bind, Option.bind_some]
  -- The domain exists exactly when no operand it looks at is bit-precise.
  by_cases hbit : A.isBitInt = true ∨ (isShift op = false ∧ B.isBitInt = true)
  · have hd : intOpDomain k a b ch = none := by
      cases hs : isShift op with
      | true =>
        have hA : A.isBitInt = true := by simpa [hs] using hbit
        rw [intOpDomain_shift (hsh.trans hs) ha hty.left hty.bound.1, hA, if_pos rfl]
      | false =>
        obtain rfl := hty.same hs
        have hAB : (A.isBitInt || B.isBitInt) = true := by simpa [hs] using hbit
        rw [intOpDomain_eq (hsh.trans hs) ha hb hty.left hty.right hty.bound.1, hAB, if_pos rfl]
    rw [reading_of_narrow (.inl (by rcases hbit with h | ⟨h, h'⟩ <;> simp [*])),
      applyBinaryInt_none ra rb hch hd]
    cases hr : rawBinaryInt k false (widen 64 sA x) (widen 64 sB y) with
    | none => rfl
    | some r =>
      simp only [Option.map_some, Option.bind_some]
      cases hcmp : isCompare op with
      | false =>
        refine normalize_noncompare hty hcmp ?_ (fun _ => rfl) rfl
        rw [ha.core_eq, core_eq_bool, hu, Bool.false_or]
        refine ⟨fun h => ⟨h, ?_⟩, fun h => h.1⟩
        subst h
        simpa [ConstShape.isBitInt, and_comm] using hbit
      | true =>
        obtain ⟨t, ht⟩ :=
          rawBinaryInt_compare (hcm.trans hcmp) false (widen 64 sA x) (widen 64 sB y)
        obtain rfl : boolBits t = r := Option.some.inj (ht.symm.trans hr)
        exact normalize_compare hty hcmp _ t
  · rw [not_or, not_and, Bool.not_eq_true] at hbit
    have hB : isShift op = false → B.isBitInt = false := fun h => by simpa using hbit.2 h
    obtain ⟨d, hdd⟩ : ∃ d, d = if isShift op then sA else sA && sB := ⟨_, rfl⟩
    have hd : intOpDomain k a b ch = some (stdDomain N d) := by
      cases hs : isShift op with
      | true =>
        rw [intOpDomain_shift (hsh.trans hs) ha hty.left hty.bound.1, hbit.1, hdd, hs]
        rfl
      | false =>
        obtain rfl := hty.same hs
        rw [intOpDomain_eq (hsh.trans hs) ha hb hty.left hty.right hty.bound.1, hbit.1, hB hs,
          hdd, hs]
        rfl
    have hright : (if k.isShiftOp then widen 64 sB y else wrapToIntTarget (widen 64 sB y)
        (stdDomain N d)) = widen 64 (if isShift op then sB else if N < 32 then sB else d) y := by
      rw [hsh]
      cases hs : isShift op with
      | true => rfl
      | false =>
        obtain rfl := hty.same hs
        simp only [Bool.false_eq_true, if_false]
        exact wrapToIntTarget_stdDomain hN1 hty.bound.1 d y
    rw [reading_of_std hu hbit.1 hB hdd, applyBinaryInt_some ra rb hch hd, hright,
      wrapToIntTarget_stdDomain hN1 hty.bound.1]
    simp only
    cases hr : rawBinaryInt k (!(stdDomain N d).isSigned)
        (widen 64 (if N < 32 then sA else d) x)
        (widen 64 (if isShift op then sB else if N < 32 then sB else d) y) with
    | none => rfl
    | some r =>
      simp only [Option.map_some, Option.bind_some]
      cases hcmp : isCompare op with
      | false =>
        rw [hcm, hcmp, if_neg (by simp)]
        refine normalize_noncompare hty hcmp ?_ (fun h => absurd h (intKindFromWidth_ne_bool _ _))
          ?_
        · refine ⟨fun h => absurd h (intKindFromWidth_ne_bool _ _), fun h => ?_⟩
          have := h.2
          rw [hu, Bool.false_or, Bool.and_eq_true, Bool.not_eq_true'] at this
          rw [hB this.2] at this
          simp at this
        · split_ifs
          · exact setWidth_wrap_stdDomain hN1 hty.bound.1 d r
          · rfl
      | true =>
        simp only [hred _ hcmp, Bool.false_eq_true, if_false]
        obtain ⟨t, ht⟩ := rawBinaryInt_compare (hcm.trans hcmp) (!(stdDomain N d).isSigned)
          (widen 64 (if N < 32 then sA else d) x)
          (widen 64 (if isShift op then sB else if N < 32 then sB else d) y)
        obtain rfl : boolBits t = r := Option.some.inj (ht.symm.trans hr)
        exact normalize_compare hty hcmp _ t

/-- **The fold is one 64-bit operation** on the operands, extended as `reading` says. -/
theorem foldBinary_eq (hty : WellTyped ch op A B kR N M W sA sB sR)
    (hop : (opcodeResult op x y).isSome) (ha : IsConst A sA x a) (hb : IsConst B sB y b)
    (ra : readOperand op a = some (widen 64 sA x)) (rb : readOperand op b = some (widen 64 sB y)) :
    (foldBinary op a b kR ch).bind asInt64 =
      (code64 op (reading op A B N sA sB).1 (widen 64 (reading op A B N sA sB).2.1 x)
        (widen 64 (reading op A B N sA sB).2.2 y)).map (finish op A B sR N) := by
  rw [code64]
  rw [readOperand] at ra rb
  cases hu : isUnsignedOp op with
  | true =>
    rw [hu, if_pos rfl] at ra rb
    rw [if_pos rfl, reading_of_narrow (.inl (by rw [hu]; rfl))]
    exact foldBinary_unsigned hty hu ha ra rb
  | false =>
    rw [hu, if_neg (by simp)] at ra rb
    obtain ⟨k, hk⟩ : ∃ k, binaryOpKind op = some k := by
      cases op <;> first
        | exact ⟨_, rfl⟩
        | exact absurd hu (by decide)
        | exact absurd hop (by simp [opcodeResult])
    rw [if_neg (by simp), hk, Option.bind_some]
    exact foldBinary_evaluator hty hk ha hb ra rb

end Fold

end DssPrime.ConstFold
