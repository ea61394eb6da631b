import Mathlib
import DssPrime.Opt.ConstFoldReading

/-!
# The evaluator against C, for the standard integers

What C says of a binary operator on two standard integers is stated on mathematical integers: the
operands are promoted and brought to a common type (`cDomain`), the operation is the mathematical
one and its result is reduced to the type (`cBinary`).  An unsigned result is reduced modulo
`2 ^ N`; where C leaves a signed overflow undefined the specification keeps the two's-complement
value.  No value is assigned to a division by zero, to a quotient the type cannot represent and to
a shift by a negative count or by the width of the promoted left operand or more.

The evaluator computes every width in one 64-bit engine.  It follows C (`FollowsC`) except where a
limit of the 32-bit types is left to the 64-bit one: the quotient `-2 ^ 31 / -1`, and the shift
counts from 32 to 63.
-/

namespace DssPrime

namespace IntKindInfo

def lo (t : IntKindInfo) : ℤ := if t.isSigned then -2 ^ (t.bits - 1) else 0

def hi (t : IntKindInfo) : ℤ := if t.isSigned then 2 ^ (t.bits - 1) else 2 ^ t.bits

def Fits (t : IntKindInfo) (z : ℤ) : Prop := t.lo ≤ z ∧ z < t.hi

instance (t : IntKindInfo) (z : ℤ) : Decidable (t.Fits z) :=
  inferInstanceAs (Decidable (t.lo ≤ z ∧ z < t.hi))

/-- The value of a type that a value is converted to: the congruent one modulo `2 ^ N`. -/
def reduce (t : IntKindInfo) (z : ℤ) : ℤ :=
  if t.isSigned then z.bmod (2 ^ t.bits) else z % 2 ^ t.bits

/-- The value a pattern of the type's width stands for. -/
def read (t : IntKindInfo) (x : BitVec t.bits) : ℤ := if t.isSigned then x.toInt else x.toNat

end IntKindInfo

namespace ConstEval

open Bits ConstFold

/-- Integer promotion: `int` if it represents every value of a narrower type, else
`unsigned int`. -/
def cPromote (t : IntKindInfo) : IntKindInfo :=
  if t.bits < 32 then
    if (-2 ^ 31 : ℤ) ≤ t.lo ∧ t.hi ≤ 2 ^ 31 then ⟨32, true⟩ else ⟨32, false⟩
  else t

/-- The common type of a signed and an unsigned type. -/
def cMixed (s u : IntKindInfo) : IntKindInfo :=
  if s.bits ≤ u.bits then u
  else if s.lo ≤ u.lo ∧ u.hi ≤ s.hi then s
  else ⟨s.bits, false⟩

def cCommon (a b : IntKindInfo) : IntKindInfo :=
  let a := cPromote a
  let b := cPromote b
  if a = b then a
  else if a.isSigned = b.isSigned then (if a.bits < b.bits then b else a)
  else if a.isSigned then cMixed a b
  else cMixed b a

/-- The type an operator is evaluated in: of a shift, the promoted left operand's. -/
def cDomain (op : HirOpKind) (ka kb : IntKindInfo) : IntKindInfo :=
  if op.isShiftOp then cPromote ka else cCommon ka kb

def truth (p : Prop) [Decidable p] : ℤ := if p then 1 else 0

/-- The value of an operator on two values of its type; the right one of a shift is a count. -/
def cOperator (op : HirOpKind) (t : IntKindInfo) (x y : ℤ) : Option ℤ :=
  match op with
  | .add => some (t.reduce (x + y))
  | .sub => some (t.reduce (x - y))
  | .mul => some (t.reduce (x * y))
  | .div => if y = 0 ∨ ¬ t.Fits (x.tdiv y) then none else some (x.tdiv y)
  | .rem => if y = 0 ∨ ¬ t.Fits (x.tdiv y) then none else some (x.tmod y)
  | .bitAnd => some (t.read (BitVec.ofInt t.bits x &&& BitVec.ofInt t.bits y))
  | .bitOr => some (t.read (BitVec.ofInt t.bits x ||| BitVec.ofInt t.bits y))
  | .bitXor => some (t.read (BitVec.ofInt t.bits x ^^^ BitVec.ofInt t.bits y))
  | .shl => if y < 0 ∨ t.bits ≤ y then none else some (t.reduce (x * 2 ^ y.toNat))
  | .shr => if y < 0 ∨ t.bits ≤ y then none else some (x / 2 ^ y.toNat)
  | .eq => some (truth (x = y))
  | .ne => some (truth (x ≠ y))
  | .lt => some (truth (x < y))
  | .le => some (truth (x ≤ y))
  | .gt => some (truth (y < x))
  | .ge => some (truth (y ≤ x))
  | .neg | .not | .bitNot => none

/-- What C assigns to an operator on values of two standard types: both operands, but not a shift
count, are converted to the type of the operation first. -/
def cBinary (op : HirOpKind) (ka kb : IntKindInfo) (x y : ℤ) : Option ℤ :=
  let t := cDomain op ka kb
  cOperator op t (t.reduce x) (if op.isShiftOp then y else t.reduce y)

/-- The literal is the value `x` of the standard integer type `k`: its payload is the value as a
64-bit pattern. -/
structure IsValue (ch : Option Bool) (a : HirLiteralValue) (k : IntKindInfo) (x : ℤ) : Prop where
  kind : intKindInfo a.core ch = some k
  width : k.bits ≤ 64
  plain : ∀ core w s v, a ≠ .bitInt core w s v
  fits : k.Fits x
  bits : asIntBits a = some (BitVec.ofInt 64 x)

/-- The evaluator gives the value C assigns, at the type of the operation, and refuses where C
assigns none.  The core of a comparison's result is set by the callers. -/
def FollowsC (ch : Option Bool) (op : HirOpKind) (a b : HirLiteralValue) (ka kb : IntKindInfo)
    (x y : ℤ) : Prop :=
  applyBinaryInt op a b ch = (cBinary op ka kb x y).map fun z =>
    .int64 (if op.isComparison then a.core
      else intKindFromWidth (cDomain op ka kb).bits (cDomain op ka kb).isSigned) (BitVec.ofInt 64 z)

section Values

variable {t : IntKindInfo} {x y z : ℤ}

theorem setWidth_ofInt {D : ℕ} (h : D ≤ 64) (z : ℤ) :
    (BitVec.ofInt 64 z).setWidth D = BitVec.ofInt D z := by
  apply BitVec.eq_of_toInt_eq
  rw [toInt_setWidth_of_le h, BitVec.toInt_ofInt, BitVec.toInt_ofInt]
  exact Int.bmod_bmod_of_dvd (pow_dvd_pow 2 h)

theorem wrapToIntTarget_read (h1 : 1 ≤ t.bits) (h : t.bits ≤ 64) (v : BitVec 64) :
    wrapToIntTarget v t = BitVec.ofInt 64 (t.read (v.setWidth t.bits)) := by
  rw [IntKindInfo.read, ofInt_value h]
  exact wrapToIntTarget_eq v t.isSigned h1 h

theorem read_ofInt (z : ℤ) : t.read (BitVec.ofInt t.bits z) = t.reduce z := by
  rw [IntKindInfo.read, IntKindInfo.reduce]
  split_ifs
  · rw [BitVec.toInt_ofInt]
  · rw [BitVec.toNat_ofInt]
    have hpos : (0 : ℤ) < 2 ^ t.bits := by positivity
    have := Int.emod_nonneg z hpos.ne'
    push_cast
    omega

theorem wrapToIntTarget_ofInt (h1 : 1 ≤ t.bits) (h : t.bits ≤ 64) (z : ℤ) :
    wrapToIntTarget (BitVec.ofInt 64 z) t = BitVec.ofInt 64 (t.reduce z) := by
  rw [wrapToIntTarget_read h1 h, setWidth_ofInt h, read_ofInt]

theorem two_pow_pred {n : ℕ} (h1 : 1 ≤ n) : (2 : ℤ) ^ n = 2 * 2 ^ (n - 1) := by
  obtain ⟨k, rfl⟩ := Nat.exists_eq_add_of_le' h1
  rw [Nat.add_sub_cancel, pow_succ, mul_comm]

theorem reduce_of_fits (h1 : 1 ≤ t.bits) (hz : t.Fits z) : t.reduce z = z := by
  have hp := two_pow_pred h1
  rw [IntKindInfo.Fits, IntKindInfo.lo, IntKindInfo.hi] at hz
  rw [IntKindInfo.reduce]
  split_ifs at hz ⊢
  · apply Int.bmod_eq_of_le_mul_two
    · push_cast
      omega
    · push_cast
      omega
  · exact Int.emod_eq_of_lt hz.1 hz.2

theorem fits_reduce (h1 : 1 ≤ t.bits) (z : ℤ) : t.Fits (t.reduce z) := by
  have hp := two_pow_pred h1
  have hpos : (0 : ℤ) < 2 ^ (t.bits - 1) := by positivity
  rw [IntKindInfo.Fits, IntKindInfo.lo, IntKindInfo.hi, IntKindInfo.reduce]
  split_ifs
  · have hl := @Int.le_bmod z (2 ^ t.bits) (by positivity)
    have hr := @Int.bmod_lt z (2 ^ t.bits) (by positivity)
    push_cast at hl hr
    omega
  · exact ⟨Int.emod_nonneg z (by positivity), Int.emod_lt_of_pos z (by positivity)⟩

theorem toInt_ofInt_of_fits (h : t.bits ≤ 64) (hs : t.isSigned = true) (hz : t.Fits z) :
    (BitVec.ofInt 64 z).toInt = z := by
  have hle : (2 : ℤ) ^ (t.bits - 1) ≤ 2 ^ 63 := by
    gcongr
    · norm_num
    · omega
  rw [IntKindInfo.Fits, IntKindInfo.lo, IntKindInfo.hi, if_pos hs, if_pos hs] at hz
  exact BitVec.toInt_ofInt_eq_self (by decide) (by omega) (by omega)

theorem toNat_ofInt_of_fits (h : t.bits ≤ 64) (hs : t.isSigned = false) (hz : t.Fits z) :
    ((BitVec.ofInt 64 z).toNat : ℤ) = z := by
  have hle : (2 : ℤ) ^ t.bits ≤ 2 ^ 64 := by
    gcongr
    omega
  rw [IntKindInfo.Fits, IntKindInfo.lo, IntKindInfo.hi] at hz
  simp only [hs, Bool.false_eq_true, if_false] at hz
  rw [BitVec.toNat_ofInt]
  omega

theorem ofInt_inj_of_fits (h : t.bits ≤ 64) (hx : t.Fits x) (hy : t.Fits y) :
    BitVec.ofInt 64 x = BitVec.ofInt 64 y ↔ x = y := by
  refine ⟨fun he => ?_, congrArg _⟩
  cases hs : t.isSigned with
  | true => rw [← toInt_ofInt_of_fits h hs hx, he, toInt_ofInt_of_fits h hs hy]
  | false => rw [← toNat_ofInt_of_fits h hs hx, he, toNat_ofInt_of_fits h hs hy]

theorem fits_zero (t : IntKindInfo) : t.Fits 0 := by
  rw [IntKindInfo.Fits, IntKindInfo.lo, IntKindInfo.hi]
  split_ifs
  · exact ⟨by simp, by positivity⟩
  · exact ⟨le_rfl, by positivity⟩

theorem fits_tdiv_iff (hs : t.isSigned = true) (hx : t.Fits x) (hy0 : y ≠ 0) :
    t.Fits (x.tdiv y) ↔ ¬ (x = t.lo ∧ y = -1) := by
  simp only [IntKindInfo.Fits, IntKindInfo.lo, IntKindInfo.hi, if_pos hs] at hx ⊢
  have hpos : (0 : ℤ) < 2 ^ (t.bits - 1) := by positivity
  generalize (2 : ℤ) ^ (t.bits - 1) = B at hx hpos ⊢
  by_cases hy1 : y = -1
  · subst hy1
    rw [Int.tdiv_neg, Int.tdiv_one]
    omega
  · have hle : (x.tdiv y).natAbs ≤ x.natAbs := Int.natAbs_tdiv_le_natAbs x y
    by_cases hxl : x = -B
    · have hq : (x.tdiv y).natAbs = x.natAbs / y.natAbs := Int.natAbs_tdiv x y
      by_cases hy : y = 1
      · subst hy
        rw [Int.tdiv_one]
        omega
      · have hhalf : x.natAbs / y.natAbs ≤ x.natAbs / 2 :=
          Nat.div_le_div_left (by omega) (by decide)
        omega
    · omega

theorem fits_tdiv_unsigned (hs : t.isSigned = false) (hx : t.Fits x) (hy : t.Fits y) :
    t.Fits (x.tdiv y) := by
  simp only [IntKindInfo.Fits, IntKindInfo.lo, IntKindInfo.hi, hs, Bool.false_eq_true,
    if_false] at hx hy ⊢
  have hle : (x.tdiv y).natAbs ≤ x.natAbs := Int.natAbs_tdiv_le_natAbs x y
  have hnn := Int.tdiv_nonneg hx.1 hy.1
  omega

end Values

section Engine

variable {t : IntKindInfo} {x y : ℤ}

/-- What the evaluator makes of two converted operands: a payload. -/
def engine (op : HirOpKind) (t : IntKindInfo) (av bv : BitVec 64) : Option (BitVec 64) :=
  (rawBinaryInt op (!t.isSigned) av bv).map fun r =>
    if reducesResult op (!t.isSigned) then wrapToIntTarget r t else r

theorem engine_ring (h1 : 1 ≤ t.bits) (h : t.bits ≤ 64) {op : HirOpKind}
    (hop : op = .add ∨ op = .sub ∨ op = .mul) :
    engine op t (BitVec.ofInt 64 x) (BitVec.ofInt 64 y) =
      (cOperator op t x y).map (BitVec.ofInt 64) := by
  rcases hop with rfl | rfl | rfl
  · simp only [engine, rawBinaryInt, reducesResult, cOperator, Option.map_some, if_true]
    rw [← BitVec.ofInt_add, wrapToIntTarget_ofInt h1 h]
  · simp only [engine, rawBinaryInt, reducesResult, cOperator, Option.map_some, if_true]
    rw [BitVec.sub_eq_add_neg, ← BitVec.ofInt_neg, ← BitVec.ofInt_add, wrapToIntTarget_ofInt h1 h,
      Int.sub_eq_add_neg]
  · simp only [engine, rawBinaryInt, reducesResult, cOperator, Option.map_some, if_true]
    rw [← BitVec.ofInt_mul, wrapToIntTarget_ofInt h1 h]

theorem engine_bitwise (h1 : 1 ≤ t.bits) (h : t.bits ≤ 64) {op : HirOpKind}
    (hop : op = .bitAnd ∨ op = .bitOr ∨ op = .bitXor) :
    engine op t (BitVec.ofInt 64 x) (BitVec.ofInt 64 y) =
      (cOperator op t x y).map (BitVec.ofInt 64) := by
  rcases hop with rfl | rfl | rfl
  · simp only [engine, rawBinaryInt, reducesResult, cOperator, Option.map_some, if_true]
    rw [wrapToIntTarget_read h1 h, BitVec.setWidth_and, setWidth_ofInt h, setWidth_ofInt h]
  · simp only [engine, rawBinaryInt, reducesResult, cOperator, Option.map_some, if_true]
    rw [wrapToIntTarget_read h1 h, BitVec.setWidth_or, setWidth_ofInt h, setWidth_ofInt h]
  · simp only [engine, rawBinaryInt, reducesResult, cOperator, Option.map_some, if_true]
    rw [wrapToIntTarget_read h1 h, BitVec.setWidth_xor, setWidth_ofInt h, setWidth_ofInt h]

theorem ofInt_boolBits (p : Prop) [Decidable p] :
    BitVec.ofInt 64 (truth p) = boolBits (decide p) := by
  by_cases hp : p <;> simp [truth, boolBits, hp]

theorem lt_ofInt (h : t.bits ≤ 64) (hx : t.Fits x) (hy : t.Fits y) :
    (if !t.isSigned then (BitVec.ofInt 64 x).ult (BitVec.ofInt 64 y)
      else (BitVec.ofInt 64 x).slt (BitVec.ofInt 64 y)) = decide (x < y) := by
  rw [Bool.eq_iff_iff, decide_eq_true_iff]
  cases hs : t.isSigned with
  | true =>
    simp only [Bool.not_true, Bool.false_eq_true, if_false]
    rw [BitVec.slt_iff_toInt_lt, toInt_ofInt_of_fits h hs hx, toInt_ofInt_of_fits h hs hy]
  | false =>
    simp only [Bool.not_false, if_true]
    rw [BitVec.ult_iff_toNat_lt, ← Int.ofNat_lt, toNat_ofInt_of_fits h hs hx,
      toNat_ofInt_of_fits h hs hy]

theorem le_ofInt (h : t.bits ≤ 64) (hx : t.Fits x) (hy : t.Fits y) :
    (if !t.isSigned then (BitVec.ofInt 64 x).ule (BitVec.ofInt 64 y)
      else (BitVec.ofInt 64 x).sle (BitVec.ofInt 64 y)) = decide (x ≤ y) := by
  rw [Bool.eq_iff_iff, decide_eq_true_iff]
  cases hs : t.isSigned with
  | true =>
    simp only [Bool.not_true, Bool.false_eq_true, if_false]
    rw [BitVec.sle_iff_toInt_le, toInt_ofInt_of_fits h hs hx, toInt_ofInt_of_fits h hs hy]
  | false =>
    simp only [Bool.not_false, if_true]
    rw [BitVec.ule_iff_toNat_le, ← Int.ofNat_le, toNat_ofInt_of_fits h hs hx,
      toNat_ofInt_of_fits h hs hy]

theorem engine_compare (h : t.bits ≤ 64) (hx : t.Fits x) (hy : t.Fits y) {op : HirOpKind}
    (hop : op.isComparison = true) :
    engine op t (BitVec.ofInt 64 x) (BitVec.ofInt 64 y) =
      (cOperator op t x y).map (BitVec.ofInt 64) := by
  have heq : (BitVec.ofInt 64 x == BitVec.ofInt 64 y) = decide (x = y) := by
    rw [Bool.eq_iff_iff, decide_eq_true_iff, beq_iff_eq, ofInt_inj_of_fits h hx hy]
  cases op with
  | eq | ne | lt | le | gt | ge =>
    simp only [engine, rawBinaryInt, reducesResult, cOperator, Option.map_some, Bool.false_eq_true,
      if_false, ofInt_boolBits, lt_ofInt h hx hy, lt_ofInt h hy hx, le_ofInt h hx hy,
      le_ofInt h hy hx, bne, heq, ne_eq, decide_not]
  | _ => cases hop

theorem ofInt_eq_zero (h : t.bits ≤ 64) (hy : t.Fits y) : BitVec.ofInt 64 y = 0#64 ↔ y = 0 :=
  ofInt_inj_of_fits h hy (fits_zero t)

theorem ofInt_sdiv (h : t.bits ≤ 64) (hs : t.isSigned = true) (hx : t.Fits x) (hy : t.Fits y) :
    (BitVec.ofInt 64 x).sdiv (BitVec.ofInt 64 y) = BitVec.ofInt 64 (x.tdiv y) := by
  apply BitVec.eq_of_toInt_eq
  rw [BitVec.toInt_sdiv, toInt_ofInt_of_fits h hs hx, toInt_ofInt_of_fits h hs hy,
    BitVec.toInt_ofInt]

theorem ofInt_srem (h : t.bits ≤ 64) (hs : t.isSigned = true) (hx : t.Fits x) (hy : t.Fits y) :
    (BitVec.ofInt 64 x).srem (BitVec.ofInt 64 y) = BitVec.ofInt 64 (x.tmod y) := by
  rw [← BitVec.ofInt_toInt (x := (BitVec.ofInt 64 x).srem (BitVec.ofInt 64 y)), BitVec.toInt_srem,
    toInt_ofInt_of_fits h hs hx, toInt_ofInt_of_fits h hs hy]

theorem nonneg_of_unsigned (hs : t.isSigned = false) (hx : t.Fits x) : 0 ≤ x := by
  have h0 := hx.1
  rwa [IntKindInfo.lo, hs] at h0

theorem ofInt_udiv (h : t.bits ≤ 64) (hs : t.isSigned = false) (hx : t.Fits x) (hy : t.Fits y) :
    BitVec.ofInt 64 x / BitVec.ofInt 64 y = BitVec.ofInt 64 (x.tdiv y) := by
  have hxy : x.tdiv y = ((BitVec.ofInt 64 x / BitVec.ofInt 64 y).toNat : ℤ) := by
    rw [BitVec.toNat_udiv, Int.natCast_ediv, toNat_ofInt_of_fits h hs hx,
      toNat_ofInt_of_fits h hs hy, Int.tdiv_eq_ediv_of_nonneg (nonneg_of_unsigned hs hx)]
  rw [hxy, BitVec.ofInt_natCast, BitVec.ofNat_toNat, BitVec.setWidth_eq]

theorem ofInt_umod (h : t.bits ≤ 64) (hs : t.isSigned = false) (hx : t.Fits x) (hy : t.Fits y) :
    BitVec.ofInt 64 x % BitVec.ofInt 64 y = BitVec.ofInt 64 (x.tmod y) := by
  have hxy : x.tmod y = ((BitVec.ofInt 64 x % BitVec.ofInt 64 y).toNat : ℤ) := by
    rw [BitVec.toNat_umod, Int.natCast_emod, toNat_ofInt_of_fits h hs hx,
      toNat_ofInt_of_fits h hs hy, Int.tmod_eq_emod_of_nonneg (nonneg_of_unsigned hs hx)]
  rw [hxy, BitVec.ofInt_natCast, BitVec.ofNat_toNat, BitVec.setWidth_eq]

theorem fits_tmod_unsigned (hs : t.isSigned = false) (hx : t.Fits x) (y : ℤ) :
    t.Fits (x.tmod y) := by
  simp only [IntKindInfo.Fits, IntKindInfo.lo, IntKindInfo.hi, hs, Bool.false_eq_true,
    if_false] at hx ⊢
  have hnn := Int.tmod_nonneg y hx.1
  have hle : (x.tmod y).natAbs ≤ x.natAbs := by
    rw [Int.natAbs_tmod]
    exact Nat.mod_le _ _
  omega

theorem intMin_guard (h : t.bits ≤ 64) (hs : t.isSigned = true) (hx : t.Fits x) (hy : t.Fits y) :
    (BitVec.ofInt 64 x = BitVec.intMin 64 ∧ BitVec.ofInt 64 y = -1#64) ↔
      x = -2 ^ 63 ∧ y = -1 := by
  rw [← BitVec.toInt_inj, ← BitVec.toInt_inj, toInt_ofInt_of_fits h hs hx,
    toInt_ofInt_of_fits h hs hy]
  exact Iff.rfl

theorem eq_lo_of_min (h1 : 1 ≤ t.bits) (h : t.bits ≤ 64) (hs : t.isSigned = true) (hx : t.Fits x)
    (hm : x = -2 ^ 63) : t.bits = 64 ∧ x = t.lo := by
  simp only [IntKindInfo.Fits, IntKindInfo.lo, IntKindInfo.hi, if_pos hs] at hx ⊢
  have hb : t.bits = 64 := by
    by_contra hne
    have hlt : (2 : ℤ) ^ (t.bits - 1) < 2 ^ 63 := by
      gcongr
      · norm_num
      · omega
    omega
  rw [hb]
  exact ⟨rfl, hm⟩

def quotient (op : HirOpKind) (x y : ℤ) : ℤ := if op = .div then x.tdiv y else x.tmod y

theorem engine_division (h1 : 1 ≤ t.bits) (h : t.bits ≤ 64) (hx : t.Fits x) (hy : t.Fits y)
    {op : HirOpKind} (hop : op = .div ∨ op = .rem) :
    engine op t (BitVec.ofInt 64 x) (BitVec.ofInt 64 y) =
      if y = 0 ∨ (t.isSigned = true ∧ t.bits = 64 ∧ x = t.lo ∧ y = -1) then none
      else some (BitVec.ofInt 64 (quotient op x y)) := by
  have hzero := ofInt_eq_zero h hy
  by_cases hy0 : y = 0
  · rw [if_pos (.inl hy0)]
    rcases hop with rfl | rfl <;> simp [engine, rawBinaryInt, hzero.2 hy0]
  · have hb0 : ¬ BitVec.ofInt 64 y = 0#64 := fun hb => hy0 (hzero.1 hb)
    cases hs : t.isSigned with
    | false =>
      rw [if_neg (by simp [hy0])]
      rcases hop with rfl | rfl
      · simp only [engine, rawBinaryInt, reducesResult, hs, if_neg hb0, Bool.not_false, if_true,
          Option.map_some, quotient]
        rw [ofInt_udiv h hs hx hy, wrapToIntTarget_ofInt h1 h,
          reduce_of_fits h1 (fits_tdiv_unsigned hs hx hy)]
      · simp only [engine, rawBinaryInt, reducesResult, hs, if_neg hb0, Bool.not_false, if_true,
          Option.map_some, quotient, reduceCtorEq, if_false]
        rw [ofInt_umod h hs hx hy, wrapToIntTarget_ofInt h1 h,
          reduce_of_fits h1 (fits_tmod_unsigned hs hx y)]
    | true =>
      have hguard : (x = -2 ^ 63 ∧ y = -1) ↔
          (y = 0 ∨ (true = true ∧ t.bits = 64 ∧ x = t.lo ∧ y = -1)) := by
        constructor
        · rintro ⟨hm, hy1⟩
          obtain ⟨hb, hlo⟩ := eq_lo_of_min h1 h hs hx hm
          exact .inr ⟨rfl, hb, hlo, hy1⟩
        · rintro (h0 | ⟨-, hb, hlo, hy1⟩)
          · exact absurd h0 hy0
          · rw [IntKindInfo.lo, if_pos hs, hb] at hlo
            exact ⟨hlo, hy1⟩
      rcases hop with rfl | rfl
      · simp only [engine, rawBinaryInt, reducesResult, hs, if_neg hb0, Bool.not_true,
          Bool.false_eq_true, if_false, quotient, if_true, intMin_guard h hs hx hy, hguard,
          ofInt_sdiv h hs hx hy]
        split_ifs <;> rfl
      · simp only [engine, rawBinaryInt, reducesResult, hs, if_neg hb0, Bool.not_true,
          Bool.false_eq_true, if_false, quotient, reduceCtorEq, intMin_guard h hs hx hy, hguard,
          ofInt_srem h hs hx hy]
        split_ifs <;> rfl

theorem cOperator_division (hx : t.Fits x) (hy : t.Fits y) {op : HirOpKind}
    (hop : op = .div ∨ op = .rem) :
    cOperator op t x y =
      if y = 0 ∨ (t.isSigned = true ∧ x = t.lo ∧ y = -1) then none
      else some (quotient op x y) := by
  have hcond : (y = 0 ∨ ¬ t.Fits (x.tdiv y)) ↔
      (y = 0 ∨ (t.isSigned = true ∧ x = t.lo ∧ y = -1)) := by
    by_cases hy0 : y = 0
    · simp [hy0]
    · cases hs : t.isSigned with
      | true => simp [hy0, fits_tdiv_iff hs hx hy0]
      | false => simp [hy0, fits_tdiv_unsigned hs hx hy]
  rcases hop with rfl | rfl
  · simp only [cOperator, quotient, hcond, if_true]
  · simp only [cOperator, quotient, hcond, reduceCtorEq, if_false]

theorem count_guard {k : IntKindInfo} (h : k.bits ≤ 64) (hy : k.Fits y) :
    ((BitVec.ofInt 64 y).toInt < 0 ∨ 64 ≤ (BitVec.ofInt 64 y).toInt) ↔ y < 0 ∨ 64 ≤ y := by
  cases hs : k.isSigned with
  | true => rw [toInt_ofInt_of_fits h hs hy]
  | false =>
    have hval := toNat_ofInt_of_fits h hs hy
    have hlt := (BitVec.ofInt 64 y).isLt
    rw [BitVec.toInt_eq_toNat_cond]
    split_ifs <;> omega

theorem toNat_count (h0 : 0 ≤ y) (h64 : y < 64) : (BitVec.ofInt 64 y).toNat = y.toNat := by
  rw [BitVec.toNat_ofInt]
  omega

theorem ofInt_shiftLeft (x : ℤ) (n : ℕ) :
    BitVec.ofInt 64 x <<< n = BitVec.ofInt 64 (x * 2 ^ n) := by
  have hpow : BitVec.twoPow 64 n = BitVec.ofInt 64 (2 ^ n) := by
    apply BitVec.eq_of_toNat_eq
    rw [show (2 : ℤ) ^ n = ((2 ^ n : ℕ) : ℤ) by push_cast; rfl, BitVec.ofInt_natCast,
      BitVec.toNat_twoPow, BitVec.toNat_ofNat]
  rw [BitVec.shiftLeft_eq_mul_twoPow, hpow, ← BitVec.ofInt_mul]

theorem ofInt_ushiftRight (h : t.bits ≤ 64) (hs : t.isSigned = false) (hx : t.Fits x) (n : ℕ) :
    BitVec.ofInt 64 x >>> n = BitVec.ofInt 64 (x / 2 ^ n) := by
  have hxn : x / 2 ^ n = ((BitVec.ofInt 64 x >>> n).toNat : ℤ) := by
    rw [BitVec.toNat_ushiftRight, Nat.shiftRight_eq_div_pow, Int.natCast_ediv,
      toNat_ofInt_of_fits h hs hx]
    push_cast
    rfl
  rw [hxn, BitVec.ofInt_natCast, BitVec.ofNat_toNat, BitVec.setWidth_eq]

theorem ofInt_sshiftRight (h : t.bits ≤ 64) (hs : t.isSigned = true) (hx : t.Fits x) (n : ℕ) :
    (BitVec.ofInt 64 x).sshiftRight n = BitVec.ofInt 64 (x / 2 ^ n) := by
  have hxn : x / 2 ^ n = ((BitVec.ofInt 64 x).sshiftRight n).toInt := by
    rw [BitVec.toInt_sshiftRight, toInt_ofInt_of_fits h hs hx, Int.shiftRight_eq_div_pow]
    push_cast
    rfl
  rw [hxn, BitVec.ofInt_toInt]

theorem fits_shiftRight (hx : t.Fits x) (n : ℕ) : t.Fits (x / 2 ^ n) := by
  have hpos : (0 : ℤ) < 2 ^ n := by positivity
  have hz := fits_zero t
  rw [IntKindInfo.Fits] at hx hz ⊢
  by_cases h0 : 0 ≤ x
  · have hle := Int.ediv_le_self (2 ^ n) h0
    have hnn := Int.ediv_nonneg h0 hpos.le
    omega
  · have hneg := Int.ediv_neg_of_neg_of_pos (by omega : x < 0) hpos
    have hge : x ≤ x / 2 ^ n := by
      rw [Int.le_ediv_iff_mul_le hpos]
      nlinarith
    omega

def shifted (op : HirOpKind) (t : IntKindInfo) (x y : ℤ) : ℤ :=
  if op = .shl then t.reduce (x * 2 ^ y.toNat) else x / 2 ^ y.toNat

theorem engine_shift (h1 : 1 ≤ t.bits) (h : t.bits ≤ 64) (hx : t.Fits x) {k : IntKindInfo}
    (hk : k.bits ≤ 64) (hy : k.Fits y) {op : HirOpKind} (hop : op.isShiftOp = true) :
    engine op t (BitVec.ofInt 64 x) (BitVec.ofInt 64 y) =
      if y < 0 ∨ 64 ≤ y then none else some (BitVec.ofInt 64 (shifted op t x y)) := by
  have hguard := count_guard hk hy
  by_cases hc : y < 0 ∨ 64 ≤ y
  · rw [if_pos hc]
    cases op with
    | shl | shr => simp only [engine, rawBinaryInt, if_pos (hguard.2 hc), Option.map_none]
    | _ => cases hop
  · rw [if_neg hc]
    have hn : (BitVec.ofInt 64 y).toNat = y.toNat := toNat_count (by omega) (by omega)
    cases op with
    | shl =>
      simp only [engine, rawBinaryInt, reducesResult, if_neg (mt hguard.1 hc), hn, Option.map_some,
        if_true, shifted]
      rw [ofInt_shiftLeft, wrapToIntTarget_ofInt h1 h]
    | shr =>
      simp only [engine, rawBinaryInt, reducesResult, if_neg (mt hguard.1 hc), hn, Option.map_some,
        if_true, shifted, reduceCtorEq, if_false]
      cases hs : t.isSigned with
      | true =>
        simp only [Bool.not_true, Bool.false_eq_true, if_false]
        rw [ofInt_sshiftRight h hs hx, wrapToIntTarget_ofInt h1 h,
          reduce_of_fits h1 (fits_shiftRight hx _)]
      | false =>
        simp only [Bool.not_false, if_true]
        rw [ofInt_ushiftRight h hs hx, wrapToIntTarget_ofInt h1 h,
          reduce_of_fits h1 (fits_shiftRight hx _)]
    | _ => cases hop

theorem cOperator_shift {op : HirOpKind} (hop : op.isShiftOp = true) :
    cOperator op t x y = if y < 0 ∨ t.bits ≤ y then none else some (shifted op t x y) := by
  cases op with
  | shl | shr => rfl
  | _ => cases hop

end Engine

section Domain

variable {ch : Option Bool} {a b : HirLiteralValue} {ka kb : IntKindInfo} {x y : ℤ}

/-- The standard integer types of at most 64 bits. -/
def stdKinds : List IntKindInfo :=
  [⟨1, false⟩, ⟨8, true⟩, ⟨8, false⟩, ⟨16, true⟩, ⟨16, false⟩, ⟨32, true⟩, ⟨32, false⟩, ⟨64, true⟩,
    ⟨64, false⟩]

theorem IsValue.mem_stdKinds (ha : IsValue ch a ka x) : ka ∈ stdKinds :=
  intKindInfo_cases ha.kind ha.width

theorem IsValue.operandType (ha : IsValue ch a ka x) :
    bitIntOperandType a ch = some ⟨ka.bits, ka.isSigned, false⟩ := by
  have hk := ha.kind
  have hw := ha.width
  have h128 : isInt128Kind a.core = false := by
    rw [Bool.eq_false_iff]
    intro hc
    rw [isInt128Kind, Bool.or_eq_true, beq_iff_eq, beq_iff_eq] at hc
    rcases hc with hc | hc <;> rw [hc] at hk <;> cases hk <;> simp at hw
  have hbits := ha.bits
  cases a with
  | bitInt core w s v => exact absurd rfl (ha.plain core w s v)
  | int64 core v | uint64 core v | bool core v =>
    simp only [bitIntOperandType, h128, Bool.false_eq_true, if_false]
    rw [show intKindInfo core ch = some ka from hk]
    rfl
  | _ => cases hbits

theorem promote_eq : ∀ k ∈ stdKinds, promoteBitIntOperand ⟨k.bits, k.isSigned, false⟩ =
    ⟨(cPromote k).bits, (cPromote k).isSigned, false⟩ := by
  decide

theorem uac_eq : ∀ k ∈ stdKinds, ∀ l ∈ stdKinds,
    bitIntUac ⟨k.bits, k.isSigned, false⟩ ⟨l.bits, l.isSigned, false⟩ =
      ⟨(cCommon k l).bits, (cCommon k l).isSigned, false⟩ := by
  decide

theorem cDomain_bits (op : HirOpKind) (ha : ka ∈ stdKinds) (hb : kb ∈ stdKinds) :
    (cDomain op ka kb).bits = 32 ∨ (cDomain op ka kb).bits = 64 := by
  have hp : ∀ k ∈ stdKinds, (cPromote k).bits = 32 ∨ (cPromote k).bits = 64 := by decide
  have hc : ∀ k ∈ stdKinds, ∀ l ∈ stdKinds, (cCommon k l).bits = 32 ∨ (cCommon k l).bits = 64 := by
    decide
  rw [cDomain]
  split_ifs
  · exact hp ka ha
  · exact hc ka ha kb hb

theorem fits_of_int (ha : ka ∈ stdKinds) (hb : kb ∈ stdKinds) (hc : cCommon ka kb = ⟨32, true⟩)
    (hx : ka.Fits x) (hy : kb.Fits y) :
    IntKindInfo.Fits ⟨32, true⟩ x ∧ IntKindInfo.Fits ⟨32, true⟩ y := by
  have hsub : ∀ k ∈ stdKinds, ∀ l ∈ stdKinds, cCommon k l = ⟨32, true⟩ →
      (IntKindInfo.lo ⟨32, true⟩ ≤ k.lo ∧ k.hi ≤ IntKindInfo.hi ⟨32, true⟩) ∧
        IntKindInfo.lo ⟨32, true⟩ ≤ l.lo ∧ l.hi ≤ IntKindInfo.hi ⟨32, true⟩ := by
    decide
  obtain ⟨⟨hl, hh⟩, hl', hh'⟩ := hsub ka ha kb hb hc
  exact ⟨⟨hl.trans hx.1, hx.2.trans_le hh⟩, hl'.trans hy.1, hy.2.trans_le hh'⟩

theorem intOpDomain_cDomain (op : HirOpKind) (ha : IsValue ch a ka x) (hb : IsValue ch b kb y) :
    intOpDomain op a b ch = some (cDomain op ka kb) := by
  have hbits := cDomain_bits op ha.mem_stdKinds hb.mem_stdKinds
  rw [intOpDomain, ha.operandType, hb.operandType]
  rw [cDomain] at hbits ⊢
  by_cases hop : op.isShiftOp = true
  · rw [if_pos hop] at hbits ⊢
    simp only [Option.bind_eq_bind, Option.bind_some, Bool.false_eq_true, if_false, if_pos hop,
      promote_eq ka ha.mem_stdKinds, Bool.false_or, decide_eq_true_eq]
    rw [if_neg (by omega)]
  · rw [if_neg hop] at hbits ⊢
    simp only [Option.bind_eq_bind, Option.bind_some, Bool.false_eq_true, if_false, if_neg hop,
      uac_eq ka ha.mem_stdKinds kb hb.mem_stdKinds, Bool.false_or, decide_eq_true_eq]
    rw [if_neg (by omega)]

theorem IsValue.core_ne (ha : IsValue ch a ka x) : ¬ (a.core = .char ∧ ch = none) := by
  rintro ⟨hc, rfl⟩
  have hk := ha.kind
  rw [hc] at hk
  cases hk

theorem applyBinaryInt_engine (op : HirOpKind) (ha : IsValue ch a ka x) (hb : IsValue ch b kb y) :
    applyBinaryInt op a b ch =
      (engine op (cDomain op ka kb) (BitVec.ofInt 64 ((cDomain op ka kb).reduce x))
        (BitVec.ofInt 64 (if op.isShiftOp then y else (cDomain op ka kb).reduce y))).map
        (.int64 (if op.isComparison then a.core
          else intKindFromWidth (cDomain op ka kb).bits (cDomain op ka kb).isSigned)) := by
  have hbits := cDomain_bits op ha.mem_stdKinds hb.mem_stdKinds
  have hch : ¬ ((a.core = .char ∨ b.core = .char) ∧ ch = none) := by
    rintro ⟨hc | hc, hn⟩
    · exact ha.core_ne ⟨hc, hn⟩
    · exact hb.core_ne ⟨hc, hn⟩
  rw [applyBinaryInt_some ha.bits hb.bits hch (intOpDomain_cDomain op ha hb), engine,
    wrapToIntTarget_ofInt (by omega) (by omega), wrapToIntTarget_ofInt (by omega) (by omega),
    Option.map_map, ← apply_ite (BitVec.ofInt 64)]
  rfl

end Domain

section Exact

variable {ch : Option Bool} {a b : HirLiteralValue} {ka kb : IntKindInfo} {x y : ℤ}

/-- The operation passes a limit of a 32-bit type that the 64-bit engine does not have: the
quotient of the least `int` by `-1`, or a shift count from 32 to 63. -/
def PassesLimit (op : HirOpKind) (t : IntKindInfo) (x y : ℤ) : Prop :=
  ((op = .div ∨ op = .rem) ∧ t = ⟨32, true⟩ ∧ x = -2 ^ 31 ∧ y = -1) ∨
    (op.isShiftOp = true ∧ t.bits = 32 ∧ 32 ≤ y ∧ y < 64)

instance (op : HirOpKind) (t : IntKindInfo) (x y : ℤ) : Decidable (PassesLimit op t x y) :=
  inferInstanceAs (Decidable (_ ∨ _))

theorem followsC_iff_engine (op : HirOpKind) (ha : IsValue ch a ka x) (hb : IsValue ch b kb y) :
    FollowsC ch op a b ka kb x y ↔
      engine op (cDomain op ka kb) (BitVec.ofInt 64 ((cDomain op ka kb).reduce x))
        (BitVec.ofInt 64 (if op.isShiftOp then y else (cDomain op ka kb).reduce y)) =
        (cBinary op ka kb x y).map (BitVec.ofInt 64) := by
  rw [FollowsC, applyBinaryInt_engine op ha hb]
  generalize (if op.isComparison then a.core
    else intKindFromWidth (cDomain op ka kb).bits (cDomain op ka kb).isSigned) = core
  rw [show (fun z => (MirLiteralValue.int64 core (BitVec.ofInt 64 z))) =
    MirLiteralValue.int64 core ∘ BitVec.ofInt 64 from rfl, ← Option.map_map]
  constructor
  · intro he
    apply Option.map_injective (fun v w hvw => (MirLiteralValue.int64.inj hvw).2) he
  · intro he
    rw [he]

theorem ite_none_eq_iff {α : Type*} {p q : Prop} [Decidable p] [Decidable q] (v : α) :
    (if p then none else some v) = (if q then none else some v) ↔ (p ↔ q) := by
  by_cases hp : p <;> by_cases hq : q <;> simp [hp, hq]

theorem followsC_division {op : HirOpKind} (ha : IsValue ch a ka x) (hb : IsValue ch b kb y)
    (hop : op = .div ∨ op = .rem) :
    FollowsC ch op a b ka kb x y ↔ ¬ PassesLimit op (cDomain op ka kb) x y := by
  have hsh : op.isShiftOp = false := by rcases hop with rfl | rfl <;> rfl
  have hdom : cDomain op ka kb = cCommon ka kb := by simp [cDomain, hsh]
  have hbits := cDomain_bits op ha.mem_stdKinds hb.mem_stdKinds
  rw [followsC_iff_engine op ha hb, cBinary]
  simp only [hsh, Bool.false_eq_true, if_false, hdom] at hbits ⊢
  have hint := fun hc => fits_of_int ha.mem_stdKinds hb.mem_stdKinds hc ha.fits hb.fits
  generalize hd : cCommon ka kb = d at hbits hint ⊢
  have hx := fits_reduce (show 1 ≤ d.bits by omega) x
  have hy := fits_reduce (show 1 ≤ d.bits by omega) y
  rw [engine_division (by omega) (by omega) hx hy hop, cOperator_division hx hy hop,
    apply_ite (Option.map (BitVec.ofInt 64)), Option.map_none, Option.map_some, ite_none_eq_iff,
    PassesLimit]
  simp only [hop, true_and, hsh, Bool.false_eq_true, false_and, or_false]
  by_cases h32 : d = ⟨32, true⟩
  · obtain ⟨hfx, hfy⟩ := hint h32
    subst h32
    rw [reduce_of_fits (by decide) hfx, reduce_of_fits (by decide) hfy]
    have hlo : IntKindInfo.lo ⟨32, true⟩ = -2 ^ 31 := rfl
    rw [hlo]
    simp only [true_and]
    omega
  · have h64 : d.isSigned = true → d.bits = 64 := by
      intro hs
      rcases hbits with hb32 | hb64
      · exact absurd (show d = ⟨32, true⟩ by rw [← hb32, ← hs]) h32
      · exact hb64
    simp only [h32, false_and, not_false_iff, iff_true]
    constructor
    · rintro (h0 | ⟨hs, -, hrest⟩)
      · exact .inl h0
      · exact .inr ⟨hs, hrest⟩
    · rintro (h0 | ⟨hs, hrest⟩)
      · exact .inl h0
      · exact .inr ⟨hs, h64 hs, hrest⟩

theorem followsC_shift {op : HirOpKind} (ha : IsValue ch a ka x) (hb : IsValue ch b kb y)
    (hop : op.isShiftOp = true) :
    FollowsC ch op a b ka kb x y ↔ ¬ PassesLimit op (cDomain op ka kb) x y := by
  have hdiv : ¬ (op = .div ∨ op = .rem) := by
    rintro (rfl | rfl) <;> cases hop
  have hbits := cDomain_bits op ha.mem_stdKinds hb.mem_stdKinds
  rw [followsC_iff_engine op ha hb, cBinary]
  simp only [hop, if_true]
  generalize cDomain op ka kb = d at hbits ⊢
  have hx := fits_reduce (show 1 ≤ d.bits by omega) x
  rw [engine_shift (by omega) (by omega) hx hb.width hb.fits hop, cOperator_shift hop,
    apply_ite (Option.map (BitVec.ofInt 64)), Option.map_none, Option.map_some, ite_none_eq_iff,
    PassesLimit]
  simp only [hdiv, false_and, false_or, hop, true_and]
  omega

/-- The evaluator follows C on two standard integers exactly when the operation passes no limit
of a 32-bit type. -/
theorem applyBinaryInt_followsC_iff (op : HirOpKind) (ha : IsValue ch a ka x)
    (hb : IsValue ch b kb y) :
    FollowsC ch op a b ka kb x y ↔ ¬ PassesLimit op (cDomain op ka kb) x y := by
  by_cases hdiv : op = .div ∨ op = .rem
  · exact followsC_division ha hb hdiv
  by_cases hsh : op.isShiftOp = true
  · exact followsC_shift ha hb hsh
  have hlim : ¬ PassesLimit op (cDomain op ka kb) x y := by
    rintro (⟨hd, -⟩ | ⟨hs, -⟩)
    · exact hdiv hd
    · exact hsh hs
  refine iff_of_true ((followsC_iff_engine op ha hb).2 ?_) hlim
  have hbits := cDomain_bits op ha.mem_stdKinds hb.mem_stdKinds
  simp only [cBinary, if_neg hsh]
  generalize cDomain op ka kb = d at hbits ⊢
  have h1 : 1 ≤ d.bits := by omega
  have h64 : d.bits ≤ 64 := by omega
  have hx := fits_reduce h1 x
  have hy := fits_reduce h1 y
  cases op with
  | add | sub | mul => exact engine_ring h1 h64 (by simp)
  | bitAnd | bitOr | bitXor => exact engine_bitwise h1 h64 (by simp)
  | eq | ne | lt | le | gt | ge => exact engine_compare h64 hx hy rfl
  | div | rem => simp at hdiv
  | shl | shr => exact absurd rfl hsh
  | neg | not | bitNot => rfl

theorem isValue_i32 {v : ℤ} (hv : IntKindInfo.Fits ⟨32, true⟩ v) :
    IsValue none (.int64 .i32 (BitVec.ofInt 64 v)) ⟨32, true⟩ v where
  kind := rfl
  width := by decide
  plain := by simp
  fits := hv
  bits := rfl

theorem applyBinaryInt_followsC_intMin :
    IsValue none (.int64 .i32 (BitVec.ofInt 64 (-2 ^ 31))) ⟨32, true⟩ (-2 ^ 31) ∧
      FollowsC none .rem (.int64 .i32 (BitVec.ofInt 64 (-1)))
        (.int64 .i32 (BitVec.ofInt 64 (-2 ^ 31))) ⟨32, true⟩ ⟨32, true⟩ (-1) (-2 ^ 31) :=
  ⟨isValue_i32 (by decide),
    (applyBinaryInt_followsC_iff .rem (isValue_i32 (by decide)) (isValue_i32 (by decide))).2
      (by decide)⟩

theorem applyBinaryInt_intMin_div :
    (IsValue none (.int64 .i32 (BitVec.ofInt 64 (-2 ^ 31))) ⟨32, true⟩ (-2 ^ 31) ∧
      IsValue none (.int64 .i32 (BitVec.ofInt 64 (-1))) ⟨32, true⟩ (-1) ∧
      applyBinaryInt .div (.int64 .i32 (BitVec.ofInt 64 (-2 ^ 31)))
        (.int64 .i32 (BitVec.ofInt 64 (-1))) none =
        some (.int64 .i32 (BitVec.ofInt 64 (2 ^ 31))) ∧
      ¬ FollowsC none .div (.int64 .i32 (BitVec.ofInt 64 (-2 ^ 31)))
        (.int64 .i32 (BitVec.ofInt 64 (-1))) ⟨32, true⟩ ⟨32, true⟩ (-2 ^ 31) (-1)) ∧
    IsValue none (.int64 .i32 (BitVec.ofInt 64 1)) ⟨32, true⟩ 1 ∧
    IsValue none (.int64 .i32 (BitVec.ofInt 64 32)) ⟨32, true⟩ 32 ∧
    applyBinaryInt .shl (.int64 .i32 (BitVec.ofInt 64 1)) (.int64 .i32 (BitVec.ofInt 64 32)) none =
      some (.int64 .i32 0#64) ∧
    ¬ FollowsC none .shl (.int64 .i32 (BitVec.ofInt 64 1)) (.int64 .i32 (BitVec.ofInt 64 32))
      ⟨32, true⟩ ⟨32, true⟩ 1 32 := by
  have hdiv : cBinary .div ⟨32, true⟩ ⟨32, true⟩ (-2 ^ 31) (-1) = none := by decide
  have hshl : cBinary .shl ⟨32, true⟩ ⟨32, true⟩ 1 32 = none := by decide
  refine ⟨⟨isValue_i32 (by decide), isValue_i32 (by decide), rfl, ?_⟩, isValue_i32 (by decide),
    isValue_i32 (by decide), rfl, ?_⟩
  · rw [FollowsC, hdiv]
    exact Option.some_ne_none _
  · rw [FollowsC, hshl]
    exact Option.some_ne_none _

end Exact

end ConstEval

end DssPrime
