import Mathlib

/-!
# Computing on narrow integers in a wide register

An `N`-bit pattern is held in a wider register extended by sign or by zero (`widen`).  The lemmas
say when an operation of the wide register, cut back to `N` bits, is the operation on the
patterns: always for the ring and bitwise operations, for the sign-extended operands of the
signed ones and for the zero-extended operands of the unsigned ones.  The unsigned order does not
care which extension is used, as long as it is the same on both sides (`ult_widen`).
-/

namespace DssPrime.Bits

variable {N W : ℕ}

def widen (W : ℕ) (s : Bool) (x : BitVec N) : BitVec W :=
  if s then x.signExtend W else x.setWidth W

theorem toInt_setWidth_of_le (h : N ≤ W) (v : BitVec W) :
    (v.setWidth N).toInt = v.toInt.bmod (2 ^ N) := by
  rw [← BitVec.signExtend_eq_setWidth_of_le v h, BitVec.toInt_signExtend_eq_toInt_bmod_of_le v h]

theorem toInt_widen_true (h : N ≤ W) (x : BitVec N) : (widen W true x).toInt = x.toInt :=
  BitVec.toInt_signExtend_of_le h

theorem toNat_widen_false (h : N ≤ W) (x : BitVec N) : (widen W false x).toNat = x.toNat :=
  BitVec.toNat_setWidth_of_le h

theorem setWidth_widen (h : N ≤ W) (s : Bool) (x : BitVec N) : (widen W s x).setWidth N = x := by
  cases s with
  | false => simp [widen, h]
  | true =>
    apply BitVec.eq_of_toInt_eq
    rw [toInt_setWidth_of_le h, toInt_widen_true h, BitVec.toInt_bmod_cancel]

theorem widen_inj (h : N ≤ W) {s : Bool} {x y : BitVec N} : widen W s x = widen W s y ↔ x = y := by
  constructor
  · intro he
    rw [← setWidth_widen h s x, he, setWidth_widen h]
  · rintro rfl
    rfl

theorem beq_widen (h : N ≤ W) (s : Bool) (x y : BitVec N) :
    (widen W s x == widen W s y) = (x == y) := by
  rw [Bool.eq_iff_iff, beq_iff_eq, beq_iff_eq, widen_inj h]

theorem widen_eq_of_msb {x : BitVec N} (hx : x.msb = false) (s s' : Bool) :
    widen W s x = widen W s' x := by
  have : x.signExtend W = x.setWidth W := BitVec.signExtend_eq_setWidth_of_msb_false hx
  cases s <;> cases s' <;> simp [widen, this]

theorem widen_self (s : Bool) (x : BitVec N) : widen N s x = x := by
  cases s <;> simp [widen]

theorem msb_widen_true (h : N ≤ W) (x : BitVec N) : (widen W true x).msb = x.msb := by
  rw [BitVec.msb_eq_toInt, BitVec.msb_eq_toInt, toInt_widen_true h]

theorem widen_setWidth_widen {D : ℕ} (hN : N ≤ D) (hD : D ≤ W) (s : Bool) (x : BitVec N) :
    (widen W s x).setWidth D = widen D s x := by
  cases s with
  | false => simp [widen, hD]
  | true =>
    apply BitVec.eq_of_toInt_eq
    rw [toInt_setWidth_of_le hD, toInt_widen_true (Nat.le_trans hN hD), toInt_widen_true hN]
    have h2 : (BitVec.signExtend D x).toInt.bmod (2 ^ D) = (BitVec.signExtend D x).toInt :=
      BitVec.toInt_bmod_cancel _
    rwa [BitVec.toInt_signExtend_of_le hN] at h2

theorem widen_widen {D : ℕ} (hN : N < D) (hD : D ≤ W) (s : Bool) (x : BitVec N) :
    widen W true (widen D s x) = widen W s x := by
  cases s with
  | true =>
    apply BitVec.eq_of_toInt_eq
    rw [toInt_widen_true hD, toInt_widen_true (Nat.le_of_lt hN),
      toInt_widen_true (Nat.le_trans (Nat.le_of_lt hN) hD)]
  | false =>
    have hm : (widen D false x).msb = false := by
      rw [BitVec.msb_eq_false_iff_two_mul_lt, toNat_widen_false (Nat.le_of_lt hN)]
      have h1 := x.isLt
      have h2 : 2 ^ (N + 1) ≤ 2 ^ D := Nat.pow_le_pow_right Nat.two_pos hN
      rw [Nat.pow_succ] at h2
      omega
    rw [widen_eq_of_msb hm true false]
    apply BitVec.eq_of_toNat_eq
    rw [toNat_widen_false hD, toNat_widen_false (Nat.le_of_lt hN),
      toNat_widen_false (Nat.le_trans (Nat.le_of_lt hN) hD)]

theorem sdiv_widen (h : N ≤ W) (x y : BitVec N) :
    ((widen W true x).sdiv (widen W true y)).setWidth N = x.sdiv y := by
  apply BitVec.eq_of_toInt_eq
  rw [toInt_setWidth_of_le h, BitVec.toInt_sdiv, BitVec.toInt_sdiv, toInt_widen_true h,
    toInt_widen_true h, Int.bmod_bmod_of_dvd (Nat.pow_dvd_pow 2 h)]

theorem srem_widen (h : N ≤ W) (x y : BitVec N) :
    ((widen W true x).srem (widen W true y)).setWidth N = x.srem y := by
  apply BitVec.eq_of_toInt_eq
  rw [toInt_setWidth_of_le h, BitVec.toInt_srem, toInt_widen_true h, toInt_widen_true h,
    ← BitVec.toInt_srem, BitVec.toInt_bmod_cancel]

theorem udiv_widen (h : N ≤ W) (x y : BitVec N) :
    (widen W false x / widen W false y).setWidth N = x / y := by
  apply BitVec.eq_of_toNat_eq
  rw [BitVec.toNat_setWidth, BitVec.toNat_udiv, toNat_widen_false h, toNat_widen_false h,
    ← BitVec.toNat_udiv, Nat.mod_eq_of_lt (x / y).isLt]

theorem umod_widen (h : N ≤ W) (x y : BitVec N) :
    (widen W false x % widen W false y).setWidth N = x % y := by
  apply BitVec.eq_of_toNat_eq
  rw [BitVec.toNat_setWidth, BitVec.toNat_umod, toNat_widen_false h, toNat_widen_false h,
    ← BitVec.toNat_umod, Nat.mod_eq_of_lt (x % y).isLt]

theorem ushiftRight_widen (h : N ≤ W) (x : BitVec N) (c : ℕ) :
    (widen W false x >>> c).setWidth N = x >>> c := by
  apply BitVec.eq_of_toNat_eq
  rw [BitVec.toNat_setWidth, BitVec.toNat_ushiftRight, toNat_widen_false h,
    ← BitVec.toNat_ushiftRight, Nat.mod_eq_of_lt (x >>> c).isLt]

theorem sshiftRight_widen (h : N ≤ W) (x : BitVec N) (c : ℕ) :
    ((widen W true x).sshiftRight c).setWidth N = x.sshiftRight c := by
  apply BitVec.eq_of_toInt_eq
  rw [toInt_setWidth_of_le h, BitVec.toInt_sshiftRight, toInt_widen_true h,
    ← BitVec.toInt_sshiftRight, BitVec.toInt_bmod_cancel]

theorem slt_widen (h : N ≤ W) (x y : BitVec N) :
    (widen W true x).slt (widen W true y) = x.slt y := by
  rw [BitVec.slt_eq_decide, BitVec.slt_eq_decide, toInt_widen_true h, toInt_widen_true h]

theorem sle_widen (h : N ≤ W) (x y : BitVec N) :
    (widen W true x).sle (widen W true y) = x.sle y := by
  rw [BitVec.sle_eq_decide, BitVec.sle_eq_decide, toInt_widen_true h, toInt_widen_true h]

theorem ult_eq_slt (x y : BitVec N) : x.ult y = ((x.msb != y.msb) ^^ x.slt y) := by
  rw [BitVec.slt_eq_ult, ← Bool.xor_assoc, Bool.xor_self, Bool.false_xor]

/-- **The unsigned order does not care which extension is used.** -/
theorem ult_widen (h : N ≤ W) (s : Bool) (x y : BitVec N) :
    (widen W s x).ult (widen W s y) = x.ult y := by
  cases s with
  | false => simp only [BitVec.ult, toNat_widen_false h]
  | true => rw [ult_eq_slt, ult_eq_slt x, slt_widen h, msb_widen_true h, msb_widen_true h]

theorem ule_widen (h : N ≤ W) (s : Bool) (x y : BitVec N) :
    (widen W s x).ule (widen W s y) = x.ule y := by
  rw [BitVec.ule_eq_not_ult, BitVec.ule_eq_not_ult, ult_widen h]

theorem sdiv_eq_of_msb {x y : BitVec N} (hx : x.msb = false) (hy : y.msb = false) :
    x.sdiv y = x / y := by
  rw [BitVec.sdiv_eq, hx, hy]
  rfl

theorem srem_eq_of_msb {x y : BitVec N} (hx : x.msb = false) (hy : y.msb = false) :
    x.srem y = x % y := by
  rw [BitVec.srem_eq, hx, hy]

theorem slt_eq_of_msb {x y : BitVec N} (hx : x.msb = false) (hy : y.msb = false) :
    x.slt y = x.ult y :=
  BitVec.slt_eq_ult_of_msb_eq (by rw [hx, hy])

theorem sle_eq_of_msb {x y : BitVec N} (hx : x.msb = false) (hy : y.msb = false) :
    x.sle y = x.ule y := by
  rw [BitVec.sle_eq_not_slt, BitVec.ule_eq_not_ult, slt_eq_of_msb hy hx]

end DssPrime.Bits
