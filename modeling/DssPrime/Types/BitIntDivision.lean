import Mathlib
import DssPrime.Types.BitIntExact

/-!
# `_BitInt` division is truncated division

The long division brings down one bit of the dividend at a time: after the bits from `k` on, the
quotient holds `a / 2 ^ k / b` in place and the remainder `a / 2 ^ k % b` (`LongDiv`).

The register of the running remainder has no limb to spare. The shift is safe all the same
(`noBitLost`): the remainder is at most the prefix of the dividend brought down so far, so its top
bit is clear as long as a bit is to come, whatever the divisor's top bit is.
-/

namespace DssPrime.BitIntValue

open Bits (wrapInt)

section LongDivision

variable {a b q r : List (BitVec 64)}

/-- The invariant of the division, `k` bits to go. -/
structure LongDiv (a b : List (BitVec 64)) (k : ℕ) (q r : List (BitVec 64)) : Prop where
  length_q : q.length = a.length
  length_r : r.length = a.length
  val_q : Limbs.val q = Limbs.val a / 2 ^ k / Limbs.val b * 2 ^ k
  val_r : Limbs.val r = Limbs.val a / 2 ^ k % Limbs.val b

theorem setBit_length (v : List (BitVec 64)) (bit : ℕ) : (setBit v bit).length = v.length := by
  rw [setBit]
  split_ifs
  · exact List.length_modify _ _ _
  · rfl

theorem val_setBit {k m : ℕ} (hk : k < 64 * q.length) (hq : Limbs.val q = 2 ^ (k + 1) * m) :
    Limbs.val (setBit q k) = Limbs.val q + 2 ^ k := by
  have hlt : k / 64 < q.length := by omega
  have hor : Limbs.val (setBit q k) = Limbs.val q ||| 2 ^ k := by
    apply Nat.eq_of_testBit_eq
    intro i
    rw [Nat.testBit_or, Nat.testBit_two_pow, Limbs.testBit_val, Limbs.testBit_val, setBit,
      if_pos hlt]
    by_cases hi : i / 64 < q.length
    · have hget := getD_modify hi (k / 64) (· ||| (1#64 <<< (k % 64)))
      rw [show (0 : BitVec 64) = 0#64 from rfl, hget]
      by_cases hki : k / 64 = i / 64
      · rw [if_pos hki, BitVec.getLsbD_or, ← BitVec.twoPow_eq, BitVec.getLsbD_twoPow]
        congr 1
        by_cases hkm : k % 64 = i % 64
        · have : k = i := by omega
          simp [this, Nat.mod_lt]
        · have : k ≠ i := fun h => hkm (by rw [h])
          simp [hkm, this]
      · have : k ≠ i := fun h => hki (by rw [h])
        rw [if_neg hki]
        simp [this]
    · have hlen : (q.modify (k / 64) (· ||| (1#64 <<< (k % 64)))).length ≤ i / 64 := by
        rw [List.length_modify]
        omega
      have : k ≠ i := by
        rintro rfl
        exact hi hlt
      rw [List.getD_eq_default _ _ hlen, List.getD_eq_default _ _ (by omega)]
      simp [this]
  rw [hor, hq, Nat.two_pow_add_eq_or_of_lt (by rw [pow_succ]; have := Nat.two_pow_pos k; omega)]

theorem val_bringDown {c : Bool} (hr : 2 * Limbs.val r + c.toNat < 2 ^ (64 * r.length)) :
    Limbs.val (if c then (Limbs.shl1 r 0#64).modify 0 (· ||| 1#64) else Limbs.shl1 r 0#64) =
      2 * Limbs.val r + c.toNat := by
  have hdouble : Limbs.val (Limbs.shl1 r 0#64) = 2 * Limbs.val r := by
    have hmod := Limbs.val_shl1 r (c := 0#64) (by decide)
    have hlt := Limbs.val_lt (Limbs.shl1 r 0#64)
    rw [Limbs.shl1_length] at hlt
    have h := Nat.ModEq.eq_of_lt_of_lt hmod hlt (by simp; omega)
    simpa using h
  cases c with
  | false => simpa using hdouble
  | true =>
    simp only [if_true, Bool.toNat_true] at hr ⊢
    cases hs : Limbs.shl1 r 0#64 with
    | nil =>
      have hlen := Limbs.shl1_length r 0#64
      rw [hs] at hlen
      have hnil : r = [] := List.eq_nil_of_length_eq_zero hlen.symm
      subst hnil
      simp at hr
    | cons l ls =>
      rw [hs, Limbs.val_cons] at hdouble
      have heven : l.toNat % 2 = 0 := by omega
      have hor : (l ||| 1#64).toNat = l.toNat + 1 := by
        rw [BitVec.toNat_or, show (1#64).toNat = 1 from rfl]
        have := Nat.two_pow_add_eq_or_of_lt (show 1 < 2 ^ 1 by decide) (l.toNat / 2)
        rw [show 2 ^ 1 * (l.toNat / 2) = l.toNat by omega] at this
        exact this.symm
      rw [List.modify_zero_cons, Limbs.val_cons, hor]
      omega

theorem ucompare_eq (h : r.length = b.length) :
    ucompare r b = Ord.compare (Limbs.val r) (Limbs.val b) := by
  rw [ucompare, Limbs.cmpBelow_eq, h, if_neg (lt_irrefl _), List.take_of_length_le (by rw [h]),
    List.take_of_length_le le_rfl]

theorem val_subBorrow (h : r.length = b.length) (hle : Limbs.val b ≤ Limbs.val r) :
    Limbs.val (Limbs.subBorrow r b 0#64).1 = Limbs.val r - Limbs.val b := by
  obtain ⟨hval, hbor⟩ := Limbs.subBorrow_val h (c := 0#64) (by decide)
  have hlt := Limbs.val_lt (Limbs.subBorrow r b 0#64).1
  rw [Limbs.subBorrow_length] at hlt
  have hz : (0#64).toNat = 0 := rfl
  rw [hz] at hval
  rcases Nat.le_one_iff_eq_zero_or_eq_one.1 hbor with h0 | h1
  · rw [h0] at hval
    omega
  · rw [h1] at hval
    omega

theorem LongDiv.step {k : ℕ} (hlen : a.length = b.length) (hb : 0 < Limbs.val b)
    (hk : k < 64 * a.length) (h : LongDiv a b (k + 1) q r) :
    LongDiv a b k (udivmodStep a b (q, r) k).1 (udivmodStep a b (q, r) k).2 := by
  have hA := Limbs.val_lt a
  -- the dividend's prefix gains one bit
  have hbit : Limbs.val a / 2 ^ k = 2 * (Limbs.val a / 2 ^ (k + 1)) + (getBit a k).toNat := by
    rw [getBit_eq, Limbs.div_two_pow_eq]
  have hprefix : Limbs.val a / 2 ^ k < 2 ^ (64 * a.length) :=
    (Nat.div_le_self _ _).trans_lt hA
  have hmodle := Nat.mod_le (Limbs.val a / 2 ^ (k + 1)) (Limbs.val b)
  have hdown := val_bringDown (c := getBit a k) (show _ < 2 ^ (64 * r.length) by
    rw [h.length_r, h.val_r]
    omega)
  have hlenr : (if getBit a k then (Limbs.shl1 r 0#64).modify 0 (· ||| 1#64)
      else Limbs.shl1 r 0#64).length = a.length := by
    split_ifs
    · rw [List.length_modify, Limbs.shl1_length, h.length_r]
    · rw [Limbs.shl1_length, h.length_r]
  obtain ⟨hup, hlow⟩ := Limbs.divMod_bringDown hb hbit (Bool.toNat_le _)
  have hq := h.val_q
  rw [h.val_r] at hdown
  rw [← hdown] at hup hlow
  rw [udivmodStep]
  simp only
  generalize (if getBit a k then (Limbs.shl1 r 0#64).modify 0 (· ||| 1#64)
    else Limbs.shl1 r 0#64) = r' at hlenr hup hlow ⊢
  rw [ucompare_eq (hlenr.trans hlen)]
  by_cases hge : Limbs.val b ≤ Limbs.val r'
  · have hcmp : Ord.compare (Limbs.val r') (Limbs.val b) ≠ .lt := by
      rw [ne_eq, Nat.compare_eq_lt]
      omega
    obtain ⟨hquot, hrem⟩ := hup hge
    rw [if_pos hcmp]
    refine ⟨?_, ?_, ?_, ?_⟩
    · rw [setBit_length, h.length_q]
    · rw [Limbs.subBorrow_length, hlenr]
    · rw [val_setBit (by rw [h.length_q]; exact hk) (hq.trans (mul_comm _ _)), hq, hquot]
      ring
    · rw [val_subBorrow (hlenr.trans hlen) hge, hrem]
  · have hcmp : ¬ Ord.compare (Limbs.val r') (Limbs.val b) ≠ .lt := by
      rw [not_not, Nat.compare_eq_lt]
      omega
    obtain ⟨hquot, hrem⟩ := hlow hge
    rw [if_neg hcmp]
    refine ⟨h.length_q, hlenr, ?_, hrem.symm⟩
    rw [hq, hquot]
    ring

theorem LongDiv.finish (hlen : a.length = b.length) (hb : 0 < Limbs.val b) {k : ℕ}
    (hk : k ≤ 64 * a.length) {qr : List (BitVec 64) × List (BitVec 64)}
    (h : LongDiv a b k qr.1 qr.2) :
    LongDiv a b 0 ((List.range k).reverse.foldl (udivmodStep a b) qr).1
      ((List.range k).reverse.foldl (udivmodStep a b) qr).2 := by
  induction k generalizing qr with
  | zero => exact h
  | succ k ih =>
    rw [List.range_succ, List.reverse_append, List.reverse_singleton, List.singleton_append,
      List.foldl_cons]
    exact ih (by omega) (h.step hlen hb (by omega))

/-- **The long division divides.** -/
theorem udivmod_spec (hlen : a.length = b.length) (hb : 0 < Limbs.val b) :
    Limbs.val (udivmod a b).1 = Limbs.val a / Limbs.val b ∧
      Limbs.val (udivmod a b).2 = Limbs.val a % Limbs.val b := by
  have hA := Limbs.val_lt a
  have hzero : Limbs.val a / 2 ^ (a.length * 64) = 0 := by
    rw [mul_comm a.length 64]
    exact Nat.div_eq_of_lt hA
  have hstart : LongDiv a b (a.length * 64) (List.replicate a.length 0#64)
      (List.replicate a.length 0#64) := by
    refine ⟨List.length_replicate, List.length_replicate, ?_, ?_⟩
    · rw [hzero, Limbs.val_replicate_zero, Nat.zero_div, Nat.zero_mul]
    · rw [hzero, Limbs.val_replicate_zero, Nat.zero_mod]
  have hend := @LongDiv.finish a b hlen hb (a.length * 64) (by omega)
    (List.replicate a.length 0#64, List.replicate a.length 0#64) hstart
  rw [udivmod, hlen, if_neg (lt_irrefl _), ← hlen]
  refine ⟨?_, ?_⟩
  · rw [hend.val_q, pow_zero, Nat.div_one, Nat.mul_one]
  · rw [hend.val_r, pow_zero, Nat.div_one]

theorem val_negatedMagnitude (ls : List (BitVec 64)) {c : BitVec 64} (hc : c.toNat ≤ 1) :
    ∃ out ≤ 1, Limbs.val (negatedMagnitude ls c) + 2 ^ (64 * ls.length) * out + Limbs.val ls + 1 =
      2 ^ (64 * ls.length) + c.toNat := by
  induction ls generalizing c with
  | nil => exact ⟨c.toNat, hc, by simp [negatedMagnitude]; omega⟩
  | cons l ls ih =>
    have hl := l.isLt
    have hnot : (~~~l).toNat = 2 ^ 64 - 1 - l.toNat := BitVec.toNat_not
    have hsum : (~~~l + c).toNat = (2 ^ 64 - 1 - l.toNat + c.toNat) % 2 ^ 64 := by
      rw [BitVec.toNat_add, hnot]
    have hcarry : (if ~~~l + c < c then 1#64 else 0#64).toNat =
        (2 ^ 64 - 1 - l.toNat + c.toNat) / 2 ^ 64 := by
      split_ifs with hlt
      · rw [BitVec.lt_def, hsum] at hlt
        rw [show (1#64).toNat = 1 from rfl]
        omega
      · rw [BitVec.lt_def, hsum] at hlt
        rw [show (0#64).toNat = 0 from rfl]
        omega
    obtain ⟨out, hout, hval⟩ := @ih (if ~~~l + c < c then 1#64 else 0#64) (by rw [hcarry]; omega)
    refine ⟨out, hout, ?_⟩
    simp only [negatedMagnitude, Limbs.val_cons, List.length_cons, Limbs.pow_succ_limb]
    rw [hcarry] at hval
    have hdm := Nat.mod_add_div (2 ^ 64 - 1 - l.toNat + c.toNat) (2 ^ 64)
    rw [← hsum] at hdm
    have hscaled : 2 ^ 64 * (Limbs.val (negatedMagnitude ls
        (if ~~~l + c < c then 1#64 else 0#64)) + 2 ^ (64 * ls.length) * out + Limbs.val ls + 1) =
        2 ^ 64 * (2 ^ (64 * ls.length) + (2 ^ 64 - 1 - l.toNat + c.toNat) / 2 ^ 64) := by
      rw [hval]
    have hassoc : 2 ^ 64 * 2 ^ (64 * ls.length) * out = 2 ^ 64 * (2 ^ (64 * ls.length) * out) :=
      mul_assoc _ _ _
    rw [hassoc]
    generalize 2 ^ (64 * ls.length) * out = X at hscaled ⊢
    generalize 2 ^ (64 * ls.length) = Y at hscaled ⊢
    omega

theorem length_negatedMagnitude (ls : List (BitVec 64)) (c : BitVec 64) :
    (negatedMagnitude ls c).length = ls.length := by
  induction ls generalizing c with
  | nil => rfl
  | cons l ls ih => rw [negatedMagnitude, List.length_cons, List.length_cons, ih]

end LongDivision

section Magnitude

variable {v : BitIntValue}

theorem Valid.isNegative_eq (h : v.Valid) : v.isNegative = decide (v.toInt < 0) := by
  have hlt := Limbs.val_lt v.limbs
  have heq := h.toInt_eq
  have hcast : ((2 ^ (64 * v.limbs.length) : ℕ) : ℤ) = 2 ^ (64 * v.limbs.length) :=
    Nat.cast_pow 2 _
  cases hn : v.isNegative with
  | true =>
    rw [hn, if_pos rfl] at heq
    exact (decide_eq_true (by omega)).symm
  | false =>
    rw [hn] at heq
    simp only [Bool.false_eq_true, if_false] at heq
    exact (decide_eq_false (by omega)).symm

def magnitude (v : BitIntValue) : List (BitVec 64) :=
  if v.isNegative then negatedMagnitude v.limbs 1#64 else v.limbs

theorem magnitude_length (v : BitIntValue) : v.magnitude.length = v.limbs.length := by
  rw [magnitude]
  split_ifs
  · exact length_negatedMagnitude _ _
  · rfl

theorem Valid.val_magnitude (h : v.Valid) : Limbs.val v.magnitude = v.toInt.natAbs := by
  rw [magnitude]
  have hlt := Limbs.val_lt v.limbs
  have heq := h.toInt_eq
  have hcast : ((2 ^ (64 * v.limbs.length) : ℕ) : ℤ) = 2 ^ (64 * v.limbs.length) :=
    Nat.cast_pow 2 _
  cases hn : v.isNegative with
  | true =>
    rw [hn, if_pos rfl] at heq
    rw [if_pos rfl]
    obtain ⟨out, hout, hval⟩ := val_negatedMagnitude v.limbs (c := 1#64) (by decide)
    rw [show (1#64).toNat = 1 from rfl] at hval
    have hneg : v.toInt < 0 := by omega
    have hpos : Limbs.val v.limbs ≠ 0 := by
      -- a negative value has its sign bit among the limbs
      intro h0
      have hsb := signBitSet_eq h.width_pos
      rw [h0, Nat.zero_testBit] at hsb
      rw [isNegative, hsb, Bool.and_false] at hn
      cases hn
    rcases Nat.le_one_iff_eq_zero_or_eq_one.1 hout with h0 | h1
    · rw [h0] at hval
      omega
    · rw [h1] at hval
      omega
  | false =>
    rw [hn] at heq
    simp only [Bool.false_eq_true, if_false] at heq ⊢
    omega

theorem val_eq_zero_iff (ls : List (BitVec 64)) : Limbs.val ls = 0 ↔ ∀ l ∈ ls, l = 0#64 := by
  induction ls with
  | nil => simp
  | cons l ls ih =>
    have hl : l.toNat = 0 ↔ l = 0#64 := by
      rw [← BitVec.toNat_inj]
      rfl
    rw [Limbs.val_cons, List.forall_mem_cons, ← ih, ← hl]
    omega

theorem Valid.isZero_eq (h : v.Valid) : v.isZero = decide (v.toInt = 0) := by
  have hall : v.isZero = true ↔ Limbs.val v.limbs = 0 := by
    rw [val_eq_zero_iff, isZero, List.all_eq_true]
    simp only [beq_iff_eq]
  have hmag := h.val_magnitude
  rw [magnitude] at hmag
  have hneg := h.isNegative_eq
  rw [Bool.eq_iff_iff, hall, decide_eq_true_iff]
  constructor
  · intro h0
    have hsb := signBitSet_eq h.width_pos
    rw [h0, Nat.zero_testBit] at hsb
    rw [isNegative, hsb, Bool.and_false] at hmag
    simp only [Bool.false_eq_true, if_false] at hmag
    omega
  · intro h0
    rw [h0] at hneg hmag
    rw [hneg] at hmag
    simpa using hmag

end Magnitude

section Division

variable {a b : BitIntValue} {W : ℕ} (S : Bool)

theorem nat_or_neg_nat (x : ℤ) : (∃ n : ℕ, x = n) ∨ ∃ n : ℕ, 0 < n ∧ x = -n := by
  by_cases hx : 0 ≤ x
  · exact .inl ⟨x.toNat, by omega⟩
  · exact .inr ⟨(-x).toNat, by omega, by omega⟩

theorem natCast_tdiv (n m : ℕ) : (n : ℤ).tdiv m = ((n / m : ℕ) : ℤ) := by
  rw [Int.tdiv_eq_ediv_of_nonneg (Int.natCast_nonneg n), Int.natCast_ediv]

theorem natCast_tmod (n m : ℕ) : (n : ℤ).tmod m = ((n % m : ℕ) : ℤ) := by
  rw [Int.tmod_eq_emod_of_nonneg (Int.natCast_nonneg n), Int.natCast_emod]

theorem tdiv_eq_magnitudes (x y : ℤ) :
    x.tdiv y = if decide (x < 0) != decide (y < 0) then -((x.natAbs / y.natAbs : ℕ) : ℤ)
      else ((x.natAbs / y.natAbs : ℕ) : ℤ) := by
  have hnat : ∀ n : ℕ, decide ((n : ℤ) < 0) = false := fun n => decide_eq_false (by omega)
  have hneg : ∀ n : ℕ, 0 < n → decide (-(n : ℤ) < 0) = true := fun n hn =>
    decide_eq_true (by omega)
  obtain ⟨n, rfl⟩ | ⟨n, hn, rfl⟩ := nat_or_neg_nat x
  · obtain ⟨m, rfl⟩ | ⟨m, hm, rfl⟩ := nat_or_neg_nat y
    · rw [hnat, hnat, natCast_tdiv]
      rfl
    · rw [hnat, hneg m hm, Int.tdiv_neg, natCast_tdiv, Int.natAbs_neg]
      rfl
  · obtain ⟨m, rfl⟩ | ⟨m, hm, rfl⟩ := nat_or_neg_nat y
    · rw [hnat, hneg n hn, Int.neg_tdiv, natCast_tdiv, Int.natAbs_neg]
      rfl
    · rw [hneg n hn, hneg m hm, Int.neg_tdiv, Int.tdiv_neg, natCast_tdiv, neg_neg, Int.natAbs_neg,
        Int.natAbs_neg]
      rfl

theorem tmod_eq_magnitudes (x y : ℤ) :
    x.tmod y = if decide (x < 0) then -((x.natAbs % y.natAbs : ℕ) : ℤ)
      else ((x.natAbs % y.natAbs : ℕ) : ℤ) := by
  have hy : x.tmod y = x.tmod (y.natAbs : ℤ) := by
    obtain ⟨m, rfl⟩ | ⟨m, hm, rfl⟩ := nat_or_neg_nat y
    · rfl
    · rw [Int.tmod_neg, Int.natAbs_neg]
      rfl
  rw [hy]
  obtain ⟨n, rfl⟩ | ⟨n, hn, rfl⟩ := nat_or_neg_nat x
  · rw [if_neg (by simp), natCast_tmod]
    rfl
  · rw [if_pos (by simpa using hn), Int.neg_tmod, natCast_tmod, Int.natAbs_neg]
    rfl

theorem toInt_signed (hW : W + 63 < 2 ^ 32) (mag : List (BitVec 64)) (negResult : Bool) :
    (if negResult then neg (ofLimbs mag W false) W S else ofLimbs mag W S).toInt =
      wrapInt (declared W) S (if negResult then -(Limbs.val mag : ℤ) else Limbs.val mag) := by
  cases negResult with
  | false => exact toInt_ofLimbs mag S hW
  | true =>
    simp only [if_true]
    rw [toInt_neg S (valid_ofLimbs mag false hW) hW, toInt_ofLimbs mag false hW]
    exact Bits.wrapInt_congr (Bits.wrapInt_modEq _ _ _).neg

theorem valid_signed (hW : W + 63 < 2 ^ 32) (mag : List (BitVec 64)) (negResult : Bool) :
    (if negResult then neg (ofLimbs mag W false) W S else ofLimbs mag W S).Valid := by
  cases negResult with
  | false => exact valid_ofLimbs mag S hW
  | true => exact valid_ofLimbs _ S hW

theorem type_signed (mag : List (BitVec 64)) (negResult : Bool) :
    (if negResult then neg (ofLimbs mag W false) W S else ofLimbs mag W S).width = declared W ∧
      (if negResult then neg (ofLimbs mag W false) W S else ofLimbs mag W S).isSigned = S := by
  have hdd : declared (declared W) = declared W := declared_eq (declared_pos W)
  cases negResult with
  | false => exact ⟨hdd, rfl⟩
  | true => exact ⟨hdd, rfl⟩

/-- **Division truncates towards zero and the remainder has the sign of the dividend**, on the
converted operands and reduced into the result type; a zero divisor is refused. -/
theorem toInt_divRem (ha : a.Valid) (hb : b.Valid) (hW : W + 63 < 2 ^ 32) (wantRem : Bool) :
    (wrapInt (declared W) S b.toInt = 0 → divRem a b W S wantRem = none) ∧
    (wrapInt (declared W) S b.toInt ≠ 0 → ∃ r, divRem a b W S wantRem = some r ∧ r.Valid ∧
      r.width = declared W ∧ r.isSigned = S ∧
      r.toInt = wrapInt (declared W) S
        (if wantRem then (wrapInt (declared W) S a.toInt).tmod (wrapInt (declared W) S b.toInt)
          else (wrapInt (declared W) S a.toInt).tdiv (wrapInt (declared W) S b.toInt))) := by
  have hva : (a.withType W S).Valid := valid_convertTo a S hW
  have hvb : (b.withType W S).Valid := valid_convertTo b S hW
  have hxa : (a.withType W S).toInt = wrapInt (declared W) S a.toInt := toInt_convertTo ha S hW
  have hxb : (b.withType W S).toInt = wrapInt (declared W) S b.toInt := toInt_convertTo hb S hW
  have hsa : (S && (a.withType W S).isNegative) = (a.withType W S).isNegative := by
    rw [isNegative, show (a.withType W S).isSigned = S from rfl, ← Bool.and_assoc, Bool.and_self]
  have hsb : (S && (b.withType W S).isNegative) = (b.withType W S).isNegative := by
    rw [isNegative, show (b.withType W S).isSigned = S from rfl, ← Bool.and_assoc, Bool.and_self]
  rw [← hxa, ← hxb]
  refine ⟨fun h0 => ?_, fun h0 => ?_⟩
  · rw [divRem]
    simp only [hvb.isZero_eq, h0, decide_true, if_true]
  have hzero : (b.withType W S).isZero = false := by
    rw [hvb.isZero_eq]
    exact decide_eq_false h0
  have heq : divRem a b W S wantRem = some
      (if (if wantRem then (a.withType W S).isNegative
          else (a.withType W S).isNegative != (b.withType W S).isNegative) then
        neg (ofLimbs (if wantRem then (udivmod (a.withType W S).magnitude
          (b.withType W S).magnitude).2 else (udivmod (a.withType W S).magnitude
          (b.withType W S).magnitude).1) W false) W S
      else ofLimbs (if wantRem then (udivmod (a.withType W S).magnitude
        (b.withType W S).magnitude).2 else (udivmod (a.withType W S).magnitude
        (b.withType W S).magnitude).1) W S) := by
    rw [divRem]
    simp only [hzero, Bool.false_eq_true, if_false, hsa, hsb, magnitude]
  have hmaga := hva.val_magnitude
  have hmagb := hvb.val_magnitude
  have hlen : (a.withType W S).magnitude.length = (b.withType W S).magnitude.length := by
    rw [magnitude_length, magnitude_length, withType_length, withType_length]
  obtain ⟨hq, hr⟩ := udivmod_spec hlen (by rw [hmagb]; exact Int.natAbs_pos.2 h0)
  rw [hmaga, hmagb] at hq hr
  refine ⟨_, heq, ?_, ?_, ?_, ?_⟩
  · exact valid_signed S hW _ _
  · exact (type_signed S _ _).1
  · exact (type_signed S _ _).2
  · rw [toInt_signed S hW]
    congr 1
    cases wantRem with
    | true =>
      simp only [if_true]
      rw [hr, hva.isNegative_eq, ← tmod_eq_magnitudes]
    | false =>
      simp only [Bool.false_eq_true, if_false]
      rw [hq, hva.isNegative_eq, hvb.isNegative_eq, ← tdiv_eq_magnitudes]

end Division

section RunningRemainder

variable {a b : List (BitVec 64)}

/-- The quotient and the running remainder after `turns` turns of the loop. -/
def udivmodAfter (a b : List (BitVec 64)) (turns : ℕ) : List (BitVec 64) × List (BitVec 64) :=
  let n := if b.length < a.length then a.length else b.length
  ((List.range (n * 64)).reverse.take turns).foldl (udivmodStep a b)
    (List.replicate n 0#64, List.replicate n 0#64)

theorem udivmodAfter_all (hlen : a.length = b.length) :
    udivmodAfter a b (64 * a.length) = udivmod a b := by
  have hall : (List.range (a.length * 64)).reverse.length ≤ 64 * a.length := by
    rw [List.length_reverse, List.length_range]
    omega
  rw [udivmodAfter, udivmod, ← hlen, if_neg (lt_irrefl _), List.take_of_length_le hall]

theorem longDiv_start (a b : List (BitVec 64)) : LongDiv a b (64 * a.length)
    (List.replicate a.length 0#64) (List.replicate a.length 0#64) := by
  have hzero : Limbs.val a / 2 ^ (64 * a.length) = 0 := Nat.div_eq_of_lt (Limbs.val_lt a)
  refine ⟨List.length_replicate, List.length_replicate, ?_, ?_⟩
  · rw [hzero, Limbs.val_replicate_zero, Nat.zero_div, Nat.zero_mul]
  · rw [hzero, Limbs.val_replicate_zero, Nat.zero_mod]

theorem longDiv_udivmodAfter (hlen : a.length = b.length) (hb : 0 < Limbs.val b) {turns : ℕ}
    (ht : turns ≤ 64 * a.length) :
    LongDiv a b (64 * a.length - turns) (udivmodAfter a b turns).1 (udivmodAfter a b turns).2 := by
  induction turns with
  | zero =>
    rw [udivmodAfter, ← hlen, if_neg (lt_irrefl _)]
    exact longDiv_start a b
  | succ t ih =>
    have hk : 64 * a.length - t = 64 * a.length - (t + 1) + 1 := by omega
    have hin : t < (List.range (a.length * 64)).reverse.length := by
      rw [List.length_reverse, List.length_range]
      omega
    have hbit : (List.range (a.length * 64)).reverse[t] = 64 * a.length - (t + 1) := by
      rw [List.getElem_reverse, List.getElem_range, List.length_range]
      omega
    have hturn : udivmodAfter a b (t + 1) =
        udivmodStep a b (udivmodAfter a b t) (64 * a.length - (t + 1)) := by
      rw [udivmodAfter, udivmodAfter, ← hlen, if_neg (lt_irrefl _), ← List.take_concat_get' _ t hin,
        List.foldl_concat, hbit]
    rw [hturn]
    exact LongDiv.step hlen hb (by omega) (hk ▸ ih (by omega))

/-- No bit is shifted out of the running remainder: before every turn it is below the divisor,
and the shift doubles it. -/
def NoBitLost (a b : List (BitVec 64)) : Prop :=
  ∀ turns < 64 * a.length,
    Limbs.val (udivmodAfter a b turns).2 < Limbs.val b ∧
    Limbs.val (Limbs.shl1 (udivmodAfter a b turns).2 0#64) =
      2 * Limbs.val (udivmodAfter a b turns).2

/-- The divisor may have its top bit set: the running remainder is also at most the prefix of
the dividend brought down so far, and a bit of the dividend is still to come. -/
theorem noBitLost (hlen : a.length = b.length) (hb : 0 < Limbs.val b) : NoBitLost a b := by
  intro turns ht
  have h := longDiv_udivmodAfter hlen hb ht.le
  have hval := h.val_r
  have hlt : Limbs.val (udivmodAfter a b turns).2 < Limbs.val b := by
    rw [hval]
    exact Nat.mod_lt _ hb
  refine ⟨hlt, ?_⟩
  have hroom : 2 * Limbs.val (udivmodAfter a b turns).2 <
      2 ^ (64 * (udivmodAfter a b turns).2.length) := by
    have hprefix : Limbs.val a / 2 ^ (64 * a.length - turns) * 2 ≤ Limbs.val a := by
      have hpow : 2 ≤ 2 ^ (64 * a.length - turns) := by
        calc 2 = 2 ^ 1 := rfl
          _ ≤ 2 ^ (64 * a.length - turns) := Nat.pow_le_pow_right (by decide) (by omega)
      exact (Nat.mul_le_mul_left _ hpow).trans (Nat.div_mul_le_self _ _)
    have hmod := Nat.mod_le (Limbs.val a / 2 ^ (64 * a.length - turns)) (Limbs.val b)
    have hA := Limbs.val_lt a
    rw [h.length_r, hval]
    omega
  simpa using val_bringDown (c := false) (by simpa using hroom)

end RunningRemainder

section Exact

variable {a b : BitIntValue} {W : ℕ} {S : Bool}

theorem wrapInt_tmod (hW : 1 ≤ W) (x y : ℤ) (hy : wrapInt W S y ≠ 0) :
    wrapInt W S ((wrapInt W S x).tmod (wrapInt W S y)) =
      (wrapInt W S x).tmod (wrapInt W S y) := by
  have hx := Bits.wrapInt_range (S := S) hW x
  have hyr := Bits.wrapInt_range (S := S) hW y
  generalize wrapInt W S x = x' at hx ⊢
  generalize wrapInt W S y = y' at hy hyr ⊢
  have hlt : (x'.tmod y').natAbs < y'.natAbs := by
    rw [Int.natAbs_tmod]
    exact Nat.mod_lt _ (Int.natAbs_pos.2 hy)
  have hhalf := Bits.two_pow_eq_half hW
  cases S with
  | false =>
    simp only [Bool.false_eq_true, if_false] at hx hyr
    have hnn := Int.tmod_nonneg y' hx.1
    rw [wrapInt, if_neg (by decide), Int.emod_eq_of_lt hnn (by omega)]
  | true =>
    simp only [if_true] at hx hyr
    have hcast : ((2 ^ W : ℕ) : ℤ) = 2 * 2 ^ (W - 1) := by
      rw [hhalf]
      push_cast
      ring
    rw [wrapInt, if_pos rfl, Int.bmod_eq_of_le (by omega) (by omega)]

/-- What `divide` and `remainder` answer for one pair of operands and one result type. -/
structure DividesAt (a b : BitIntValue) (W : ℕ) (S : Bool) (q r : BitIntValue) : Prop where
  divide_eq : divide a b W S = some q
  remainder_eq : remainder a b W S = some r
  quotient_type : q.Valid ∧ q.width = declared W ∧ q.isSigned = S
  remainder_type : r.Valid ∧ r.width = declared W ∧ r.isSigned = S
  quotient : q.toInt = wrapInt (declared W) S
    ((a.withType W S).toInt.tdiv (b.withType W S).toInt)
  remainder : r.toInt = wrapInt (declared W) S
    ((a.withType W S).toInt.tmod (b.withType W S).toInt)
  modEq : q.toInt * b.toInt + r.toInt ≡ a.toInt [ZMOD 2 ^ declared W]
  remainder_exact : r.toInt = (a.withType W S).toInt.tmod (b.withType W S).toInt
  remainder_lt : |r.toInt| < |(b.withType W S).toInt|

theorem withType_isZero (hb : b.Valid) (hW : W + 63 < 2 ^ 32)
    (h0 : (b.withType W S).isZero = false) : wrapInt (declared W) S b.toInt ≠ 0 := by
  rw [withType, Valid.isZero_eq (valid_convertTo b S hW), toInt_convertTo hb S hW] at h0
  exact of_decide_eq_false h0

theorem dividesAt (ha : a.Valid) (hb : b.Valid) (hW : W + 63 < 2 ^ 32)
    (h0 : (b.withType W S).isZero = false) : ∃ q r, DividesAt a b W S q r := by
  have hne := withType_isZero hb hW h0
  have hd := declared_pos W
  have hxa : (a.withType W S).toInt = wrapInt (declared W) S a.toInt := toInt_convertTo ha S hW
  have hxb : (b.withType W S).toInt = wrapInt (declared W) S b.toInt := toInt_convertTo hb S hW
  obtain ⟨q, hq, hqv, hqw, hqs, hqval⟩ := (toInt_divRem S ha hb hW false).2 hne
  obtain ⟨r, hr, hrv, hrw, hrs, hrval⟩ := (toInt_divRem S ha hb hW true).2 hne
  simp only [Bool.false_eq_true, if_false] at hqval
  simp only [if_true] at hrval
  have hexact := hrval
  rw [wrapInt_tmod hd _ _ hne] at hexact
  refine ⟨q, r, ?_⟩
  constructor
  case divide_eq => exact hq
  case remainder_eq => exact hr
  case quotient_type => exact ⟨hqv, hqw, hqs⟩
  case remainder_type => exact ⟨hrv, hrw, hrs⟩
  case quotient => rw [hqval, hxa, hxb]
  case remainder => rw [hrval, hxa, hxb]
  case remainder_exact => rw [hexact, hxa, hxb]
  case remainder_lt =>
    rw [hexact, hxb, Int.abs_eq_natAbs, Int.abs_eq_natAbs, Int.natAbs_tmod]
    exact_mod_cast Nat.mod_lt _ (Int.natAbs_pos.2 hne)
  case modEq =>
    have hqm := Bits.wrapInt_modEq (declared W) S
      ((wrapInt (declared W) S a.toInt).tdiv (wrapInt (declared W) S b.toInt))
    rw [hqval, hexact]
    calc _ ≡ (wrapInt (declared W) S a.toInt).tdiv (wrapInt (declared W) S b.toInt) *
          wrapInt (declared W) S b.toInt +
          (wrapInt (declared W) S a.toInt).tmod (wrapInt (declared W) S b.toInt)
          [ZMOD 2 ^ declared W] :=
            (hqm.mul (Bits.wrapInt_modEq (declared W) S b.toInt).symm).add_right _
      _ = wrapInt (declared W) S a.toInt := Int.tdiv_mul_add_tmod _ _
      _ ≡ a.toInt [ZMOD 2 ^ declared W] := Bits.wrapInt_modEq _ _ _

/-- **`_BitInt` division is exact**: the truncating quotient and the remainder with the sign of the
dividend, of the converted operands and reduced into the result type. -/
theorem divide_remainder_exact (ha : a.Valid) (hb : b.Valid) (hW : W + 63 < 2 ^ 32)
    (h0 : (b.withType W S).isZero = false) :
    (∃ q r, DividesAt a b W S q r) ∧
      (a.withType W S).magnitude.length = (b.withType W S).magnitude.length ∧
      0 < Limbs.val (b.withType W S).magnitude ∧
      ∀ ua ub : List (BitVec 64), ua.length = ub.length → 0 < Limbs.val ub →
        NoBitLost ua ub ∧ udivmodAfter ua ub (64 * ua.length) = udivmod ua ub := by
  have hlen : (a.withType W S).magnitude.length = (b.withType W S).magnitude.length := by
    rw [magnitude_length, magnitude_length, withType_length, withType_length]
  have hpos : 0 < Limbs.val (b.withType W S).magnitude := by
    rw [withType, Valid.val_magnitude (valid_convertTo b S hW), Int.natAbs_pos,
      toInt_convertTo hb S hW]
    exact withType_isZero hb hW h0
  refine ⟨dividesAt ha hb hW h0, hlen, hpos, ?_⟩
  intro ua ub hl hub
  exact ⟨noBitLost hl hub, udivmodAfter_all hl⟩

/-- The theorem at the quotient that does not fit: the least signed value of sixteen bits by minus
one. -/
theorem divide_remainder_exact_least :
    (∃ q r, DividesAt (fromI64 (BitVec.ofInt 64 (-32768)) 16 true)
        (fromI64 (BitVec.ofInt 64 (-1)) 16 true) 16 true q r) ∧
      ((fromI64 (BitVec.ofInt 64 (-32768)) 16 true).withType 16 true).magnitude.length =
        ((fromI64 (BitVec.ofInt 64 (-1)) 16 true).withType 16 true).magnitude.length ∧
      0 < Limbs.val ((fromI64 (BitVec.ofInt 64 (-1)) 16 true).withType 16 true).magnitude ∧
      ∀ ua ub : List (BitVec 64), ua.length = ub.length → 0 < Limbs.val ub →
        NoBitLost ua ub ∧ udivmodAfter ua ub (64 * ua.length) = udivmod ua ub :=
  divide_remainder_exact (valid_convertTo _ true (by decide)) (valid_convertTo _ true (by decide))
    (by decide) (by decide)

end Exact

end DssPrime.BitIntValue
