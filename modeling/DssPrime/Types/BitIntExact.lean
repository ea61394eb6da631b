import Mathlib
import DssPrime.Types.BitIntRepr

/-!
# `_BitInt` arithmetic is modular arithmetic

Every operation converts its operands to the result type, computes on whole limbs and
wraps.  The loops are exact modulo the whole limbs, and the width never exceeds them, so
each result is the integer result reduced into the range of the type.

A right shift is the one operation that does not commute with the reduction: it shifts the
integer the operand has **after** its conversion to the result type.
-/

namespace DssPrime.BitIntValue

open Bits (wrapInt)

variable {a b : BitIntValue} {W : ℕ} (S : Bool)

theorem declared_le_limbs (hW : W + 63 < 2 ^ 32) : declared W ≤ 64 * limbsFor W := by
  rw [limbsFor_eq hW]
  omega

theorem modEq_of_limbs (hW : W + 63 < 2 ^ 32) {x y k l : ℕ}
    (h : x + 2 ^ (64 * limbsFor W) * k = y + 2 ^ (64 * limbsFor W) * l) :
    (x : ℤ) ≡ y [ZMOD 2 ^ declared W] := by
  have hdvd : (2 : ℤ) ^ declared W ∣ 2 ^ (64 * limbsFor W) := pow_dvd_pow 2 (declared_le_limbs hW)
  have hz : (x : ℤ) + 2 ^ (64 * limbsFor W) * k = y + 2 ^ (64 * limbsFor W) * l := by
    exact_mod_cast h
  rw [Int.modEq_iff_dvd]
  have hxy : (y : ℤ) - x = 2 ^ (64 * limbsFor W) * (k - l) := by
    rw [mul_sub]
    linarith
  rw [hxy]
  exact Dvd.dvd.mul_right hdvd _

theorem modEq_of_mod_limbs (hW : W + 63 < 2 ^ 32) {x y : ℕ}
    (h : x = y % 2 ^ (64 * limbsFor W)) : (x : ℤ) ≡ y [ZMOD 2 ^ declared W] := by
  have hmod := Nat.mod_add_div y (2 ^ (64 * limbsFor W))
  rw [← h] at hmod
  exact modEq_of_limbs hW (l := 0) hmod

theorem val_withType_modEq (ha : a.Valid) (hW : W + 63 < 2 ^ 32) :
    (Limbs.val (a.withType W S).limbs : ℤ) ≡ a.toInt [ZMOD 2 ^ declared W] := by
  have hconv : wrapInt (declared W) S (Limbs.val (a.withType W S).limbs) =
      wrapInt (declared W) S a.toInt := toInt_convertTo ha S hW
  have hself := Bits.wrapInt_modEq (declared W) S (Limbs.val (a.withType W S).limbs)
  rw [hconv] at hself
  exact hself.symm.trans (Bits.wrapInt_modEq (declared W) S a.toInt)

theorem toInt_add (ha : a.Valid) (hb : b.Valid) (hW : W + 63 < 2 ^ 32) :
    (add a b W S).toInt = wrapInt (declared W) S (a.toInt + b.toInt) := by
  have hlen : (a.withType W S).limbs.length = (b.withType W S).limbs.length := by
    rw [withType_length, withType_length]
  have hval := (Limbs.addCarry_val hlen (c := 0#64) (Nat.zero_le 1)).1
  rw [withType_length] at hval
  rw [add, toInt_ofLimbs _ S hW]
  apply Bits.wrapInt_congr
  have hsum := modEq_of_limbs hW (x := Limbs.val (Limbs.addCarry _ _ 0#64).1) (l := 0) hval
  refine hsum.trans ?_
  push_cast
  simpa using (val_withType_modEq S ha hW).add (val_withType_modEq S hb hW)

theorem toInt_sub (ha : a.Valid) (hb : b.Valid) (hW : W + 63 < 2 ^ 32) :
    (sub a b W S).toInt = wrapInt (declared W) S (a.toInt - b.toInt) := by
  have hlen : (a.withType W S).limbs.length = (b.withType W S).limbs.length := by
    rw [withType_length, withType_length]
  have hval := (Limbs.subBorrow_val hlen (c := 0#64) (Nat.zero_le 1)).1
  rw [withType_length] at hval
  rw [sub, toInt_ofLimbs _ S hW]
  apply Bits.wrapInt_congr
  have hsum := modEq_of_limbs hW (k := 0) hval
  push_cast at hsum
  have hdiff := (hsum.sub (val_withType_modEq S hb hW)).trans
    ((val_withType_modEq S ha hW).sub_right _)
  simpa using hdiff

theorem toInt_mul (ha : a.Valid) (hb : b.Valid) (hW : W + 63 < 2 ^ 32) :
    (mul a b W S).toInt = wrapInt (declared W) S (a.toInt * b.toInt) := by
  have hla := withType_length a (W := W) S
  have hlb := withType_length b (W := W) S
  have hrows := Limbs.mulRows_val (a.withType W S).limbs (b.withType W S).limbs
    (List.replicate (2 * limbsFor W) 0#64) (by rw [hla, hlb, List.length_replicate]; omega)
  rw [hlb, Limbs.val_replicate_zero, Nat.zero_add] at hrows
  rw [mul, toInt_ofLimbs _ S hW]
  apply Bits.wrapInt_congr
  -- the low half of the running product is all that is kept
  have hres : ∀ ps : List (BitVec 64), limbsFor W ≤ ps.length →
      Limbs.val (resize ps (limbsFor W) 0#64) = Limbs.val ps % 2 ^ (64 * limbsFor W) := by
    intro ps hps
    rw [resize, Nat.sub_eq_zero_of_le hps, List.replicate_zero, List.append_nil, Limbs.val_take]
  simp only [hla]
  rw [hres _ (by rw [Limbs.mulRows_length, List.length_replicate]; omega), hrows]
  refine (modEq_of_mod_limbs hW rfl).trans ?_
  push_cast
  exact (val_withType_modEq S ha hW).mul (val_withType_modEq S hb hW)

theorem valid_fromU64 (x : BitVec 64) (hW : W + 63 < 2 ^ 32) : (fromU64 x W S).Valid :=
  valid_convertTo _ S hW

theorem toInt_fromU64_zero (hW : W + 63 < 2 ^ 32) : (fromU64 0#64 W S).toInt = 0 := by
  have hseed : Valid ⟨[0#64], 64, false⟩ := by
    refine ⟨by decide, by decide, ?_⟩
    intro i hi hi'
    simp only [List.length_singleton] at hi hi'
    omega
  rw [fromU64, toInt_convertTo hseed S hW]
  have hz : toInt ⟨[0#64], 64, false⟩ = 0 := by decide
  rw [hz]
  unfold wrapInt
  cases S <;> simp

theorem toInt_neg (ha : a.Valid) (hW : W + 63 < 2 ^ 32) :
    (neg a W S).toInt = wrapInt (declared W) S (-a.toInt) := by
  rw [neg, toInt_sub S (valid_fromU64 S _ hW) ha hW, toInt_fromU64_zero S hW, zero_sub]

theorem testBit_withType (ha : a.Valid) (hW : W + 63 < 2 ^ 32) {i : ℕ} (hi : i < declared W) :
    (Limbs.val (a.withType W S).limbs).testBit i = a.toInt.testBit i :=
  Bits.testBit_of_modEq (val_withType_modEq S ha hW) hi

theorem toInt_bitwise (ha : a.Valid) (hb : b.Valid) (hW : W + 63 < 2 ^ 32) {which : ℕ}
    {f : ℤ → ℤ → ℤ} {g : Bool → Bool → Bool}
    (hf : ∀ x y i, (f x y).testBit i = g (x.testBit i) (y.testBit i))
    (hg : ∀ x y j, (bitwiseLimb which x y).getLsbD j = g (x.getLsbD j) (y.getLsbD j)) :
    (bitwise a b W S which).toInt = wrapInt (declared W) S (f a.toInt b.toInt) := by
  have hla := withType_length a (W := W) S
  have hlb := withType_length b (W := W) S
  rw [bitwise, toInt_ofLimbs _ S hW]
  apply Bits.wrapInt_eq_of_testBit
  intro i hi
  have hin : i / 64 < limbsFor W := by have := declared_le_limbs hW; omega
  have hget : (List.zipWith (bitwiseLimb which) (a.withType W S).limbs
      (b.withType W S).limbs).getD (i / 64) 0 =
      bitwiseLimb which ((a.withType W S).limbs.getD (i / 64) 0)
        ((b.withType W S).limbs.getD (i / 64) 0) := by
    have hia : i / 64 < (a.withType W S).limbs.length := by rw [hla]; exact hin
    have hib : i / 64 < (b.withType W S).limbs.length := by rw [hlb]; exact hin
    simp [List.getD_eq_getElem?_getD, hia, hib]
  rw [Bits.testBit_natCast, Limbs.testBit_val, hget, hg, ← Limbs.testBit_val,
    ← Limbs.testBit_val, testBit_withType S ha hW hi, testBit_withType S hb hW hi, hf]

theorem toInt_bitAnd (ha : a.Valid) (hb : b.Valid) (hW : W + 63 < 2 ^ 32) :
    (bitAnd a b W S).toInt = wrapInt (declared W) S (Int.land a.toInt b.toInt) :=
  toInt_bitwise S ha hb hW Int.testBit_land fun _ _ _ => BitVec.getLsbD_and

theorem toInt_bitOr (ha : a.Valid) (hb : b.Valid) (hW : W + 63 < 2 ^ 32) :
    (bitOr a b W S).toInt = wrapInt (declared W) S (Int.lor a.toInt b.toInt) :=
  toInt_bitwise S ha hb hW Int.testBit_lor fun _ _ _ => BitVec.getLsbD_or

theorem toInt_bitXor (ha : a.Valid) (hb : b.Valid) (hW : W + 63 < 2 ^ 32) :
    (bitXor a b W S).toInt = wrapInt (declared W) S (Int.xor a.toInt b.toInt) :=
  toInt_bitwise S ha hb hW Int.testBit_lxor fun _ _ _ => BitVec.getLsbD_xor

theorem toInt_bitNot (ha : a.Valid) (hW : W + 63 < 2 ^ 32) :
    (bitNot a W S).toInt = wrapInt (declared W) S (Int.lnot a.toInt) := by
  have hla := withType_length a (W := W) S
  rw [bitNot, toInt_wrapTo S hW (by rw [List.length_map, hla])]
  apply Bits.wrapInt_eq_of_testBit
  intro i hi
  have hin : i / 64 < limbsFor W := by have := declared_le_limbs hW; omega
  have hget : ((a.withType W S).limbs.map (~~~ ·)).getD (i / 64) 0 =
      ~~~((a.withType W S).limbs.getD (i / 64) 0) := by
    have hia : i / 64 < (a.withType W S).limbs.length := by rw [hla]; exact hin
    simp [List.getD_eq_getElem?_getD, hia]
  have hj : i % 64 < 64 := Nat.mod_lt _ (by decide)
  rw [Bits.testBit_natCast, Limbs.testBit_val, hget, BitVec.getLsbD_not, ← Limbs.testBit_val,
    testBit_withType S ha hW hi, Int.testBit_lnot, decide_eq_true hj, Bool.true_and]

/-- What the left shift writes at the place of a limb. -/
def shlLow (limbs : List (BitVec 64)) (bs i : ℕ) : BitVec 64 :=
  if bs = 0 then limbs.getD i 0#64 else limbs.getD i 0#64 <<< bs

/-- What the left shift writes one limb further up. -/
def shlHigh (limbs : List (BitVec 64)) (bs i : ℕ) : BitVec 64 :=
  if bs = 0 then 0#64 else limbs.getD i 0#64 >>> (64 - bs)

theorem getD_modify {out : List (BitVec 64)} {k : ℕ} (hk : k < out.length) (d : ℕ)
    (f : BitVec 64 → BitVec 64) :
    (out.modify d f).getD k 0#64 = if d = k then f (out.getD k 0#64) else out.getD k 0#64 := by
  simp only [List.getD_eq_getElem?_getD, List.getElem?_modify, List.getElem?_eq_getElem hk]
  split <;> rfl

theorem getD_shlStep (limbs : List (BitVec 64)) (ws bs i : ℕ) {out : List (BitVec 64)} {k : ℕ}
    (hk : k < out.length) :
    (shlStep limbs ws bs out.length out i).getD k 0#64 =
      out.getD k 0#64 ||| (if i + ws = k then shlLow limbs bs i else 0#64) |||
        (if i + (ws + 1) = k then shlHigh limbs bs i else 0#64) := by
  unfold shlStep shlLow shlHigh
  simp only
  by_cases hdst : i + ws < out.length
  · rw [if_pos hdst]
    by_cases hover : bs ≠ 0 ∧ i + ws + 1 < out.length
    · rw [if_pos hover, getD_modify (by rw [List.length_modify]; exact hk), getD_modify hk,
        if_neg hover.1, if_neg hover.1]
      by_cases h1 : i + ws = k
      · simp [h1, ← Nat.add_assoc]
      · by_cases h2 : i + ws + 1 = k <;> simp [h1, h2, ← Nat.add_assoc]
    · rw [if_neg hover, getD_modify hk]
      -- there is nothing to carry over, or no limb to carry it to
      have hhigh : (if i + (ws + 1) = k then
          (if bs = 0 then 0#64 else limbs.getD i 0#64 >>> (64 - bs)) else 0#64) = 0#64 := by
        by_cases hbs : bs = 0
        · simp [hbs]
        · rw [if_neg (by intro h; exact hover ⟨hbs, by omega⟩)]
      rw [hhigh, BitVec.or_zero]
      by_cases h1 : i + ws = k <;> simp [h1]
  · rw [if_neg hdst, if_neg (by omega), if_neg (by omega), BitVec.or_zero, BitVec.or_zero]

theorem shlStep_length (limbs : List (BitVec 64)) (ws bs n i : ℕ) (out : List (BitVec 64)) :
    (shlStep limbs ws bs n out i).length = out.length := by
  unfold shlStep
  simp only
  split
  · split <;> simp
  · rfl

theorem or_turn (F : ℕ → BitVec 64) (s k m : ℕ) :
    (if s ≤ k ∧ k - s < m + 1 then F (k - s) else 0#64) =
      (if s ≤ k ∧ k - s < m then F (k - s) else 0#64) ||| (if m + s = k then F m else 0#64) := by
  by_cases h : m + s = k
  · subst h
    simp
  · have hiff : (s ≤ k ∧ k - s < m + 1) ↔ (s ≤ k ∧ k - s < m) := by omega
    simp only [hiff, h, if_false, BitVec.or_zero]

theorem shlBits_turns (limbs : List (BitVec 64)) (ws bs m : ℕ) :
    ((List.range m).foldl (shlStep limbs ws bs limbs.length)
        (List.replicate limbs.length 0#64)).length = limbs.length ∧
      ∀ k < limbs.length, ((List.range m).foldl (shlStep limbs ws bs limbs.length)
          (List.replicate limbs.length 0#64)).getD k 0#64 =
        (if ws ≤ k ∧ k - ws < m then shlLow limbs bs (k - ws) else 0#64) |||
        (if ws + 1 ≤ k ∧ k - (ws + 1) < m then shlHigh limbs bs (k - (ws + 1)) else 0#64) := by
  induction m with
  | zero =>
    refine ⟨by simp, ?_⟩
    intro k hk
    simp [List.getD_eq_getElem?_getD, hk]
  | succ m ih =>
    obtain ⟨hlen, hget⟩ := ih
    simp only [List.range_succ, List.foldl_append, List.foldl_cons, List.foldl_nil]
    generalize (List.range m).foldl (shlStep limbs ws bs limbs.length)
      (List.replicate limbs.length 0#64) = out at hlen hget ⊢
    refine ⟨by rw [shlStep_length, hlen], ?_⟩
    intro k hk
    rw [← hlen, getD_shlStep limbs ws bs m (by omega), hget k hk,
      or_turn (shlLow limbs bs), or_turn (shlHigh limbs bs)]
    ac_rfl

theorem shlBits_length (limbs : List (BitVec 64)) (c : ℕ) :
    (shlBits limbs c).length = limbs.length := by
  unfold shlBits
  split
  · rfl
  · exact (shlBits_turns limbs _ _ _).1

theorem getD_shlBits (limbs : List (BitVec 64)) (c : ℕ) {k : ℕ} (hk : k < limbs.length) :
    (shlBits limbs c).getD k 0#64 = Limbs.shlLimb (fun i => limbs.getD i 0#64) c k := by
  unfold shlBits
  by_cases hc : c = 0
  · subst hc
    simp [Limbs.shlLimb]
  · rw [if_neg hc]
    simp only
    rw [(shlBits_turns limbs _ _ _).2 k hk]
    have i1 : (c / 64 ≤ k ∧ k - c / 64 < limbs.length) ↔ c / 64 ≤ k := by omega
    have i2 : (c / 64 + 1 ≤ k ∧ k - (c / 64 + 1) < limbs.length) ↔ c / 64 + 1 ≤ k := by omega
    simp only [i1, i2]
    simp only [Limbs.shlLimb, shlLow, shlHigh, Nat.sub_add_eq]
    by_cases hbs : c % 64 = 0
    · simp [hbs]
    · simp only [hbs, if_false]
      by_cases h1 : c / 64 ≤ k <;> by_cases h2 : c / 64 + 1 ≤ k <;> simp only [h1, h2, if_true,
        if_false, BitVec.zero_shiftLeft, BitVec.zero_ushiftRight]

/-- **The left-shift loop multiplies by a power of two** modulo the whole limbs. -/
theorem val_shlBits (limbs : List (BitVec 64)) (c : ℕ) :
    Limbs.val (shlBits limbs c) = (2 ^ c * Limbs.val limbs) % 2 ^ (64 * limbs.length) := by
  apply Nat.eq_of_testBit_eq
  intro i
  rw [Nat.testBit_mod_two_pow, Nat.testBit_two_pow_mul]
  by_cases hi : i < 64 * limbs.length
  · have hj : i % 64 < 64 := Nat.mod_lt _ (by decide)
    have hsplit : 64 * (i / 64) + i % 64 = i := Nat.div_add_mod i 64
    rw [Limbs.testBit_val]
    have hget := getD_shlBits limbs c (k := i / 64) (by omega)
    rw [show (0 : BitVec 64) = 0#64 from rfl, hget, Limbs.getLsbD_shlLimb _ _ _ hj, hsplit,
      decide_eq_true hi, Bool.true_and, Limbs.testBit_val]
    rfl
  · rw [Limbs.testBit_val_of_le (by rw [shlBits_length]; omega)]
    simp [hi]

theorem toInt_shiftLeft (ha : a.Valid) (hW : W + 63 < 2 ^ 32) {count : ℕ} (hc : count < W) :
    (shiftLeft a count W S).toInt = wrapInt (declared W) S (a.toInt * 2 ^ count) := by
  have hla := withType_length a (W := W) S
  unfold shiftLeft
  simp only
  rw [if_neg (by omega), toInt_wrapTo S hW (by rw [shlBits_length, hla])]
  apply Bits.wrapInt_congr
  have hval := val_shlBits (a.withType W S).limbs count
  rw [hla] at hval
  refine (modEq_of_mod_limbs hW hval).trans ?_
  push_cast
  rw [mul_comm]
  exact (val_withType_modEq S ha hW).mul_right _

theorem shrBits_turns (limbs : List (BitVec 64)) (fill : BitVec 64) (ws bs : ℕ) {m : ℕ}
    (hm : m ≤ limbs.length) :
    ((List.range m).foldl (shrStep limbs fill ws bs limbs.length)
        (List.replicate limbs.length fill)).length = limbs.length ∧
      ∀ k < limbs.length, ((List.range m).foldl (shrStep limbs fill ws bs limbs.length)
          (List.replicate limbs.length fill)).getD k 0#64 =
        if k + ws < m then
          (if bs ≠ 0 then (limbs.getD (k + ws) 0#64 >>> bs) |||
              ((if k + ws + 1 < limbs.length then limbs.getD (k + ws + 1) 0#64 else fill) <<<
                (64 - bs))
            else limbs.getD (k + ws) 0#64)
        else fill := by
  induction m with
  | zero =>
    refine ⟨by simp, ?_⟩
    intro k hk
    simp [List.getD_eq_getElem?_getD, hk]
  | succ m ih =>
    obtain ⟨hlen, hget⟩ := ih (by omega)
    simp only [List.range_succ, List.foldl_append, List.foldl_cons, List.foldl_nil]
    generalize (List.range m).foldl (shrStep limbs fill ws bs limbs.length)
      (List.replicate limbs.length fill) = out at hlen hget ⊢
    unfold shrStep
    by_cases hskip : m < ws
    · -- the limbs below the shift are dropped
      rw [if_pos hskip]
      refine ⟨hlen, ?_⟩
      intro k hk
      rw [hget k hk, if_neg (by omega), if_neg (by omega)]
    · rw [if_neg hskip]
      refine ⟨by rw [List.length_set, hlen], ?_⟩
      intro k hk
      by_cases hk' : m - ws = k
      · have hkm : k + ws = m := by omega
        rw [hk', getD_set_self (show k < out.length by omega), hkm, if_pos (Nat.lt_succ_self m)]
      · have hne : (out.set (m - ws) (if bs ≠ 0 then limbs.getD m 0#64 >>> bs |||
              (if m + 1 < limbs.length then limbs.getD (m + 1) 0#64 else fill) <<< (64 - bs)
            else limbs.getD m 0#64)).getD k 0#64 = out.getD k 0#64 := by
          rw [List.getD_eq_getElem?_getD, List.getElem?_set_ne hk', ← List.getD_eq_getElem?_getD]
        have hiff : k + ws < m + 1 ↔ k + ws < m := by omega
        rw [hne, hget k hk]
        simp only [hiff]

theorem shrBits_length (v : BitIntValue) (c : ℕ) (arith : Bool) :
    (shrBits v c arith).length = v.limbs.length := by
  unfold shrBits
  split
  · rfl
  · exact (shrBits_turns v.limbs _ _ _ le_rfl).1

/-- **The right-shift loop drops the low bits** and lets the fill in from above. -/
theorem testBit_shrBits (v : BitIntValue) (c : ℕ) (arith : Bool) {i : ℕ}
    (hi : i < 64 * v.limbs.length) (hc : c < 64 * v.limbs.length) :
    (Limbs.val (shrBits v c arith)).testBit i =
      if i + c < 64 * v.limbs.length then (Limbs.val v.limbs).testBit (i + c)
      else (arith && v.isNegative) := by
  unfold shrBits
  by_cases h0 : c = 0
  · subst h0
    simp [hi]
  · rw [if_neg h0]
    simp only
    have hfill : ∀ j < 64, (if arith && v.isNegative then BitVec.allOnes 64 else 0#64).getLsbD j =
        (arith && v.isNegative) := by
      intro j hj
      cases (arith && v.isNegative) with
      | false => exact BitVec.getLsbD_zero
      | true => rw [if_pos rfl, BitVec.getLsbD_allOnes]; exact decide_eq_true hj
    generalize (if arith && v.isNegative then BitVec.allOnes 64 else 0#64) = fill at hfill ⊢
    have hj : i % 64 < 64 := Nat.mod_lt _ (by decide)
    have hsplit : 64 * (i / 64) + i % 64 = i := Nat.div_add_mod i 64
    rw [Limbs.testBit_val]
    rw [show (0 : BitVec 64) = 0#64 from rfl,
      (shrBits_turns v.limbs fill (c / 64) (c % 64) le_rfl).2 (i / 64) (by omega)]
    by_cases hin : i / 64 + c / 64 < v.limbs.length
    · -- a limb of the source: the funnel of two limbs, the fill standing above the last
      rw [if_pos hin]
      have hfun := Limbs.getLsbD_shrLimb
        (fun k => if k < v.limbs.length then v.limbs.getD k 0#64 else fill) c (i / 64) hj
      rw [hsplit] at hfun
      have hsame : (if c % 64 ≠ 0 then (v.limbs.getD (i / 64 + c / 64) 0#64 >>> (c % 64)) |||
            ((if i / 64 + c / 64 + 1 < v.limbs.length then
              v.limbs.getD (i / 64 + c / 64 + 1) 0#64 else fill) <<< (64 - c % 64))
          else v.limbs.getD (i / 64 + c / 64) 0#64) =
          Limbs.shrLimb (fun k => if k < v.limbs.length then v.limbs.getD k 0#64 else fill) c
            (i / 64) := by
        simp only [Limbs.shrLimb, hin, if_true]
        by_cases hbs : c % 64 = 0 <;> simp [hbs]
      rw [hsame, hfun]
      by_cases hend : i + c < 64 * v.limbs.length
      · rw [if_pos hend, if_pos (by omega), Limbs.testBit_val]
        rfl
      · rw [if_neg hend, if_neg (by omega), hfill _ (Nat.mod_lt _ (by decide))]
    · rw [if_neg hin, if_neg (by omega), hfill _ hj]

/-- **The right shift divides the converted integer**, rounding down. -/
theorem toInt_shiftRight (ha : a.Valid) (hW : W + 63 < 2 ^ 32) {count : ℕ} (hc : count < W) :
    (shiftRight a count W S).toInt =
      wrapInt (declared W) S (wrapInt (declared W) S a.toInt / 2 ^ count) := by
  have hla := withType_length a (W := W) S
  have hle := declared_le_limbs hW
  have hdec : declared W = W := declared_eq (by omega)
  have hvalid : (a.withType W S).Valid := valid_convertTo a S hW
  have hS : (a.withType W S).isSigned = S := rfl
  unfold shiftRight
  simp only
  rw [if_neg (by omega), toInt_wrapTo S hW (by rw [shrBits_length, hla]),
    ← toInt_convertTo ha S hW]
  apply Bits.wrapInt_eq_of_testBit
  intro i hi
  rw [Bits.testBit_natCast, testBit_shrBits _ _ _ (by omega) (by omega),
    Bits.testBit_ediv_two_pow]
  have hbit := hvalid.testBit_toInt (i + count)
  rw [withType] at hbit hla ⊢
  rw [hbit]
  have hneg : (S && (a.convertTo W S).isNegative) = (a.convertTo W S).isNegative := by
    have hS' : (a.convertTo W S).isSigned = S := rfl
    rw [isNegative, hS', ← Bool.and_assoc, Bool.and_self]
  rw [hneg]

/-- Two's complements below `M` with equal signs are ordered as the integers they stand for;
with different signs the sign decides. -/
theorem compare_signed {S na nb : Bool} {x y M : ℕ} (hx : x < M) (hy : y < M)
    (hna : S = false → na = false) (hnb : S = false → nb = false) :
    (if S && (na != nb) then (if na then Ordering.lt else .gt) else Ord.compare x y) =
      Ord.compare ((x : ℤ) - if na then (M : ℤ) else 0) ((y : ℤ) - if nb then (M : ℤ) else 0) := by
  have hsame : ∀ d : ℤ, Ord.compare x y = Ord.compare ((x : ℤ) - d) ((y : ℤ) - d) := by
    intro d
    simp [Ord.compare, compareOfLessAndEq]
  have hS : na ≠ nb → S = true := by
    intro hne
    cases S with
    | true => rfl
    | false => exact absurd ((hna rfl).trans (hnb rfl).symm) hne
  cases na with
  | false =>
    cases nb with
    | false => simpa using hsame 0
    | true =>
      rw [hS (by decide), eq_comm]
      simp only [Ord.compare, compareOfLessAndEq]
      rw [if_neg (by simp; omega), if_neg (by simp; omega)]
      rfl
  | true =>
    cases nb with
    | false =>
      rw [hS (by decide), eq_comm]
      simp only [Ord.compare, compareOfLessAndEq]
      rw [if_pos (by simp; omega)]
      rfl
    | true => simpa using hsame M

theorem isNegative_convertTo_false (v : BitIntValue) (hS : S = false) :
    (v.convertTo W S).isNegative = false := by
  subst hS
  rfl

/-- **The comparison is the order of the converted integers.** -/
theorem compare_eq (ha : a.Valid) (hb : b.Valid) (hW : W + 63 < 2 ^ 32) :
    compare a b W S = Ord.compare (wrapInt (declared W) S a.toInt)
      (wrapInt (declared W) S b.toInt) := by
  have hla : (a.convertTo W S).limbs.length = limbsFor W := withType_length a S
  have hlb : (b.convertTo W S).limbs.length = limbsFor W := withType_length b S
  have hia := (valid_convertTo a S hW).toInt_eq
  have hib := (valid_convertTo b S hW).toInt_eq
  have hlta := Limbs.val_lt (a.convertTo W S).limbs
  have hltb := Limbs.val_lt (b.convertTo W S).limbs
  rw [hla] at hia hlta
  rw [hlb] at hib hltb
  have hu : ucompare (a.convertTo W S).limbs (b.convertTo W S).limbs =
      Ord.compare (Limbs.val (a.convertTo W S).limbs) (Limbs.val (b.convertTo W S).limbs) := by
    rw [ucompare, Limbs.cmpBelow_eq, hla, hlb, if_neg (lt_irrefl _),
      List.take_of_length_le (by rw [hla]), List.take_of_length_le (by rw [hlb])]
  unfold compare
  simp only [withType]
  rw [← toInt_convertTo ha S hW, ← toInt_convertTo hb S hW, hia, hib, hu]
  have hsigned := compare_signed hlta hltb (isNegative_convertTo_false (W := W) S a)
    (isNegative_convertTo_false (W := W) S b)
  push_cast at hsigned
  exact hsigned

/-- The values built by any sequence of operations, at widths whose rounding up to whole
limbs does not wrap. -/
inductive Built : BitIntValue → Prop
  | empty : Built empty
  | ofLimbs (ls : List (BitVec 64)) {W : ℕ} (S : Bool) (hW : W + 63 < 2 ^ 32) :
      Built (ofLimbs ls W S)
  | fromI64 (x : BitVec 64) {W : ℕ} (S : Bool) (hW : W + 63 < 2 ^ 32) : Built (fromI64 x W S)
  | fromU64 (x : BitVec 64) {W : ℕ} (S : Bool) (hW : W + 63 < 2 ^ 32) : Built (fromU64 x W S)
  | fromLiteralMagnitude (m : List (BitVec 64)) (S : Bool)
      (hW : literalWidth m S + 63 < 2 ^ 32) : Built (fromLiteralMagnitude m S)
  | fromLimbBytes (bytes : List (BitVec 8)) {W : ℕ} (S : Bool) (hW : W + 63 < 2 ^ 32) :
      Built (fromLimbBytes bytes W S)
  | wrapTo {v : BitIntValue} (hv : Built v) {W : ℕ} (S : Bool) (hW : W + 63 < 2 ^ 32) :
      Built (v.wrapTo W S)
  | convertTo {v : BitIntValue} (hv : Built v) {W : ℕ} (S : Bool) (hW : W + 63 < 2 ^ 32) :
      Built (v.convertTo W S)
  | withType {v : BitIntValue} (hv : Built v) {W : ℕ} (S : Bool) (hW : W + 63 < 2 ^ 32) :
      Built (v.withType W S)
  | add {a b : BitIntValue} (ha : Built a) (hb : Built b) {W : ℕ} (S : Bool)
      (hW : W + 63 < 2 ^ 32) : Built (add a b W S)
  | sub {a b : BitIntValue} (ha : Built a) (hb : Built b) {W : ℕ} (S : Bool)
      (hW : W + 63 < 2 ^ 32) : Built (sub a b W S)
  | mul {a b : BitIntValue} (ha : Built a) (hb : Built b) {W : ℕ} (S : Bool)
      (hW : W + 63 < 2 ^ 32) : Built (mul a b W S)
  | divide {a b v : BitIntValue} (ha : Built a) (hb : Built b) {W : ℕ} (S : Bool)
      (hW : W + 63 < 2 ^ 32) (h : divide a b W S = some v) : Built v
  | remainder {a b v : BitIntValue} (ha : Built a) (hb : Built b) {W : ℕ} (S : Bool)
      (hW : W + 63 < 2 ^ 32) (h : remainder a b W S = some v) : Built v
  | bitAnd {a b : BitIntValue} (ha : Built a) (hb : Built b) {W : ℕ} (S : Bool)
      (hW : W + 63 < 2 ^ 32) : Built (bitAnd a b W S)
  | bitOr {a b : BitIntValue} (ha : Built a) (hb : Built b) {W : ℕ} (S : Bool)
      (hW : W + 63 < 2 ^ 32) : Built (bitOr a b W S)
  | bitXor {a b : BitIntValue} (ha : Built a) (hb : Built b) {W : ℕ} (S : Bool)
      (hW : W + 63 < 2 ^ 32) : Built (bitXor a b W S)
  | shiftLeft {a : BitIntValue} (ha : Built a) (count : ℕ) {W : ℕ} (S : Bool)
      (hW : W + 63 < 2 ^ 32) : Built (shiftLeft a count W S)
  | shiftRight {a : BitIntValue} (ha : Built a) (count : ℕ) {W : ℕ} (S : Bool)
      (hW : W + 63 < 2 ^ 32) : Built (shiftRight a count W S)
  | neg {a : BitIntValue} (ha : Built a) {W : ℕ} (S : Bool) (hW : W + 63 < 2 ^ 32) :
      Built (neg a W S)
  | bitNot {a : BitIntValue} (ha : Built a) {W : ℕ} (S : Bool) (hW : W + 63 < 2 ^ 32) :
      Built (bitNot a W S)

theorem valid_of_divRem {v : BitIntValue} {wantRem : Bool} (hW : W + 63 < 2 ^ 32)
    (h : divRem a b W S wantRem = some v) : v.Valid := by
  have hsigned : ∀ (negResult : Bool) (mag : List (BitVec 64)),
      (if negResult then neg (ofLimbs mag W false) W S else ofLimbs mag W S).Valid := by
    intro negResult mag
    cases negResult with
    | true => exact valid_ofLimbs _ S hW
    | false => exact valid_ofLimbs mag S hW
  unfold divRem at h
  simp only at h
  split at h
  · cases h
  · cases h
    exact hsigned _ _

/-- **The representation invariant holds of every value ever produced.** -/
theorem Built.valid {v : BitIntValue} (h : Built v) : v.Valid := by
  cases h with
  | empty =>
    refine ⟨by decide, by decide, ?_⟩
    intro i hi hi'
    rw [getBit_eq, padding_eq, signBitSet_eq (by decide)]
    simp [BitIntValue.empty]
  | ofLimbs ls S hW => exact valid_ofLimbs ls S hW
  | fromI64 x S hW => exact valid_convertTo _ S hW
  | fromU64 x S hW => exact valid_convertTo _ S hW
  | fromLiteralMagnitude m S hW => exact valid_ofLimbs m S hW
  | fromLimbBytes bytes S hW => exact valid_ofLimbs _ S hW
  | wrapTo hv S hW => exact valid_wrapTo _ S hW
  | convertTo hv S hW => exact valid_convertTo _ S hW
  | withType hv S hW => exact valid_convertTo _ S hW
  | add ha hb S hW => exact valid_ofLimbs _ S hW
  | sub ha hb S hW => exact valid_ofLimbs _ S hW
  | mul ha hb S hW => exact valid_ofLimbs _ S hW
  | divide ha hb S hW h => exact valid_of_divRem S hW h
  | remainder ha hb S hW h => exact valid_of_divRem S hW h
  | bitAnd ha hb S hW => exact valid_ofLimbs _ S hW
  | bitOr ha hb S hW => exact valid_ofLimbs _ S hW
  | bitXor ha hb S hW => exact valid_ofLimbs _ S hW
  | shiftLeft ha count S hW =>
    unfold BitIntValue.shiftLeft
    simp only
    split
    · exact valid_wrapTo _ S hW
    · exact valid_wrapTo _ S hW
  | shiftRight ha count S hW => exact valid_wrapTo _ S hW
  | neg ha S hW => exact valid_ofLimbs _ S hW
  | bitNot ha S hW => exact valid_wrapTo _ S hW

/-- Every operation at the type `(W, S)` yields the integer result reduced into its range;
the right shift works on the integer after its conversion. -/
structure ModularAt (a b : BitIntValue) (W : ℕ) (S : Bool) : Prop where
  convertTo_eq : (a.convertTo W S).toInt = wrapInt W S a.toInt
  withType_eq : (a.withType W S).toInt = wrapInt W S a.toInt
  add_eq : (add a b W S).toInt = wrapInt W S (a.toInt + b.toInt)
  sub_eq : (sub a b W S).toInt = wrapInt W S (a.toInt - b.toInt)
  mul_eq : (mul a b W S).toInt = wrapInt W S (a.toInt * b.toInt)
  neg_eq : (neg a W S).toInt = wrapInt W S (-a.toInt)
  bitNot_eq : (bitNot a W S).toInt = wrapInt W S (Int.lnot a.toInt)
  bitAnd_eq : (bitAnd a b W S).toInt = wrapInt W S (Int.land a.toInt b.toInt)
  bitOr_eq : (bitOr a b W S).toInt = wrapInt W S (Int.lor a.toInt b.toInt)
  bitXor_eq : (bitXor a b W S).toInt = wrapInt W S (Int.xor a.toInt b.toInt)
  shiftLeft_eq : ∀ count < W, (shiftLeft a count W S).toInt = wrapInt W S (a.toInt * 2 ^ count)
  shiftRight_eq : ∀ count < W, (shiftRight a count W S).toInt =
    wrapInt W S (wrapInt W S a.toInt / 2 ^ count)
  compare_eq : compare a b W S = Ord.compare (wrapInt W S a.toInt) (wrapInt W S b.toInt)

/-- **`_BitInt` arithmetic is exact modular arithmetic at every width.** -/
theorem built_modular {a b : BitIntValue} (ha : Built a) (hb : Built b) {W : ℕ} (S : Bool)
    (hW : 1 ≤ W) (hmax : W ≤ 8388608) : a.Valid ∧ b.Valid ∧ ModularAt a b W S := by
  have hva := ha.valid
  have hvb := hb.valid
  have h32 : W + 63 < 2 ^ 32 := by omega
  have hd := declared_eq hW
  refine ⟨hva, hvb, ?_⟩
  constructor
  case convertTo_eq => rw [toInt_convertTo hva S h32, hd]
  case withType_eq => rw [withType, toInt_convertTo hva S h32, hd]
  case add_eq => rw [toInt_add S hva hvb h32, hd]
  case sub_eq => rw [toInt_sub S hva hvb h32, hd]
  case mul_eq => rw [toInt_mul S hva hvb h32, hd]
  case neg_eq => rw [toInt_neg S hva h32, hd]
  case bitNot_eq => rw [toInt_bitNot S hva h32, hd]
  case bitAnd_eq => rw [toInt_bitAnd S hva hvb h32, hd]
  case bitOr_eq => rw [toInt_bitOr S hva hvb h32, hd]
  case bitXor_eq => rw [toInt_bitXor S hva hvb h32, hd]
  case shiftLeft_eq =>
    intro count hcount
    rw [toInt_shiftLeft S hva h32 hcount, hd]
  case shiftRight_eq =>
    intro count hcount
    rw [toInt_shiftRight S hva h32 hcount, hd]
  case compare_eq => rw [compare_eq S hva hvb h32, hd]

/-- The theorem at `256` of sixteen bits and `3` of eight, for a signed result of twelve. -/
theorem built_modular_twelve :
    Valid (fromU64 256#64 16 false) ∧ Valid (fromI64 3#64 8 true) ∧
      ModularAt (fromU64 256#64 16 false) (fromI64 3#64 8 true) 12 true :=
  built_modular (.fromU64 256#64 false (by decide)) (.fromI64 3#64 true (by decide)) true
    (by decide) (by decide)

/-- A right shift is not the reduction of the unconverted operand's shift: `256` shifted
right by four at a width of eight is zero, since `256` converts to zero first. -/
theorem shiftRight_not_of_unconverted :
    ¬ ∀ a : BitIntValue, Built a → ∀ (W : ℕ) (S : Bool), 1 ≤ W → W ≤ 8388608 →
      ∀ count < W, (shiftRight a count W S).toInt = wrapInt W S (a.toInt / 2 ^ count) := by
  intro h
  have hbad := h (fromU64 256#64 16 false) (.fromU64 256#64 false (by decide)) 8 false
    (by decide) (by decide) 4 (by decide)
  revert hbad
  decide

end DssPrime.BitIntValue
