import Mathlib
import DssPrime.Bits.TwosComplement
import DssPrime.Types.BitIntValue

/-!
# The representation of `_BitInt` values

A value denotes an integer, `BitIntValue.toInt`: its low `width` bits read in two's complement or as
a magnitude. `BitIntValue.Valid` is the representation the class promises: as many limbs as the
width needs, and the bits above the width equal to the padding.
-/

namespace DssPrime.BitIntValue

open Bits (wrapInt)

def toInt (v : BitIntValue) : ℤ := wrapInt v.width v.isSigned (Limbs.val v.limbs)

/-- The representation: whole limbs for the width, and the padding above it. -/
structure Valid (v : BitIntValue) : Prop where
  width_pos : 1 ≤ v.width
  length_eq : v.limbs.length = (v.width + 63) / 64
  padding : ∀ i, v.width ≤ i → i < 64 * v.limbs.length →
    getBit v.limbs i = (bitIntPadding v.isSigned v.signBitSet == .ones)

theorem getBit_eq (ls : List (BitVec 64)) (i : ℕ) : getBit ls i = (Limbs.val ls).testBit i := by
  unfold getBit
  split
  · rename_i h
    rw [Limbs.testBit_val_of_le (by omega)]
  · rw [Limbs.getLsbD_eq_shiftRight_and, Limbs.testBit_val]
    rfl

theorem padding_eq (S s : Bool) : (bitIntPadding S s == .ones) = (S && s) := by
  cases S <;> cases s <;> rfl

theorem signBitSet_eq {v : BitIntValue} (h : 1 ≤ v.width) :
    v.signBitSet = (Limbs.val v.limbs).testBit (v.width - 1) := by
  rw [signBitSet, if_neg (by omega), getBit_eq]

theorem getLsbD_signFill (v : BitIntValue) {j : ℕ} (hj : j < 64) :
    v.signFill.getLsbD j = v.isNegative := by
  have hand : (v.isSigned && v.isNegative) = v.isNegative := by
    rw [isNegative, ← Bool.and_assoc, Bool.and_self]
  rw [signFill, hand]
  cases v.isNegative with
  | false => exact BitVec.getLsbD_zero
  | true => rw [if_pos rfl, BitVec.getLsbD_allOnes]; exact decide_eq_true hj

namespace Valid

variable {v : BitIntValue}

theorem width_le (h : v.Valid) : v.width ≤ 64 * v.limbs.length := by
  have := h.length_eq
  omega

theorem testBit_above (h : v.Valid) {i : ℕ} (hi : v.width ≤ i) (hi' : i < 64 * v.limbs.length) :
    (Limbs.val v.limbs).testBit i = v.isNegative := by
  rw [← getBit_eq, h.padding i hi hi', padding_eq]
  rfl

theorem val_eq (h : v.Valid) :
    Limbs.val v.limbs = Limbs.val v.limbs % 2 ^ v.width +
      if v.isNegative then 2 ^ (64 * v.limbs.length) - 2 ^ v.width else 0 := by
  have hle := h.width_le
  have hsplit := Nat.mod_add_div (Limbs.val v.limbs) (2 ^ v.width)
  have hdiv : Limbs.val v.limbs / 2 ^ v.width =
      if v.isNegative then 2 ^ (64 * v.limbs.length - v.width) - 1 else 0 := by
    apply Nat.eq_of_testBit_eq
    intro i
    rw [Nat.testBit_div_two_pow]
    by_cases hi : i + v.width < 64 * v.limbs.length
    · rw [h.testBit_above (by omega) hi]
      have hi' : i < 64 * v.limbs.length - v.width := by omega
      cases v.isNegative <;> simp [hi']
    · rw [Limbs.testBit_val_of_le (by omega)]
      have hi' : ¬ i < 64 * v.limbs.length - v.width := by omega
      cases v.isNegative <;> simp [hi']
  rw [hdiv] at hsplit
  cases hn : v.isNegative with
  | false => simpa [hn] using hsplit.symm
  | true =>
    simp only [hn, if_true] at hsplit ⊢
    have hpow : 2 ^ v.width * 2 ^ (64 * v.limbs.length - v.width) = 2 ^ (64 * v.limbs.length) := by
      rw [← pow_add]
      congr 1
      omega
    rw [Nat.mul_sub, hpow, Nat.mul_one] at hsplit
    exact hsplit.symm

/-- **The limbs of a valid value are the two's complement of its integer.** -/
theorem toInt_eq (h : v.Valid) :
    v.toInt = Limbs.val v.limbs - if v.isNegative then (2 : ℤ) ^ (64 * v.limbs.length) else 0 := by
  have hle := h.width_le
  have hval := h.val_eq
  have hpos := h.width_pos
  have hmod : Limbs.val v.limbs % 2 ^ v.width < 2 ^ v.width := Nat.mod_lt _ (Nat.two_pow_pos _)
  have hpow : 2 ^ v.width ≤ 2 ^ (64 * v.limbs.length) := Nat.pow_le_pow_right (by decide) hle
  -- the sign bit decides on which side of half the range the low bits lie
  have hhalf := Bits.two_pow_eq_half hpos
  have hsign := Bits.testBit_pred_iff (Limbs.val v.limbs) hpos
  have hsb := signBitSet_eq hpos
  have hcast : ((2 ^ (64 * v.limbs.length) : ℕ) : ℤ) =
    2 ^ (64 * v.limbs.length) := by push_cast; rfl
  unfold toInt wrapInt
  cases hS : v.isSigned with
  | false =>
    have hn : v.isNegative = false := by simp [isNegative, hS]
    simp only [hn, if_false, Nat.add_zero, Bool.false_eq_true] at hval ⊢
    rw [hval]
    push_cast
    rw [Int.emod_emod_of_dvd _ (dvd_refl _), sub_zero]
  | true =>
    have hn : v.isNegative = (Limbs.val v.limbs).testBit (v.width - 1) := by
      simp [isNegative, hS, hsb]
    simp only [if_true]
    have hb : (Limbs.val v.limbs : ℤ) % ((2 ^ v.width : ℕ) : ℤ) =
        ((Limbs.val v.limbs % 2 ^ v.width : ℕ) : ℤ) := by push_cast; rfl
    rw [Int.bmod, hb]
    have hcast' : ((2 ^ v.width : ℕ) : ℤ) = 2 * ((2 ^ (v.width - 1) : ℕ) : ℤ) := by
      rw [hhalf]; push_cast; ring
    cases hneg : v.isNegative with
    | false =>
      have hlow : ¬ 2 ^ (v.width - 1) ≤ Limbs.val v.limbs % 2 ^ v.width := by
        rw [← hsign, ← hn, hneg]; decide
      rw [hneg] at hval
      rw [if_pos (by omega)]
      simp only [if_false, Nat.add_zero, Bool.false_eq_true] at hval ⊢
      omega
    | true =>
      have hhigh : 2 ^ (v.width - 1) ≤ Limbs.val v.limbs % 2 ^ v.width := by
        rw [← hsign, ← hn, hneg]
      rw [hneg] at hval
      rw [if_neg (by omega)]
      simp only [if_true] at hval ⊢
      omega

theorem toInt_modEq (h : v.Valid) :
    (Limbs.val v.limbs : ℤ) ≡ v.toInt [ZMOD 2 ^ (64 * v.limbs.length)] := by
  rw [h.toInt_eq]
  cases v.isNegative with
  | false => simp
  | true => simp [Int.modEq_iff_dvd]

theorem testBit_toInt (h : v.Valid) (i : ℕ) :
    v.toInt.testBit i =
      if i < 64 * v.limbs.length then (Limbs.val v.limbs).testBit i else v.isNegative := by
  split
  · rename_i hi
    rw [← Bits.testBit_of_modEq h.toInt_modEq hi, Bits.testBit_natCast]
  · rename_i hi
    rw [h.toInt_eq]
    have hlt := Limbs.val_lt v.limbs
    cases v.isNegative with
    | false =>
      simp only [if_false, sub_zero, Bool.false_eq_true]
      rw [Bits.testBit_natCast, Limbs.testBit_val_of_le (by omega)]
    | true =>
      -- a negative integer is the complement of a number below the whole limbs
      have hneg : (Limbs.val v.limbs : ℤ) - 2 ^ (64 * v.limbs.length) =
          Int.negSucc (2 ^ (64 * v.limbs.length) - 1 - Limbs.val v.limbs) := by
        have hcast : ((2 ^ (64 * v.limbs.length) : ℕ) : ℤ) = 2 ^ (64 * v.limbs.length) := by
          push_cast; rfl
        rw [Int.negSucc_eq]
        omega
      have hz : (2 ^ (64 * v.limbs.length) - 1 - Limbs.val v.limbs).testBit i = false := by
        apply Nat.testBit_lt_two_pow
        calc _ < 2 ^ (64 * v.limbs.length) := by omega
          _ ≤ 2 ^ i := Nat.pow_le_pow_right (by decide) (by omega)
      simp only [if_true, hneg, Int.testBit, hz, Bool.not_false]

end Valid

theorem getLsbD_mask {hb j : ℕ} (hhb : hb < 64) :
    ((1#64 <<< hb) - 1#64).getLsbD j = decide (j < hb) := by
  have hpos : 0 < 2 ^ hb := Nat.two_pow_pos _
  have hlt : 2 ^ hb < 2 ^ 64 := Nat.pow_lt_pow_right (by decide) hhb
  have hnat : ((1#64 <<< hb) - 1#64).toNat = 2 ^ hb - 1 := by
    rw [BitVec.toNat_sub, BitVec.toNat_shiftLeft, BitVec.toNat_ofNat, Nat.shiftLeft_eq]
    norm_num
    omega
  rw [BitVec.getLsbD, hnat, Nat.testBit_two_pow_sub_one]

theorem maskTopLimb_length (ls : List (BitVec 64)) (W : ℕ) (S : Bool) :
    (maskTopLimb ls W S).length = ls.length := by
  unfold maskTopLimb
  split
  · rfl
  · simp only
    split
    · rfl
    · rw [List.length_set]

theorem getD_set_self {ls : List (BitVec 64)} {k : ℕ} (hk : k < ls.length) (x d : BitVec 64) :
    (ls.set k x).getD k d = x := by
  rw [List.getD_eq_getElem?_getD, List.getElem?_set_self hk]
  rfl

theorem getLsbD_masked (top : BitVec 64) (S : Bool) {hb j : ℕ} (hhb : hb < 64)
    (hj : j < 64) :
    (if bitIntPadding S (((top >>> (hb - 1)) &&& 1#64) != 0#64) = .ones
        then top ||| ~~~((1#64 <<< hb) - 1#64) else top &&& ((1#64 <<< hb) - 1#64)).getLsbD j =
      if j < hb then top.getLsbD j else (S && top.getLsbD (hb - 1)) := by
  rw [Limbs.getLsbD_eq_shiftRight_and]
  have hpad := padding_eq S (top.getLsbD (hb - 1))
  cases hp : (S && top.getLsbD (hb - 1)) with
  | true =>
    rw [hp, beq_iff_eq] at hpad
    rw [if_pos hpad, BitVec.getLsbD_or, BitVec.getLsbD_not, getLsbD_mask hhb]
    by_cases hlt : j < hb <;> simp [hlt, hj]
  | false =>
    rw [hp] at hpad
    rw [if_neg (by simpa using hpad), BitVec.getLsbD_and, getLsbD_mask hhb]
    by_cases hlt : j < hb <;> simp [hlt]

/-- **The mask keeps the low `W` bits and pads the rest.** -/
theorem testBit_maskTopLimb {ls : List (BitVec 64)} {W : ℕ} (S : Bool) (hW : 1 ≤ W)
    (hlen : ls.length = (W + 63) / 64) (i : ℕ) :
    (Limbs.val (maskTopLimb ls W S)).testBit i =
      if i < W then (Limbs.val ls).testBit i
      else (decide (i < 64 * ls.length) && (S && (Limbs.val ls).testBit (W - 1))) := by
  have hne : ls ≠ [] := by
    intro h
    rw [h, List.length_nil] at hlen
    omega
  by_cases hend : i < 64 * ls.length
  swap
  · rw [Limbs.testBit_val_of_le (by rw [maskTopLimb_length]; omega), if_neg (by omega)]
    simp [hend]
  simp only [decide_eq_true hend, Bool.true_and]
  unfold maskTopLimb
  rw [if_neg hne]
  simp only
  by_cases hfull : (W - 1) % 64 + 1 = 64
  · rw [if_pos hfull, if_pos (by omega)]
  · rw [if_neg hfull]
    have hlast : (W - 1) / 64 = ls.length - 1 := by omega
    have hsign : (Limbs.val ls).testBit (W - 1) =
        (ls.getD (ls.length - 1) 0).getLsbD ((W - 1) % 64 + 1 - 1) := by
      rw [Limbs.testBit_val, hlast, Nat.add_sub_cancel]
    rw [Limbs.testBit_val, hsign, Limbs.testBit_val]
    by_cases htop : i / 64 = ls.length - 1
    · -- the bit lies in the masked limb
      rw [htop, getD_set_self (by omega), getLsbD_masked _ S (by omega) (Nat.mod_lt _ (by decide))]
      have hiff : i % 64 < (W - 1) % 64 + 1 ↔ i < W := by omega
      simp only [hiff]
      rfl
    · rw [List.getD_eq_getElem?_getD, List.getElem?_set_ne (Ne.symm htop),
        ← List.getD_eq_getElem?_getD, if_pos (by omega)]

/-- **Masked limbs are a valid representation.** -/
theorem valid_masked {ls : List (BitVec 64)} {W : ℕ} (S : Bool) (hW : 1 ≤ W)
    (hlen : ls.length = (W + 63) / 64) : Valid ⟨maskTopLimb ls W S, W, S⟩ where
  width_pos := hW
  length_eq := by rw [maskTopLimb_length, hlen]
  padding := by
    intro i hi hi'
    rw [maskTopLimb_length] at hi'
    rw [getBit_eq, padding_eq, signBitSet_eq hW, testBit_maskTopLimb S hW hlen,
      testBit_maskTopLimb S hW hlen, if_neg (by simpa using hi), if_pos (by simp; omega)]
    simp [hi']

theorem toInt_masked {ls : List (BitVec 64)} {W : ℕ} (S : Bool) (hW : 1 ≤ W)
    (hlen : ls.length = (W + 63) / 64) :
    toInt ⟨maskTopLimb ls W S, W, S⟩ = wrapInt W S (Limbs.val ls) := by
  apply Bits.wrapInt_eq_of_testBit
  intro i hi
  rw [Bits.testBit_natCast, Bits.testBit_natCast, testBit_maskTopLimb S hW hlen, if_pos hi]

theorem declared_pos (W : ℕ) : 1 ≤ declared W := by
  unfold declared
  split <;> omega

theorem declared_eq {W : ℕ} (h : 1 ≤ W) : declared W = W := if_neg (by omega)

theorem limbsFor_eq {W : ℕ} (h : W + 63 < 2 ^ 32) : limbsFor W = (declared W + 63) / 64 := by
  unfold limbsFor declared
  simp only [Nat.mod_eq_of_lt h]
  split <;> split <;> omega

theorem limbsFor_declared {W : ℕ} (h : W + 63 < 2 ^ 32) :
    limbsFor (declared W) = (declared W + 63) / 64 := by
  have hd : declared W + 63 < 2 ^ 32 := by unfold declared; split <;> omega
  rw [limbsFor_eq hd, declared_eq (declared_pos W)]

theorem resize_length (ls : List (BitVec 64)) (n : ℕ) (f : BitVec 64) :
    (resize ls n f).length = n := by
  rw [resize, List.length_append, List.length_take, List.length_replicate]
  omega

theorem resize_self (ls : List (BitVec 64)) (f : BitVec 64) : resize ls ls.length f = ls := by
  rw [resize, List.take_length, Nat.sub_self, List.replicate_zero, List.append_nil]

theorem testBit_resize (ls : List (BitVec 64)) (f : BitVec 64) {n i : ℕ} (hi : i < 64 * n) :
    (Limbs.val (resize ls n f)).testBit i =
      if i / 64 < ls.length then (Limbs.val ls).testBit i else f.getLsbD (i % 64) := by
  have hn : i / 64 < n := by omega
  rw [Limbs.testBit_val, Limbs.testBit_val, resize, List.getD_eq_getElem?_getD,
    List.getElem?_append]
  split <;> rename_i h <;> rw [List.length_take] at h
  · rw [if_pos (by omega), List.getElem?_take_of_lt hn, ← List.getD_eq_getElem?_getD]
  · rw [if_neg (by omega), List.length_take, List.getElem?_replicate, if_pos (by omega)]
    rfl

theorem valid_wrapTo (v : BitIntValue) {W : ℕ} (S : Bool) (hW : W + 63 < 2 ^ 32) :
    (v.wrapTo W S).Valid :=
  valid_masked S (declared_pos W) (by rw [resize_length, limbsFor_eq hW])

theorem toInt_wrapTo {v : BitIntValue} {W : ℕ} (S : Bool) (hW : W + 63 < 2 ^ 32)
    (hlen : v.limbs.length = limbsFor W) :
    (v.wrapTo W S).toInt = wrapInt (declared W) S (Limbs.val v.limbs) := by
  rw [wrapTo, ← hlen, resize_self]
  exact toInt_masked S (declared_pos W) (by rw [hlen, limbsFor_eq hW])

theorem valid_ofLimbs (ls : List (BitVec 64)) {W : ℕ} (S : Bool) (hW : W + 63 < 2 ^ 32) :
    (ofLimbs ls W S).Valid := by
  have hd : declared W + 63 < 2 ^ 32 := by unfold declared; split <;> omega
  exact valid_wrapTo _ S hd

/-- **Raw limbs are reduced**: too many are cut, too few are extended by zeros. -/
theorem toInt_ofLimbs (ls : List (BitVec 64)) {W : ℕ} (S : Bool) (hW : W + 63 < 2 ^ 32) :
    (ofLimbs ls W S).toInt = wrapInt (declared W) S (Limbs.val ls) := by
  have hpos := declared_pos W
  have hn := limbsFor_declared hW
  have hdd := declared_eq hpos
  have hlen : (resize ls (limbsFor (declared W)) (signFill ⟨ls, declared W, S⟩)).length =
      (declared W + 63) / 64 := by rw [resize_length, hn]
  rw [ofLimbs, wrapTo, hdd, toInt_masked S hpos hlen]
  apply Bits.wrapInt_eq_of_testBit
  intro i hi
  rw [Bits.testBit_natCast, Bits.testBit_natCast, testBit_resize _ _ (by omega)]
  split
  · rfl
  · -- with a limb missing the sign bit is missing too, and the fill is zero
    rename_i hshort
    have hneg : isNegative ⟨ls, declared W, S⟩ = false := by
      rw [isNegative, signBitSet_eq hpos, Limbs.testBit_val_of_le (by simp only; omega),
        Bool.and_false]
    rw [getLsbD_signFill _ (Nat.mod_lt _ (by decide)), hneg,
      Limbs.testBit_val_of_le (by omega)]

theorem extendedLimbs_length (v : BitIntValue) (n : ℕ) : (v.extendedLimbs n).length = n := by
  rw [extendedLimbs, List.length_map, List.length_range]

theorem testBit_extendedLimbs {v : BitIntValue} (h : v.Valid) {n i : ℕ} (hi : i < 64 * n) :
    (Limbs.val (v.extendedLimbs n)).testBit i = v.toInt.testBit i := by
  have hn : i / 64 < n := by omega
  have hget : (v.extendedLimbs n).getD (i / 64) 0 =
      if i / 64 < v.limbs.length then v.limbs.getD (i / 64) 0#64 else v.signFill := by
    rw [extendedLimbs, List.getD_eq_getElem?_getD, List.getElem?_map, List.getElem?_range hn]
    rfl
  rw [Limbs.testBit_val, hget, h.testBit_toInt]
  by_cases hin : i / 64 < v.limbs.length
  · rw [if_pos hin, if_pos (by omega), Limbs.testBit_val]
    rfl
  · rw [if_neg hin, if_neg (by omega), getLsbD_signFill _ (Nat.mod_lt _ (by decide))]

theorem valid_convertTo (v : BitIntValue) {W : ℕ} (S : Bool) (hW : W + 63 < 2 ^ 32) :
    (v.convertTo W S).Valid :=
  valid_masked S (declared_pos W) (by rw [extendedLimbs_length, limbsFor_eq hW])

/-- **A conversion keeps the integer modulo the new width.** -/
theorem toInt_convertTo {v : BitIntValue} (h : v.Valid) {W : ℕ} (S : Bool)
    (hW : W + 63 < 2 ^ 32) : (v.convertTo W S).toInt = wrapInt (declared W) S v.toInt := by
  have hn := limbsFor_eq hW
  rw [convertTo, toInt_masked S (declared_pos W) (by rw [extendedLimbs_length, hn])]
  apply Bits.wrapInt_eq_of_testBit
  intro i hi
  rw [Bits.testBit_natCast, testBit_extendedLimbs h (by omega)]

theorem withType_length (v : BitIntValue) {W : ℕ} (S : Bool) :
    (v.withType W S).limbs.length = limbsFor W := by
  rw [withType, convertTo, maskTopLimb_length, extendedLimbs_length]

end DssPrime.BitIntValue
