import Mathlib
import DssPrime.Types.WideFloatPack

/-!
# Wide floats to and from doubles and integers

`toDouble` rounds once, on the grid of normal doubles or on the one of subnormal doubles as the
unrounded exponent says.
-/

namespace DssPrime.WideFloatValue

open Bits (roundEven IeeeFormat IeeeDatum toNat_field_or toNat_and_mask toNat_ushiftRight_eq)
open Bits.IeeeFormat (binary64)

/-- The subnormal branch: the bits below the sign, `rshift` of the significand's dropped. -/
def subnormalBits (v : WideFloatValue) (rshift : ℕ) : BitVec 64 :=
  let s := rshift - 64
  let m := if rshift ≤ 127 then v.sigHi >>> s else 0#64
  let roundBit := if rshift ≤ 127 then ((v.sigHi >>> (s - 1)) &&& 1#64) != 0#64 else true
  let stickyBit :=
    if rshift ≤ 127 then
      (v.sigHi &&& ((1#64 <<< (s - 1)) - 1#64)) != 0#64 || v.sigLo != 0#64
    else (v.sigHi &&& 0x7FFFFFFFFFFFFFFF#64) != 0#64 || v.sigLo != 0#64
  if roundBit && (stickyBit || (m &&& 1#64) != 0#64) then m + 1#64 else m

/-- The normal branch: the bits below the sign, from the unrounded exponent field. -/
def normalBits (v : WideFloatValue) (expField0 : ℤ) : BitVec 64 :=
  let mant := (v.sigHi >>> 11) &&& 0x000FFFFFFFFFFFFF#64
  let roundBit := ((v.sigHi >>> 10) &&& 1#64) != 0#64
  let sticky := (v.sigHi &&& 0x3FF#64) != 0#64 || v.sigLo != 0#64
  let lsb := (mant &&& 1#64) != 0#64
  let up := roundBit && (sticky || lsb)
  let carryOut := up && ((mant + 1#64) >>> 52) != 0#64
  let expField := if carryOut then expField0 + 1 else expField0
  let mant := if carryOut then 0#64 else if up then mant + 1#64 else mant
  if 0x7FF ≤ expField then 0x7FF0000000000000#64
  else (BitVec.ofInt 64 expField <<< 52) ||| mant

def toDouble (v : WideFloatValue) : BitVec 64 :=
  let s := (if v.sign then 1#64 else 0#64) <<< 63
  match v.cls with
  | .zero => s
  | .infinity => s ||| 0x7FF0000000000000#64
  | .nan => 0x7FF8000000000000#64
  | .normal =>
    let expField0 := v.exponent + 1023
    if expField0 ≤ 0 then
      let rshift := 76 - expField0
      if 128 < rshift then s else s ||| v.subnormalBits rshift.toNat
    else s ||| v.normalBits expField0

def toInt64 (v : WideFloatValue) : Option (BitVec 64) :=
  if v.cls = .nan ∨ v.cls = .infinity then none
  else if v.cls = .zero then some 0#64
  else if v.exponent < 0 then some 0#64
  else if 63 < v.exponent then none
  else
    let sh := (127 - v.exponent).toNat
    let mag := v.sigHi >>> (sh - 64)
    if v.sign = false then
      if 0x7FFFFFFFFFFFFFFF#64 < mag then none else some mag
    else
      let int64MinMag := 0x7FFFFFFFFFFFFFFF#64 + 1#64
      if int64MinMag < mag then none
      else if mag = int64MinMag then some 0x8000000000000000#64
      else some (-mag)

def nearestDouble (v : WideFloatValue) : IeeeDatum :=
  match v.cls with
  | .zero => .finite v.sign 0
  | .infinity => .infinity v.sign
  | .nan => .nan
  | .normal => binary64.narrow v.sign v.magnitude

def truncate (x : ℚ) : ℤ := if 0 ≤ x then ⌊x⌋ else -⌊-x⌋

variable {v : WideFloatValue}

theorem and_one_ne_zero (x : BitVec 64) (i : ℕ) :
    (((x >>> i) &&& 1#64) != 0#64) = x.toNat.testBit i := by
  exact Limbs.getLsbD_eq_shiftRight_and x i

theorem toNat_mask {n : ℕ} (hn : n < 64) : ((1#64 <<< n) - 1#64).toNat = 2 ^ n - 1 := by
  have hlt : 2 ^ n < 2 ^ 64 := Nat.pow_lt_pow_right (by decide) hn
  have hpos := Nat.two_pow_pos n
  rw [BitVec.toNat_sub, BitVec.toNat_shiftLeft, BitVec.toNat_ofNat, Nat.shiftLeft_eq]
  norm_num
  omega

theorem ne_zero_iff_toNat (x : BitVec 64) : (x != 0#64) = decide (x.toNat ≠ 0) := by
  rw [Bool.eq_iff_iff, bne_iff_ne, decide_eq_true_iff, ne_eq, ne_eq, ← BitVec.toNat_inj]
  rfl

theorem sig_div_word (v : WideFloatValue) : v.sig / 2 ^ 64 = v.sigHi.toNat := by
  have hlo := v.sigLo.isLt
  unfold sig
  omega

theorem sig_div (v : WideFloatValue) (s : ℕ) : v.sig / 2 ^ (64 + s) = (v.sigHi >>> s).toNat := by
  rw [toNat_ushiftRight_eq, pow_add, ← Nat.div_div_eq_div_mul, sig_div_word]

theorem sig_dropped (v : WideFloatValue) {s : ℕ} (hs : 1 ≤ s) (hs' : s ≤ 64) :
    v.sig.testBit (64 + s - 1) = v.sigHi.toNat.testBit (s - 1) ∧
      decide (v.sig % 2 ^ (64 + s - 1) ≠ 0) =
        ((v.sigHi &&& ((1#64 <<< (s - 1)) - 1#64)) != 0#64 || v.sigLo != 0#64) := by
  have hlo := v.sigLo.isLt
  have hexp : 64 + s - 1 = 64 + (s - 1) := by omega
  constructor
  · rw [hexp, Nat.add_comm, ← Nat.testBit_div_two_pow, sig_div_word]
  · have hmod : v.sig % 2 ^ (64 + (s - 1)) =
        v.sigLo.toNat + 2 ^ 64 * (v.sigHi.toNat % 2 ^ (s - 1)) := by
      rw [sig, pow_add, Nat.mod_mul, Nat.add_mul_mod_self_left, Nat.mod_eq_of_lt hlo,
        Nat.add_mul_div_left _ _ (Nat.two_pow_pos 64), Nat.div_eq_of_lt hlo, Nat.zero_add]
    rw [hexp, hmod, ne_zero_iff_toNat, ne_zero_iff_toNat,
      toNat_and_mask _ (toNat_mask (by omega)), ← Bool.decide_or, decide_eq_decide]
    omega

/-- Whether the significand without its last `64 + s` bits rounds up. -/
def roundsUp (v : WideFloatValue) (s : ℕ) : Bool :=
  (((v.sigHi >>> (s - 1)) &&& 1#64) != 0#64) &&
    (((v.sigHi &&& ((1#64 <<< (s - 1)) - 1#64)) != 0#64 || v.sigLo != 0#64) ||
      ((v.sigHi >>> s) &&& 1#64) != 0#64)

/-- **The kept bits, the round bit and the sticky bit round the significand.** -/
theorem roundEven_sig (v : WideFloatValue) {s : ℕ} (hs : 1 ≤ s) (hs' : s ≤ 64) :
    roundEven ((v.sig : ℚ) / 2 ^ (64 + s)) =
      (((v.sigHi >>> s).toNat + if v.roundsUp s then 1 else 0 : ℕ) : ℤ) := by
  obtain ⟨hround, hsticky⟩ := sig_dropped v hs hs'
  have hlt : ((v.sig % 2 ^ (64 + s - 1) : ℕ) : ℚ) + 0 < 2 ^ (64 + s - 1) := by
    rw [add_zero]
    exact_mod_cast Nat.mod_lt _ (Nat.two_pow_pos _)
  have h := Bits.roundEven_register (R := v.sig) (l := 64 + s - 1) (δ := 0) le_rfl hlt
  have hexp : 64 + s - 1 + 1 = 64 + s := by omega
  have hlsb : v.sig.testBit (64 + s) = (((v.sigHi >>> s) &&& 1#64) != 0#64) := by
    rw [and_one_ne_zero, Nat.add_comm, ← Nat.testBit_div_two_pow, sig_div_word]
  rw [add_zero, hexp, hround, hsticky, hlsb, sig_div] at h
  rw [h, roundsUp, and_one_ne_zero v.sigHi (s - 1)]
  simp only [ne_eq, not_true_eq_false, decide_false, Bool.false_or]

theorem datum_sign_or (sign : Bool) {n : BitVec 64} (hn : n.toNat < 2 ^ 63) :
    binary64.datum (((if sign then 1#64 else 0#64) <<< 63) ||| n) =
      binary64.datumOf sign n.toNat := by
  have hs : (if sign then 1#64 else 0#64).toNat = sign.toNat := by
    cases sign <;> rfl
  have hfit : (if sign then 1#64 else 0#64).toNat * 2 ^ 63 < 2 ^ 64 := by
    cases sign <;> decide
  refine IeeeFormat.datum_of_toNat ?_ hn
  rw [toNat_field_or hfit hn, hs]

theorem WellFormed.binade (h : v.WellFormed) (hv : v.cls = .normal) :
    (2 : ℚ) ^ v.exponent ≤ v.magnitude ∧ v.magnitude < 2 ^ (v.exponent + 1) := by
  have hlo : (2 : ℚ) ^ 127 ≤ v.sig := by exact_mod_cast h.integerBit hv
  have hhi : (v.sig : ℚ) < 2 ^ 128 := by exact_mod_cast v.sig_lt
  have hsum : ∀ n : ℕ, (2 : ℚ) ^ n * 2 ^ (v.exponent - 127) = 2 ^ (v.exponent + n - 127) := by
    intro n
    rw [← zpow_natCast, ← zpow_add₀ two_ne_zero]
    congr 1
    ring
  have h127 := hsum 127
  have h128 := hsum 128
  have he127 : v.exponent + (127 : ℕ) - 127 = v.exponent := by norm_num
  have he128 : v.exponent + (128 : ℕ) - 127 = v.exponent + 1 := by
    push_cast
    ring
  rw [he127] at h127
  rw [he128] at h128
  rw [magnitude]
  constructor
  · rw [← h127]
    exact mul_le_mul_of_nonneg_right hlo (zpow_pos two_pos _).le
  · rw [← h128]
    exact mul_lt_mul_of_pos_right hhi (zpow_pos two_pos _)

theorem magnitude_div (v : WideFloatValue) {q : ℤ} {s : ℕ} (hq : q = v.exponent - 63 + s) :
    v.magnitude / 2 ^ q = (v.sig : ℚ) / 2 ^ (64 + s) := by
  have hexp : v.exponent - 127 = q - (64 + s : ℕ) := by
    push_cast
    omega
  rw [magnitude, hexp, zpow_sub₀ two_ne_zero, zpow_natCast, mul_div_assoc, div_right_comm,
    div_self (zpow_pos two_pos _).ne', mul_one_div]

/-- **A normal value rounds to the kept bits**, on the grid its exponent asks for. -/
theorem WellFormed.round_eq (h : v.WellFormed) (hv : v.cls = .normal) {s : ℕ} (hs : 1 ≤ s)
    (hs' : s ≤ 64) (hgrid : max v.exponent (-1022) - 52 = v.exponent - 63 + s) :
    binary64.round v.magnitude =
      ((v.sigHi >>> s).toNat + if v.roundsUp s then 1 else 0 : ℕ) *
        2 ^ (max v.exponent (-1022) - 52) := by
  obtain ⟨hlo, hhi⟩ := h.binade hv
  have hq : max v.exponent (1 - binary64.bias) - binary64.mantissaBits =
      max v.exponent (-1022) - 52 := by
    norm_num [IeeeFormat.bias, binary64]
  rw [IeeeFormat.round_of_binade hlo hhi.le, hq, magnitude_div v hgrid, roundEven_sig v hs hs',
    Int.cast_natCast]

theorem subnormalBits_toNat {s : ℕ} (htop : 2 ^ 63 ≤ v.sigHi.toNat) (hs : 12 ≤ s) (hs' : s ≤ 64) :
    (v.subnormalBits (64 + s)).toNat = (v.sigHi >>> s).toNat + if v.roundsUp s then 1 else 0 := by
  have hlt : (v.sigHi >>> s).toNat < 2 ^ 52 := by
    rw [toNat_ushiftRight_eq]
    have hpow : (2 : ℕ) ^ 12 ≤ 2 ^ s := Nat.pow_le_pow_right two_pos hs
    calc v.sigHi.toNat / 2 ^ s ≤ v.sigHi.toNat / 2 ^ 12 :=
          Nat.div_le_div_left hpow (Nat.two_pow_pos 12)
      _ < 2 ^ 52 := by
          have := v.sigHi.isLt
          omega
  have hbits : v.subnormalBits (64 + s) =
      if v.roundsUp s then (v.sigHi >>> s) + 1#64 else v.sigHi >>> s := by
    rcases hs'.lt_or_eq with hlt | rfl
    · unfold subnormalBits roundsUp
      rw [Nat.add_sub_cancel_left]
      simp only [if_pos (show 64 + s ≤ 127 by omega)]
    · -- the round bit is the integer bit
      have hround : (((v.sigHi >>> 63) &&& 1#64) != 0#64) = true := by
        rw [and_one_ne_zero, Nat.testBit_eq_decide_div_mod_eq, decide_eq_true_iff]
        have := v.sigHi.isLt
        omega
      have hzero : v.sigHi >>> 64 = 0#64 := BitVec.ushiftRight_eq_zero le_rfl
      have hmask : (1#64 <<< 63) - 1#64 = 0x7FFFFFFFFFFFFFFF#64 := rfl
      unfold subnormalBits roundsUp
      simp only [Nat.add_sub_cancel_left, show ¬ 64 + 64 ≤ 127 by omega, if_false]
      rw [show 64 - 1 = 63 from rfl, hround, hmask, hzero]
  rw [hbits]
  split
  · rw [BitVec.toNat_add, BitVec.toNat_ofNat]
    omega
  · rw [Nat.add_zero]

theorem datum_subnormal (h : v.WellFormed) (hv : v.cls = .normal) (hE : v.exponent + 1023 ≤ 0) :
    binary64.datum v.toDouble = v.nearestDouble := by
  obtain ⟨hlo, hhi⟩ := h.binade hv
  obtain ⟨htop, -, -⟩ := h.sig_parts hv
  have hnear : v.nearestDouble = binary64.narrow v.sign v.magnitude := by
    unfold nearestDouble
    rw [hv]
  have hdouble : v.toDouble = ((if v.sign then 1#64 else 0#64) <<< 63) |||
      if 128 < 76 - (v.exponent + 1023) then 0#64
      else v.subnormalBits (76 - (v.exponent + 1023)).toNat := by
    unfold toDouble
    simp only [hv, if_pos hE]
    by_cases hfar : 128 < 76 - (v.exponent + 1023)
    · rw [if_pos hfar, if_pos hfar, BitVec.or_zero]
    · rw [if_neg hfar, if_neg hfar]
  rw [hnear, hdouble]
  by_cases hfar : 128 < 76 - (v.exponent + 1023)
  · rw [if_pos hfar]
    rw [datum_sign_or _ (by decide), BitVec.toNat_ofNat, Nat.zero_mod, IeeeFormat.datumOf_zero,
      IeeeFormat.narrow_of_tiny ((zpow_pos two_pos _).le.trans hlo)]
    refine hhi.trans_le (zpow_le_zpow_right₀ one_le_two ?_)
    norm_num [IeeeFormat.bias, binary64]
    omega
  · rw [if_neg hfar]
    obtain ⟨s, hs⟩ : ∃ s : ℕ, (76 - (v.exponent + 1023)).toNat = 64 + s :=
      ⟨(12 - (v.exponent + 1023)).toNat, by omega⟩
    have hbits := subnormalBits_toNat htop (s := s) (by omega) (by omega)
    have hmax : max v.exponent (-1022) = -1022 := max_eq_right (by omega)
    have hround := h.round_eq hv (s := s) (by omega) (by omega) (by rw [hmax]; omega)
    have hle : (v.subnormalBits (64 + s)).toNat ≤ 2 ^ 52 := by
      rw [hbits, toNat_ushiftRight_eq]
      have hpow : (2 : ℕ) ^ 12 ≤ 2 ^ s := Nat.pow_le_pow_right two_pos (by omega)
      have hdiv := Nat.div_le_div_left (a := v.sigHi.toNat) hpow (Nat.two_pow_pos 12)
      have hlt := v.sigHi.isLt
      split <;> omega
    rw [← hbits, hmax] at hround
    have hcarry := IeeeFormat.magnitudeOf_carry (F := binary64) (E := 1)
      (K := (v.subnormalBits (64 + s)).toNat) le_rfl (hle.trans (by decide)) (.inr rfl)
    have hmag : binary64.round v.magnitude =
        binary64.magnitudeOf (v.subnormalBits (64 + s)).toNat := by
      rw [Nat.sub_self, Nat.zero_mul, Nat.zero_add] at hcarry
      rw [hround, hcarry]
      norm_num [IeeeFormat.bias, binary64]
    rw [hs, datum_sign_or _ (by omega), IeeeFormat.narrow_eq_finite hmag]
    exact lt_of_le_of_lt (Nat.div_le_div_right hle) (by decide)

theorem normalBits_toNat (htop : 2 ^ 63 ≤ v.sigHi.toNat) {E : ℕ} (hE : 1 ≤ E) (hE' : E < 2 ^ 16) :
    (v.normalBits E).toNat = min ((E - 1) * 2 ^ 52 +
      ((v.sigHi >>> 11).toNat + if v.roundsUp 11 then 1 else 0)) 0x7FF0000000000000 := by
  have hlt := v.sigHi.isLt
  have hmask : (0x000FFFFFFFFFFFFF#64).toNat = 2 ^ 52 - 1 := rfl
  have hmant : ((v.sigHi >>> 11) &&& 0x000FFFFFFFFFFFFF#64).toNat =
      (v.sigHi >>> 11).toNat - 2 ^ 52 := by
    rw [toNat_and_mask _ hmask, toNat_ushiftRight_eq]
    omega
  have hhigh : (v.sigHi >>> 11).toNat < 2 ^ 53 ∧ 2 ^ 52 ≤ (v.sigHi >>> 11).toNat := by
    rw [toNat_ushiftRight_eq]
    omega
  have hlsb : (((v.sigHi >>> 11) &&& 0x000FFFFFFFFFFFFF#64) &&& 1#64) =
      (v.sigHi >>> 11) &&& 1#64 := by
    rw [BitVec.and_assoc]
    rfl
  have hup : (((v.sigHi >>> 10) &&& 1#64) != 0#64 &&
      (((v.sigHi &&& 0x3FF#64) != 0#64 || v.sigLo != 0#64) ||
        (((v.sigHi >>> 11) &&& 0x000FFFFFFFFFFFFF#64) &&& 1#64) != 0#64)) = v.roundsUp 11 := by
    rw [hlsb]
    rfl
  unfold normalBits
  simp only
  rw [hup]
  generalize hM : (v.sigHi >>> 11) &&& 0x000FFFFFFFFFFFFF#64 = mant at hmant
  generalize v.roundsUp 11 = up
  have hinc : (mant + 1#64).toNat = mant.toNat + 1 := by
    rw [BitVec.toNat_add, BitVec.toNat_ofNat]
    omega
  have hcarry : (((mant + 1#64) >>> 52) != 0#64) = decide (mant.toNat + 1 = 2 ^ 52) := by
    rw [ne_zero_iff_toNat, toNat_ushiftRight_eq, hinc, decide_eq_decide]
    omega
  -- an exponent field in range over a mantissa
  have hword : ∀ (X : ℕ) (m : BitVec 64), X < 0x7FF → m.toNat < 2 ^ 52 →
      ((BitVec.ofInt 64 (X : ℤ) <<< 52) ||| m).toNat = X * 2 ^ 52 + m.toNat := by
    intro X m hX hm
    have hval : (BitVec.ofInt 64 (X : ℤ)).toNat = X := by
      rw [BitVec.toNat_ofInt]
      omega
    rw [toNat_field_or (by omega) hm, hval]
  rw [hcarry]
  cases up with
  | false =>
    simp only [Bool.false_and, Bool.false_eq_true, if_false]
    split_ifs with hbig
    · rw [BitVec.toNat_ofNat]
      omega
    · rw [hword E mant (by omega) (by omega)]
      omega
  | true =>
    simp only [Bool.true_and, if_true, decide_eq_true_eq]
    by_cases hc : mant.toNat + 1 = 2 ^ 52
    · simp only [hc, if_true]
      split_ifs with hbig
      · rw [BitVec.toNat_ofNat]
        omega
      · rw [show (E : ℤ) + 1 = ((E + 1 : ℕ) : ℤ) by push_cast; rfl,
          hword (E + 1) 0#64 (by omega) (by decide), BitVec.toNat_ofNat]
        omega
    · simp only [hc, if_false]
      split_ifs with hbig
      · rw [BitVec.toNat_ofNat]
        omega
      · rw [hword E _ (by omega) (by omega), hinc]
        omega

theorem datum_normal (h : v.WellFormed) (hv : v.cls = .normal) (hE : 1 ≤ v.exponent + 1023) :
    binary64.datum v.toDouble = v.nearestDouble := by
  obtain ⟨htop, -, -⟩ := h.sig_parts hv
  have hmaxExp := h.exponent_le hv
  unfold kMaxExp at hmaxExp
  have hnear : v.nearestDouble = binary64.narrow v.sign v.magnitude := by
    unfold nearestDouble
    rw [hv]
  obtain ⟨E, hEeq⟩ : ∃ E : ℕ, v.exponent + 1023 = E := ⟨(v.exponent + 1023).toNat, by omega⟩
  have hdouble : v.toDouble = ((if v.sign then 1#64 else 0#64) <<< 63) ||| v.normalBits E := by
    unfold toDouble
    simp only [hv, hEeq, if_neg (show ¬ (E : ℤ) ≤ 0 by omega)]
  have hmax : max v.exponent (-1022) = v.exponent := max_eq_left (by omega)
  have hround := h.round_eq hv (s := 11) (by omega) (by omega) (by rw [hmax]; omega)
  have hbits := normalBits_toNat htop (E := E) (by omega) (by omega)
  rw [hmax] at hround
  generalize hK : (v.sigHi >>> 11).toNat + (if v.roundsUp 11 then 1 else 0) = K at hround hbits
  have hKlo : 2 ^ 52 ≤ K ∧ K ≤ 2 ^ 53 := by
    have hlt := v.sigHi.isLt
    rw [toNat_ushiftRight_eq] at hK
    split at hK <;> omega
  have hcarry := IeeeFormat.magnitudeOf_carry (F := binary64) (E := E) (K := K) (by omega)
    (show K ≤ 2 ^ 53 from hKlo.2) (.inl hKlo.1)
  have hmag : binary64.round v.magnitude = binary64.magnitudeOf ((E - 1) * 2 ^ 52 + K) := by
    have hexp : v.exponent - 52 = (E : ℤ) - binary64.bias - binary64.mantissaBits := by
      norm_num [IeeeFormat.bias, binary64]
      omega
    rw [hround, hexp]
    exact hcarry.symm
  have hbias : 2 * binary64.bias + 1 = 2047 := rfl
  have hmbits : binary64.mantissaBits = 52 := rfl
  rw [hnear, hdouble]
  by_cases hover : 2047 * 2 ^ 52 ≤ (E - 1) * 2 ^ 52 + K
  · have hinf : (v.normalBits E).toNat = 0x7FF0000000000000 := by
      rw [hbits]
      omega
    rw [datum_sign_or _ (by omega), hinf, IeeeFormat.narrow_eq_infinity hmag]
    · rfl
    · rw [hbias, hmbits]
      omega
  · have hval : (v.normalBits E).toNat = (E - 1) * 2 ^ 52 + K := by
      rw [hbits]
      omega
    rw [datum_sign_or _ (by omega), hval, IeeeFormat.narrow_eq_finite hmag]
    rw [hbias, hmbits]
    omega

/-- **`toDouble` is the nearest double.** -/
theorem datum_toDouble (h : v.WellFormed) : binary64.datum v.toDouble = v.nearestDouble := by
  cases hv : v.cls with
  | normal =>
    by_cases hE : v.exponent + 1023 ≤ 0
    · exact datum_subnormal h hv hE
    · exact datum_normal h hv (by omega)
  | zero =>
    unfold toDouble nearestDouble
    simp only [hv]
    have hzero := datum_sign_or v.sign (n := 0#64) (by decide)
    rw [BitVec.or_zero] at hzero
    rw [hzero, BitVec.toNat_ofNat, Nat.zero_mod, IeeeFormat.datumOf_zero]
  | infinity =>
    unfold toDouble nearestDouble
    simp only [hv]
    rw [datum_sign_or _ (by decide)]
    rfl
  | nan =>
    unfold toDouble nearestDouble
    simp only [hv]
    rfl

theorem toNat_shl_countlZero (w : BitVec 64) :
    (w <<< countlZero w).toNat = w.toNat * 2 ^ countlZero w := by
  have hsz := Nat.lt_size_self w.toNat
  have hsz64 : w.toNat.size ≤ 64 := Nat.size_le.mpr w.isLt
  rw [BitVec.toNat_shiftLeft, Nat.shiftLeft_eq, Nat.mod_eq_of_lt]
  calc w.toNat * 2 ^ countlZero w < 2 ^ w.toNat.size * 2 ^ countlZero w :=
        Nat.mul_lt_mul_of_pos_right hsz (Nat.two_pow_pos _)
    _ = 2 ^ 64 := by
        rw [← pow_add, countlZero]
        congr 1
        omega

theorem double_fields (d : BitVec 64) :
    (if ((d >>> 63) &&& 1#64) != 0#64 then 1#64 else 0#64).toNat = d.toNat / 2 ^ 63 ∧
      ((d >>> 52) &&& 0x7FF#64).toNat = d.toNat / 2 ^ 52 % 2 ^ 11 ∧
      (d &&& 0x000FFFFFFFFFFFFF#64).toNat = d.toNat % 2 ^ 52 := by
  have hlt := d.isLt
  refine ⟨?_, ?_, ?_⟩
  · rw [and_one_ne_zero, Nat.testBit_eq_decide_div_mod_eq]
    by_cases hbit : d.toNat / 2 ^ 63 % 2 = 1
    · rw [decide_eq_true hbit]
      simp only [if_true, BitVec.toNat_ofNat]
      omega
    · rw [decide_eq_false hbit]
      simp only [Bool.false_eq_true, if_false, BitVec.toNat_ofNat]
      omega
  · rw [toNat_and_mask _ (show (0x7FF#64).toNat = 2 ^ 11 - 1 from rfl), toNat_ushiftRight_eq]
  · rw [toNat_and_mask _ (show (0x000FFFFFFFFFFFFF#64).toNat = 2 ^ 52 - 1 from rfl)]

theorem eq_sign_or {d s n : BitVec 64} (hs : s.toNat = d.toNat / 2 ^ 63)
    (hn : n.toNat = d.toNat % 2 ^ 63) : (s <<< 63) ||| n = d := by
  have hlt := d.isLt
  apply BitVec.eq_of_toNat_eq
  rw [toNat_field_or (by omega) (by omega), hs, hn]
  omega

/-- **A double survives the way to a wide float and back.** -/
theorem toDouble_fromDouble {d : BitVec 64} (hd : binary64.datum d ≠ .nan) (k : TypeKind) :
    (fromDouble d k).toDouble = d := by
  obtain ⟨hsign, hexp, hfrac⟩ := double_fields d
  have hlt := d.isLt
  unfold fromDouble
  simp only
  generalize (((d >>> 63) &&& 1#64) != 0#64) = sign at hsign ⊢
  generalize d &&& 0x000FFFFFFFFFFFFF#64 = frac at hfrac ⊢
  rw [hexp]
  split_ifs with hspecial hinf hsub hzero
  · rw [hinf, BitVec.toNat_ofNat] at hfrac
    refine eq_sign_or hsign ?_
    rw [BitVec.toNat_ofNat]
    omega
  · refine absurd ?_ hd
    have hne : d.toNat % 2 ^ 52 ≠ 0 := by
      intro h0
      exact hinf (BitVec.eq_of_toNat_eq (hfrac.trans h0))
    have hmbits : binary64.mantissaBits = 52 := rfl
    have hbias : 2 * binary64.bias + 1 = 2047 := rfl
    rw [IeeeFormat.datum, IeeeFormat.datumOf, hmbits, hbias, if_neg (by omega), if_neg (by omega)]
  · rw [hzero, BitVec.toNat_ofNat] at hfrac
    have h := eq_sign_or (n := 0#64) hsign (by rw [BitVec.toNat_ofNat]; omega)
    rw [BitVec.or_zero] at h
    exact h
  · -- the fraction comes back from where its leading zeros went
    obtain ⟨htop, hclz⟩ := two_pow_le_shl_countlZero hzero
    have hshl := toNat_shl_countlZero frac
    have hclz' : 12 ≤ countlZero frac := by
      have hsize : frac.toNat.size ≤ 52 := by
        rw [Nat.size_le, hfrac]
        exact Nat.mod_lt _ (Nat.two_pow_pos 52)
      rw [countlZero]
      omega
    generalize countlZero frac = z at htop hclz hshl hclz'
    have hr : (76 - ((63 - (z : ℤ)) - 1074 + 1023)).toNat = 64 + z := by omega
    have hback : ((frac <<< z) >>> z).toNat = frac.toNat := by
      rw [toNat_ushiftRight_eq, hshl, Nat.mul_div_cancel _ (Nat.two_pow_pos z)]
    have hdown : (roundsUp ⟨sign, .normal, (63 - z : ℤ) - 1074, frac <<< z, 0#64, k⟩ z) =
        false := by
      have hbit : (frac <<< z).toNat.testBit (z - 1) = false := by
        rw [hshl, mul_comm, Nat.testBit_two_pow_mul]
        simp
        omega
      unfold roundsUp
      simp only
      rw [and_one_ne_zero, hbit, Bool.false_and]
    have hbits := subnormalBits_toNat
      (v := ⟨sign, .normal, (63 - z : ℤ) - 1074, frac <<< z, 0#64, k⟩) htop hclz' (by omega)
    rw [hdown] at hbits
    simp only [Bool.false_eq_true, if_false, Nat.add_zero, hback] at hbits
    unfold toDouble
    simp only
    rw [if_pos (by omega), if_neg (by omega), hr]
    refine eq_sign_or hsign ?_
    rw [hbits, hfrac]
    omega
  · have hsig : ((1#64 <<< 63) ||| (frac <<< 11)).toNat = 2 ^ 63 + d.toNat % 2 ^ 52 * 2 ^ 11 := by
      have hshl : (frac <<< 11).toNat = d.toNat % 2 ^ 52 * 2 ^ 11 := by
        rw [BitVec.toNat_shiftLeft, Nat.shiftLeft_eq, hfrac]
        omega
      rw [toNat_field_or (by decide) (by rw [hshl]; omega), hshl, BitVec.toNat_ofNat]
      omega
    generalize (1#64 <<< 63) ||| (frac <<< 11) = hi at hsig
    generalize hE : d.toNat / 2 ^ 52 % 2 ^ 11 = E at hsub hspecial
    have hdown : (roundsUp ⟨sign, .normal, (E : ℤ) - 1023, hi, 0#64, k⟩ 11) = false := by
      have hbit : hi.toNat.testBit (11 - 1) = false := by
        rw [Nat.testBit_eq_decide_div_mod_eq, hsig, decide_eq_false_iff_not]
        omega
      unfold roundsUp
      simp only
      rw [and_one_ne_zero, hbit, Bool.false_and]
    have hbits := normalBits_toNat (v := ⟨sign, .normal, (E : ℤ) - 1023, hi, 0#64, k⟩) (E := E)
      (by rw [hsig]; omega) (by omega) (by omega)
    rw [hdown] at hbits
    simp only [Bool.false_eq_true, if_false, Nat.add_zero] at hbits
    rw [toNat_ushiftRight_eq, hsig] at hbits
    unfold toDouble
    simp only
    rw [sub_add_cancel, if_neg (by omega)]
    refine eq_sign_or hsign ?_
    have hkept : (2 ^ 63 + d.toNat % 2 ^ 52 * 2 ^ 11) / 2 ^ 11 = 2 ^ 52 + d.toNat % 2 ^ 52 := by
      omega
    have hlow : d.toNat % 2 ^ 63 = (E - 1) * 2 ^ 52 + (2 ^ 52 + d.toNat % 2 ^ 52) := by omega
    rw [hbits, hkept, ← hlow, min_eq_left]
    omega

theorem truncate_of_sign {x : ℚ} (hx : 0 ≤ x) (sign : Bool) :
    truncate (if sign then -x else x) = if sign then -⌊x⌋ else ⌊x⌋ := by
  cases sign with
  | false => exact if_pos hx
  | true =>
    simp only [if_true]
    unfold truncate
    by_cases h0 : x = 0
    · rw [h0]
      rfl
    · rw [if_neg (by rw [not_le, neg_lt_zero]; exact lt_of_le_of_ne hx (Ne.symm h0)), neg_neg]

theorem floor_magnitude (he : 0 ≤ v.exponent) (he' : v.exponent ≤ 63) :
    ⌊v.magnitude⌋ = (v.sigHi >>> ((127 - v.exponent).toNat - 64)).toNat := by
  obtain ⟨s, hs⟩ : ∃ s : ℕ, v.exponent = 63 - s := ⟨(63 - v.exponent).toNat, by omega⟩
  have hsh : (127 - v.exponent).toNat - 64 = s := by omega
  have hdiv := magnitude_div v (q := 0) (s := s) (by omega)
  rw [zpow_zero, div_one] at hdiv
  rw [hsh, hdiv, ← sig_div]
  exact_mod_cast Rat.floor_natCast_div_natCast v.sig (2 ^ (64 + s))

/-- **`toInt64` truncates**, where the truncated value is an `int64_t`. -/
theorem toInt64_eq_some (h : v.WellFormed) (n : BitVec 64) :
    v.toInt64 = some n ↔ v.cls ≠ .nan ∧ v.cls ≠ .infinity ∧ truncate v.toRat = n.toInt := by
  have hzero : truncate 0 = 0 := rfl
  have hn := n.toInt_eq_toNat_cond
  have hnlt := n.isLt
  cases hv : v.cls with
  | nan => simp [toInt64, hv]
  | infinity => simp [toInt64, hv]
  | zero =>
    rw [toInt64, if_neg (by rw [hv]; decide), if_pos hv, toRat_of_not_normal (by rw [hv]; decide),
      hzero, Option.some.injEq, ← BitVec.toInt_inj]
    simp
  | normal =>
    obtain ⟨hlo, hhi⟩ := h.binade hv
    have hpos : 0 < v.magnitude := (zpow_pos two_pos _).trans_le hlo
    have hval : truncate v.toRat = if v.sign then -⌊v.magnitude⌋ else ⌊v.magnitude⌋ := by
      rw [toRat_of_normal hv, truncate_of_sign hpos.le]
    rw [toInt64, if_neg (by rw [hv]; decide), if_neg (by rw [hv]; decide), hval]
    simp only [ne_eq, reduceCtorEq, not_false_eq_true, true_and]
    by_cases hneg : v.exponent < 0
    · have hfloor : ⌊v.magnitude⌋ = 0 := by
        rw [Int.floor_eq_zero_iff, Set.mem_Ico]
        refine ⟨hpos.le, hhi.trans_le ?_⟩
        calc (2 : ℚ) ^ (v.exponent + 1) ≤ 2 ^ (0 : ℤ) :=
              zpow_le_zpow_right₀ one_le_two (by omega)
          _ = 1 := zpow_zero 2
      rw [if_pos hneg, hfloor, neg_zero, ite_self, Option.some.injEq, ← BitVec.toInt_inj]
      simp
    · rw [if_neg hneg]
      by_cases hbig : 63 < v.exponent
      · have hfloor : 2 ^ 64 ≤ ⌊v.magnitude⌋ := by
          rw [Int.le_floor]
          calc (((2 ^ 64 : ℤ)) : ℚ) = 2 ^ (64 : ℤ) := by norm_num
            _ ≤ 2 ^ v.exponent := zpow_le_zpow_right₀ one_le_two (by omega)
            _ ≤ v.magnitude := hlo
        rw [if_pos hbig]
        refine iff_of_false nofun ?_
        split <;> omega
      · have hfloor := floor_magnitude (v := v) (by omega) (by omega)
        rw [if_neg hbig, hfloor]
        generalize v.sigHi >>> ((127 - v.exponent).toNat - 64) = mag
        have hmag := mag.isLt
        cases v.sign with
        | false =>
          simp only [if_true, Bool.false_eq_true, if_false, BitVec.lt_def, BitVec.toNat_ofNat]
          split_ifs with hout
          · refine iff_of_false nofun ?_
            omega
          · rw [Option.some.injEq, ← BitVec.toNat_inj]
            omega
        | true =>
          have hmin : (0x7FFFFFFFFFFFFFFF#64 + 1#64).toNat = 2 ^ 63 := rfl
          have hnegmag := BitVec.toNat_neg mag
          simp only [Bool.true_eq_false, if_false, if_true, BitVec.lt_def, hmin]
          split_ifs with hout heq
          · refine iff_of_false nofun ?_
            omega
          · rw [heq, hmin, Option.some.injEq, ← BitVec.toNat_inj, BitVec.toNat_ofNat]
            omega
          · have hne : mag.toNat ≠ 2 ^ 63 := fun h => heq (BitVec.eq_of_toNat_eq h)
            rw [Option.some.injEq, ← BitVec.toNat_inj]
            omega

theorem fromUint64_exact (mag : BitVec 64) (sign : Bool) (k : TypeKind) :
    (fromUint64 mag sign k).toRat = if sign then -(mag.toNat : ℚ) else mag.toNat := by
  unfold fromUint64
  by_cases h0 : mag = 0#64
  · rw [if_pos h0, toRat_of_not_normal (by simp), h0]
    simp
  · rw [if_neg h0, toRat_of_normal rfl]
    obtain ⟨-, hclz⟩ := two_pow_le_shl_countlZero h0
    have hshl := toNat_shl_countlZero mag
    have hsub : 63 - (63 - countlZero mag) = countlZero mag := by omega
    simp only [magnitude, sig, hsub, hshl, BitVec.toNat_ofNat, Nat.zero_mod, Nat.zero_add]
    have hval : ((2 ^ 64 * (mag.toNat * 2 ^ countlZero mag) : ℕ) : ℚ) *
        2 ^ (((63 - countlZero mag : ℕ) : ℤ) - 127) = mag.toNat := by
      have hexp : ((63 - countlZero mag : ℕ) : ℤ) - 127 = -((64 + countlZero mag : ℕ) : ℤ) := by
        omega
      rw [hexp, zpow_neg, zpow_natCast, pow_add]
      push_cast
      field_simp
      ring
    rw [hval]

theorem fromInt64_exact (x : BitVec 64) (k : TypeKind) : (fromInt64 x k).toRat = x.toInt := by
  have hx := x.isLt
  have hmsb := BitVec.msb_eq_decide x
  have hint := x.toInt_eq_toNat_cond
  rw [fromInt64, fromUint64_exact]
  cases hs : x.msb with
  | false =>
    rw [hs] at hmsb
    have hlt := of_decide_eq_false hmsb.symm
    have hval : x.toInt = x.toNat := by
      rw [hint, if_pos (by omega)]
    rw [hval]
    simp
  | true =>
    rw [hs] at hmsb
    have hle := of_decide_eq_true hmsb.symm
    have hnot : (~~~x + 1#64).toNat = 2 ^ 64 - x.toNat := by
      rw [← BitVec.neg_eq_not_add, BitVec.toNat_neg]
      omega
    have hval : x.toInt = -((2 ^ 64 - x.toNat : ℕ) : ℤ) := by
      rw [hint, if_neg (by omega)]
      omega
    simp only [if_true]
    rw [hnot, hval]
    push_cast
    rfl

theorem fromUint64_finite (mag : BitVec 64) (sign : Bool) (k : TypeKind) :
    (fromUint64 mag sign k).cls ≠ .nan ∧ (fromUint64 mag sign k).cls ≠ .infinity := by
  unfold fromUint64
  split
  · exact ⟨nofun, nofun⟩
  · exact ⟨nofun, nofun⟩

/-- **The conversions are exact or rounded once**: to the nearest double, back to the double a
value came from, to the truncated integer, and from the integers without a loss. -/
theorem conversions_exact (hv : v.WellFormed) {d : BitVec 64} (hd : binary64.datum d ≠ .nan)
    (k : TypeKind) (mag x : BitVec 64) (sign : Bool) :
    binary64.datum v.toDouble = v.nearestDouble ∧
      (fromDouble d k).toDouble = d ∧
      (∀ n, v.toInt64 = some n ↔
        v.cls ≠ .nan ∧ v.cls ≠ .infinity ∧ truncate v.toRat = n.toInt) ∧
      ((fromUint64 mag sign k).cls ≠ .nan ∧ (fromUint64 mag sign k).cls ≠ .infinity ∧
        (fromUint64 mag sign k).toRat = if sign then -(mag.toNat : ℚ) else mag.toNat) ∧
      (fromInt64 x k).cls ≠ .nan ∧ (fromInt64 x k).cls ≠ .infinity ∧
        (fromInt64 x k).toRat = x.toInt := by
  obtain ⟨hnan, hinf⟩ := fromUint64_finite mag sign k
  obtain ⟨hnan', hinf'⟩ := fromUint64_finite (if x.msb then ~~~x + 1#64 else x) x.msb k
  exact ⟨datum_toDouble hv, toDouble_fromDouble hd k, toInt64_eq_some hv,
    ⟨hnan, hinf, fromUint64_exact mag sign k⟩, hnan', hinf', fromInt64_exact x k⟩

/-- A third in the precision of `F128`. -/
def third : WideFloatValue :=
  ⟨false, .normal, -2, 0xAAAAAAAAAAAAAAAA#64, 0xAAAAAAAAAAAA8000#64, .f128⟩

theorem third_wellFormed : third.WellFormed where
  supported := rfl
  integerBit _ := by decide
  precision _ := by decide
  exponent_le _ := by decide
  le_exponent _ := by decide

/-- A third loses its last sixty bits, the smallest double and the smallest integer nothing. -/
theorem conversions_exact_third :
    third ≠ fromDouble third.toDouble .f128 ∧
    binary64.datum third.toDouble = third.nearestDouble ∧
      (fromDouble 0x0000000000000001#64 .f128).toDouble = 0x0000000000000001#64 ∧
      (∀ n, third.toInt64 = some n ↔
        third.cls ≠ .nan ∧ third.cls ≠ .infinity ∧ truncate third.toRat = n.toInt) ∧
      ((fromUint64 7#64 true .f128).cls ≠ .nan ∧ (fromUint64 7#64 true .f128).cls ≠ .infinity ∧
        (fromUint64 7#64 true .f128).toRat =
          if true then -((7#64).toNat : ℚ) else (7#64).toNat) ∧
      (fromInt64 0x8000000000000000#64 .f128).cls ≠ .nan ∧
        (fromInt64 0x8000000000000000#64 .f128).cls ≠ .infinity ∧
        (fromInt64 0x8000000000000000#64 .f128).toRat = (0x8000000000000000#64).toInt := by
  refine ⟨by decide, conversions_exact third_wellFormed ?_ _ _ _ _⟩
  rw [IeeeFormat.datum, IeeeFormat.datumOf, if_pos (by decide)]
  intro h
  cases h

end DssPrime.WideFloatValue
