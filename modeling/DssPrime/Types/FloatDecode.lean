import Mathlib
import DssPrime.Types.FloatLiteral

/-!
# Wide float literals are correctly rounded

`decodeFloatWide` keeps the literal's exact value, as a big integer over a power of ten or with a
power of two, and rounds once.

On texts of fewer than a million characters the source's `int` and `long long` counters stay far
from the ends of their types; they are unbounded here.
-/

namespace DssPrime.NumberDecode

open Limbs (val)
open WideFloatValue (Rounds isSupportedKind)

/-- The end of both exact paths: the exponent is checked before the rounding. -/
def roundWindow (kind : TypeKind) (sign : Bool) (expLL : ℤ) (W : List (BitVec 64))
    (sticky : Bool) : Option WideFloatValue :=
  if 100000 < expLL then some (.infinity kind sign)
  else if expLL < -100000 then none
  else WideFloatValue.fromExactBinary kind sign expLL W sticky

def roundExactInteger (N : FloatMag) (scale2 : ℤ) (kind : TypeKind) (sign : Bool) :
    Option WideFloatValue :=
  let h := magBitLength N
  if h = 0 then some (.zero kind sign)
  else
    let lowBit : ℤ := h - 256
    let sticky := magAnyBitBelow N lowBit
    let W := magExtract256 N lowBit
    let expLL : ℤ := h - 1 + scale2
    roundWindow kind sign expLL W sticky

def quotientScale (M : FloatMag) (den10 : ℕ) : ℤ :=
  258 + magBitLength (magMulPow10 [1#64] den10) - magBitLength M

def scaledDivMod (M : FloatMag) (den10 : ℕ) : FloatMag × FloatMag :=
  let den := magMulPow10 [1#64] den10
  let s := quotientScale M den10
  if 0 ≤ s then magDivMod (magShiftLeft M s) den else magDivMod M (magShiftLeft den (-s))

def roundExactQuotient (M : FloatMag) (den10 : ℕ) (kind : TypeKind) (sign : Bool) :
    Option WideFloatValue :=
  let s := quotientScale M den10
  let QR := scaledDivMod M den10
  let h := magBitLength QR.1
  if h < 256 then none
  else
    let lowBit : ℤ := h - 256
    let sticky := magAnyBitBelow QR.1 lowBit || !magIsZero QR.2
    let W := magExtract256 QR.1 lowBit
    let expLL : ℤ := h - 1 - s
    roundWindow kind sign expLL W sticky

def roundDecimal (digits : List Char) (scale : ℤ) (kind : TypeKind) (sign : Bool) :
    Option WideFloatValue :=
  let M := digitsToMag digits 10#64
  if 0 ≤ scale then roundExactInteger (magMulPow10 M scale.toNat) 0 kind sign
  else roundExactQuotient M (-scale).toNat kind sign

def significantDigits (p : FloatLiteralParts) : List Char := p.digits.dropWhile (· == '0')

/-- The literal decoder; the source's `ok` flag is set exactly where a value is returned. -/
def decodeFloatWide (text : List Char) (ns : Option NumberStyle) (kind : TypeKind) :
    Option WideFloatValue :=
  if isSupportedKind kind = false then none
  else match parseFloatLiteralBody (floatLiteralBody text ns) with
    | none => none
    | some p =>
      let digits := significantDigits p
      if digits = [] then some (.zero kind p.sign)
      else if p.hex then
        roundExactInteger (digitsToMag digits 16#64) (p.exponent - 4 * p.pointShift) kind p.sign
      else
        let scale := p.exponent - p.pointShift
        let decade := scale + digits.length
        -- the magnitude pre-filter, before any big number is built
        if 5000 < decade then some (.infinity kind p.sign)
        else if decade < -5000 then none
        else if 20000 < digits.length then none
        else roundDecimal digits scale kind p.sign

variable {kind : TypeKind} {sign : Bool}

/-- **A full window is rounded once.** -/
theorem roundWindow_rounds (hk : isSupportedKind kind = true) {W : List (BitVec 64)}
    (hW : WideFloatValue.Reg W) (hlo : 2 ^ 255 ≤ val W) {δ : ℚ} (h0 : 0 ≤ δ) (h1 : δ < 1)
    {sticky : Bool} (hst : sticky = decide (δ ≠ 0)) (expLL : ℤ) :
    Rounds kind sign ((val W + δ) * 2 ^ (expLL - 255))
      (roundWindow kind sign expLL W sticky) := by
  have hpos : (0 : ℚ) < 2 ^ (expLL - 255) := zpow_pos (by norm_num) _
  have hloq : (2 : ℚ) ^ 255 ≤ val W + δ := by
    have : (2 : ℚ) ^ 255 ≤ val W := by exact_mod_cast hlo
    linarith
  have hhiq : (val W : ℚ) + δ < 2 ^ 256 := by
    have : (val W : ℚ) + 1 ≤ 2 ^ 256 := by exact_mod_cast hW.val_lt
    linarith
  have hscale : ∀ n : ℕ, (2 : ℚ) ^ n * 2 ^ (expLL - 255) = 2 ^ (n + (expLL - 255)) := by
    intro n
    rw [← zpow_natCast, ← zpow_add₀ (by norm_num)]
  rw [roundWindow]
  split_ifs with hbig hsmall
  · apply Rounds.of_huge
    calc (2 : ℚ) ^ (16500 : ℤ) ≤ 2 ^ ((255 : ℕ) + (expLL - 255)) :=
          zpow_le_zpow_right₀ (by norm_num) (by push_cast; omega)
      _ = 2 ^ 255 * 2 ^ (expLL - 255) := (hscale 255).symm
      _ ≤ _ := mul_le_mul_of_nonneg_right hloq hpos.le
  · apply Rounds.of_tiny
    · exact mul_pos (lt_of_lt_of_le (by positivity) hloq) hpos
    · calc ((val W : ℚ) + δ) * 2 ^ (expLL - 255) < 2 ^ 256 * 2 ^ (expLL - 255) :=
            mul_lt_mul_of_pos_right hhiq hpos
        _ = 2 ^ ((256 : ℕ) + (expLL - 255)) := hscale 256
        _ ≤ _ := zpow_le_zpow_right₀ (by norm_num) (by push_cast; omega)
  · have htop : WideFloatValue.getBit W 255 = true := by
      rw [WideFloatValue.getBit_eq, Nat.testBit_eq_decide_div_mod_eq, decide_eq_true_iff]
      have hdiv : val W / 2 ^ 255 = 1 :=
        Nat.div_eq_of_lt_le (by omega) (by have := hW.val_lt; omega)
      rw [hdiv]
    rw [WideFloatValue.fromExactBinary, if_neg (by rw [hk]; decide), if_neg (by rw [htop]; decide)]
    refine WideFloatValue.rounds_roundNormal hk hW hlo h0 ?_ hst sign expLL
    have hmod : ((val W % 2 ^ (255 - WideFloatValue.significandBits kind) : ℕ) : ℚ) + 1 ≤
        2 ^ (255 - WideFloatValue.significandBits kind) := by
      exact_mod_cast Nat.mod_lt (val W) (Nat.two_pow_pos _)
    linarith

/-- **An exact integer with a binary scale is rounded once.** -/
theorem roundExactInteger_rounds (hk : isSupportedKind kind = true) {N : FloatMag}
    (hN : 0 < val N) (scale2 : ℤ) :
    Rounds kind sign (val N * 2 ^ scale2) (roundExactInteger N scale2 kind sign) := by
  obtain ⟨δ, h0, h1, hst, hlo, hval⟩ :=
    magExtract256_spec hN (show (0 : ℚ) ≤ 0 from le_rfl) one_pos (fun h => absurd rfl h)
  have hh : magBitLength N ≠ 0 := by
    rw [magBitLength_eq, ne_eq, Nat.size_eq_zero]
    exact hN.ne'
  rw [add_zero] at hval
  have hz : decide ((0 : ℚ) ≠ 0) = false := by simp
  rw [hz, Bool.or_false] at hst
  have hm : (val N : ℚ) * 2 ^ scale2 = (val (magExtract256 N ((magBitLength N : ℤ) - 256)) + δ) *
      2 ^ ((magBitLength N : ℤ) - 1 + scale2 - 255) := by
    rw [hval, mul_assoc, ← zpow_add₀ (by norm_num)]
    congr 2
    ring
  rw [hm, roundExactInteger]
  simp only [if_neg hh]
  exact roundWindow_rounds hk (magExtract256_reg _ _) hlo h0 h1 hst _

theorem scaledDivMod_spec {M : FloatMag} (hM : 0 < val M) (den10 : ℕ) :
    ∃ N D : ℕ, 0 < D ∧ D * 2 ^ 255 ≤ N ∧ val (scaledDivMod M den10).1 = N / D ∧
      val (scaledDivMod M den10).2 = N % D ∧
      (N : ℚ) / D = val M / 10 ^ den10 * 2 ^ quotientScale M den10 := by
  have hden : val (magMulPow10 [1#64] den10) = 10 ^ den10 := by
    rw [val_magMulPow10]
    simp
  have hs : quotientScale M den10 = 258 + ((10 ^ den10 : ℕ).size : ℤ) - ((val M).size : ℤ) := by
    rw [quotientScale, magBitLength_eq, magBitLength_eq, hden]
  have hden0 : 0 < 10 ^ den10 := Nat.pow_pos (by decide)
  have hdlt := Nat.lt_size_self (10 ^ den10)
  have hMsz : 0 < (val M).size := Nat.size_pos.mpr hM
  have hMge : 2 ^ ((val M).size - 1) ≤ val M := Nat.lt_size.mp (by omega)
  have hcast : ((10 ^ den10 : ℕ) : ℚ) = 10 ^ den10 := by push_cast; rfl
  rw [scaledDivMod]
  generalize quotientScale M den10 = s at hs ⊢
  by_cases h0 : 0 ≤ s
  · obtain ⟨t, rfl⟩ : ∃ t : ℕ, s = t := ⟨s.toNat, by omega⟩
    have hspec := magDivMod_spec (magShiftLeft M t) (D := magMulPow10 [1#64] den10)
      (by rw [hden]; exact hden0)
    rw [if_pos h0]
    refine ⟨val M * 2 ^ t, 10 ^ den10, hden0, ?_, ?_, ?_, ?_⟩
    · calc 10 ^ den10 * 2 ^ 255 ≤ 2 ^ (10 ^ den10 : ℕ).size * 2 ^ 255 :=
            Nat.mul_le_mul_right _ hdlt.le
        _ ≤ 2 ^ ((val M).size - 1) * 2 ^ t := by
            rw [← pow_add, ← pow_add]
            exact Nat.pow_le_pow_right (by decide) (by omega)
        _ ≤ _ := Nat.mul_le_mul_right _ hMge
    · rw [hspec.1, val_magShiftLeft, hden]
    · rw [hspec.2, val_magShiftLeft, hden]
    · rw [zpow_natCast, hcast]
      push_cast
      ring
  · obtain ⟨t, ht⟩ : ∃ t : ℕ, s = -(t : ℤ) := ⟨(-s).toNat, by omega⟩
    subst ht
    have hDval :
        val (magShiftLeft (magMulPow10 [1#64] den10) (- -(t : ℤ))) = 10 ^ den10 * 2 ^ t := by
      rw [neg_neg, val_magShiftLeft, hden]
    have hspec := magDivMod_spec M (D := magShiftLeft (magMulPow10 [1#64] den10) (- -(t : ℤ)))
      (by rw [hDval]; exact Nat.mul_pos hden0 (Nat.two_pow_pos t))
    rw [if_neg h0]
    refine ⟨val M, 10 ^ den10 * 2 ^ t, Nat.mul_pos hden0 (Nat.two_pow_pos t), ?_, ?_, ?_, ?_⟩
    · calc 10 ^ den10 * 2 ^ t * 2 ^ 255 ≤ 2 ^ (10 ^ den10 : ℕ).size * 2 ^ t * 2 ^ 255 :=
            Nat.mul_le_mul_right _ (Nat.mul_le_mul_right _ hdlt.le)
        _ ≤ 2 ^ ((val M).size - 1) := by
            rw [← pow_add, ← pow_add]
            exact Nat.pow_le_pow_right (by decide) (by omega)
        _ ≤ _ := hMge
    · rw [hspec.1, hDval]
    · rw [hspec.2, hDval]
    · rw [zpow_neg, zpow_natCast]
      push_cast
      field_simp

/-- **The quotient fills the window.** -/
theorem bitLength_scaledDivMod {M : FloatMag} (hM : 0 < val M) (den10 : ℕ) :
    256 ≤ magBitLength (scaledDivMod M den10).1 := by
  obtain ⟨N, D, hD, hle, hQ, -, -⟩ := scaledDivMod_spec hM den10
  have hge : 2 ^ 255 ≤ N / D := by
    rw [Nat.le_div_iff_mul_le hD, mul_comm]
    exact hle
  rw [magBitLength_eq, hQ]
  exact Nat.lt_size.mpr hge

/-- **A decimal fraction is rounded once**: the remainder of the division counts as sticky. -/
theorem roundExactQuotient_rounds (hk : isSupportedKind kind = true) {M : FloatMag}
    (hM : 0 < val M) (den10 : ℕ) :
    Rounds kind sign (val M / 10 ^ den10) (roundExactQuotient M den10 kind sign) := by
  have hlen := bitLength_scaledDivMod hM den10
  obtain ⟨N, D, hD, hle, hQ, hR, hND⟩ := scaledDivMod_spec hM den10
  have hDq : (0 : ℚ) < D := by exact_mod_cast hD
  have hQpos : 0 < val (scaledDivMod M den10).1 := by
    rw [hQ]
    exact Nat.div_pos (le_trans (Nat.le_mul_of_pos_right D (Nat.two_pow_pos 255)) hle) hD
  have hρ1 : ((N % D : ℕ) : ℚ) / D < 1 := by
    rw [div_lt_one hDq]
    exact_mod_cast Nat.mod_lt N hD
  obtain ⟨δ, h0, h1, hst, hlo, hval⟩ := magExtract256_spec hQpos
    (show (0 : ℚ) ≤ ((N % D : ℕ) : ℚ) / D by positivity) hρ1 (fun _ => hlen)
  have hsticky : (!magIsZero (scaledDivMod M den10).2) =
      decide (((N % D : ℕ) : ℚ) / D ≠ 0) := by
    rw [magIsZero_eq, hR, ← decide_not, Bool.eq_iff_iff, decide_eq_true_iff, decide_eq_true_iff,
      ne_eq, div_eq_zero_iff, or_iff_left hDq.ne', Nat.cast_eq_zero]
  have hsum : (val (scaledDivMod M den10).1 : ℚ) + ((N % D : ℕ) : ℚ) / D = (N : ℚ) / D := by
    rw [hQ, eq_div_iff hDq.ne', add_mul, div_mul_cancel₀ _ hDq.ne']
    exact_mod_cast Nat.div_add_mod' N D
  have hm : (val M : ℚ) / 10 ^ den10 =
      (val (magExtract256 (scaledDivMod M den10).1
        ((magBitLength (scaledDivMod M den10).1 : ℤ) - 256)) + δ) *
      2 ^ ((magBitLength (scaledDivMod M den10).1 : ℤ) - 1 - quotientScale M den10 - 255) := by
    have hz : (2 : ℚ) ^ quotientScale M den10 ≠ 0 := zpow_ne_zero _ (by norm_num)
    rw [← mul_right_cancel_iff_of_pos (zpow_pos (by norm_num : (0 : ℚ) < 2)
      (quotientScale M den10)), ← hND, ← hsum, hval, mul_assoc, ← zpow_add₀ (by norm_num)]
    congr 2
    ring
  rw [hm, roundExactQuotient]
  simp only [if_neg (not_lt.2 hlen)]
  rw [hsticky]
  exact roundWindow_rounds hk (magExtract256_reg _ _) hlo h0 h1 hst _

theorem digitNat_pos {hex : Bool} {c : Char} (h : isDigit hex c = true) (h0 : c ≠ '0') :
    0 < digitNat c := by
  have hge : 48 ≤ c.toNat := by
    cases hex
    · simp only [isDigit, isDec, Bool.false_eq_true, if_false, decide_eq_true_eq] at h
      exact h.1
    · simp only [isDigit, isHex, if_true, decide_eq_true_eq] at h
      rcases h with ⟨h, -⟩ | ⟨h, -⟩ | ⟨h, -⟩
      · exact h
      · exact le_trans (by decide) (show 97 ≤ c.toNat from h)
      · exact le_trans (by decide) (show 65 ≤ c.toNat from h)
  have hne : c.toNat ≠ 48 := fun he => h0 (Char.toNat_inj.1 he)
  have e0 : '0'.toNat = 48 := rfl
  rw [digitNat]
  split_ifs <;> omega

theorem numeral_dropWhile (base : ℕ) (ds : List Char) :
    numeral base (ds.dropWhile (· == '0')) = numeral base ds := by
  induction ds with
  | nil => rfl
  | cons c ds ih =>
    by_cases hc : c = '0'
    · subst hc
      have h0 : digitNat '0' = 0 := by decide
      rw [List.dropWhile_cons_of_pos (by decide), ih, numeral_cons, h0, Nat.zero_mul, Nat.zero_add]
    · rw [List.dropWhile_cons_of_neg (by simpa using hc)]

theorem pow_le_numeral {hex : Bool} {ds : List Char} (h : ∀ c ∈ ds, isDigit hex c = true)
    (hne : ds.dropWhile (· == '0') ≠ []) :
    digitBase hex ^ ((ds.dropWhile (· == '0')).length - 1) ≤
      numeral (digitBase hex) (ds.dropWhile (· == '0')) := by
  induction ds with
  | nil => exact absurd rfl hne
  | cons c ds ih =>
    by_cases hc : c = '0'
    · rw [List.dropWhile_cons_of_pos (by simp [hc])] at hne ⊢
      exact ih (fun d hd => h d (List.mem_cons_of_mem _ hd)) hne
    · rw [List.dropWhile_cons_of_neg (by simpa using hc), List.length_cons, numeral_cons]
      have hpos := digitNat_pos (h c (List.mem_cons_self ..)) hc
      calc digitBase hex ^ (ds.length + 1 - 1) = 1 * digitBase hex ^ ds.length := by
            rw [Nat.add_sub_cancel, Nat.one_mul]
        _ ≤ digitNat c * digitBase hex ^ ds.length := Nat.mul_le_mul_right _ hpos
        _ ≤ _ := Nat.le_add_right _ _

theorem zpow_le_ten_zpow {k : ℤ} (h : 5000 ≤ k) : (2 : ℚ) ^ (16500 : ℤ) ≤ 10 ^ k := by
  have hpow : (2 : ℚ) ^ (16500 : ℤ) ≤ 10 ^ (5000 : ℤ) := by
    have e2 : (16500 : ℤ) = ((33 * 500 : ℕ) : ℤ) := by norm_num
    have e10 : (5000 : ℤ) = ((10 * 500 : ℕ) : ℤ) := by norm_num
    rw [e2, e10, zpow_natCast, zpow_natCast, pow_mul, pow_mul]
    exact pow_le_pow_left₀ (by norm_num) (by norm_num) 500
  exact hpow.trans (zpow_le_zpow_right₀ (by norm_num) h)

theorem ten_zpow_le_zpow {k : ℤ} (h : k ≤ -5000) : (10 : ℚ) ^ k ≤ 2 ^ (-16500 : ℤ) := by
  have hinv := zpow_le_ten_zpow (k := -k) (by omega)
  have h2 : (0 : ℚ) < 2 ^ (16500 : ℤ) := zpow_pos (by norm_num) _
  have hneg : (2 : ℚ) ^ (-16500 : ℤ) = ((2 : ℚ) ^ (16500 : ℤ))⁻¹ := zpow_neg _ _
  have hpos : (0 : ℚ) < 10 ^ k := zpow_pos (by norm_num) _
  rw [hneg]
  generalize (2 : ℚ) ^ (16500 : ℤ) = B at hinv h2 ⊢
  rw [zpow_neg] at hinv
  exact (le_inv_comm₀ h2 hpos).1 hinv

/-- **The exact decimal path rounds once.** -/
theorem roundDecimal_rounds (hk : isSupportedKind kind = true) {digits : List Char}
    (hd : ∀ c ∈ digits, isDigit false c = true) (hpos : 0 < numeral 10 digits) (scale : ℤ) :
    Rounds kind sign (numeral 10 digits * 10 ^ scale) (roundDecimal digits scale kind sign) := by
  have hM : val (digitsToMag digits 10#64) = numeral 10 digits := val_digitsToMag hd
  rw [roundDecimal]
  by_cases h0 : 0 ≤ scale
  · obtain ⟨t, rfl⟩ : ∃ t : ℕ, scale = t := ⟨scale.toNat, by omega⟩
    have hval : val (magMulPow10 (digitsToMag digits 10#64) t) = numeral 10 digits * 10 ^ t := by
      rw [val_magMulPow10, hM]
    have hr : Rounds kind sign _ _ := roundExactInteger_rounds hk
      (show 0 < val (magMulPow10 (digitsToMag digits 10#64) t) by
        rw [hval]
        exact Nat.mul_pos hpos (Nat.pow_pos (by decide))) 0
    rw [hval, zpow_zero, mul_one] at hr
    rw [if_pos h0, Int.toNat_natCast, zpow_natCast]
    exact_mod_cast hr
  · obtain ⟨t, ht⟩ : ∃ t : ℕ, scale = -(t : ℤ) := ⟨(-scale).toNat, by omega⟩
    subst ht
    have hr : Rounds kind sign _ _ := roundExactQuotient_rounds hk
      (show 0 < val (digitsToMag digits 10#64) by rw [hM]; exact hpos) t
    rw [hM, div_eq_mul_inv] at hr
    rw [if_neg h0, neg_neg, Int.toNat_natCast, zpow_neg, zpow_natCast]
    exact hr

/-- **The pre-filter never changes the answer**, nor does the cap on the digits it lets through. -/
theorem decade_filter (hk : isSupportedKind kind = true) {ds : List Char}
    (hd : ∀ c ∈ ds, isDigit false c = true) (hne : ds.dropWhile (· == '0') ≠ [])
    (hcap : (ds.dropWhile (· == '0')).length ≤ 20000) (scale : ℤ) :
    (if 5000 < scale + (ds.dropWhile (· == '0')).length then some (.infinity kind sign)
      else if scale + (ds.dropWhile (· == '0')).length < -5000 then none
      else if 20000 < (ds.dropWhile (· == '0')).length then none
      else roundDecimal (ds.dropWhile (· == '0')) scale kind sign) =
    roundDecimal (ds.dropWhile (· == '0')) scale kind sign := by
  have hsig : ∀ c ∈ ds.dropWhile (· == '0'), isDigit false c = true :=
    fun c hc => hd c (List.dropWhile_subset _ hc)
  have hge := pow_le_numeral hd hne
  have hlt := numeral_lt hsig
  have hlen : 0 < (ds.dropWhile (· == '0')).length := List.length_pos_of_ne_nil hne
  rw [show digitBase false = 10 from rfl] at hge hlt
  generalize ds.dropWhile (· == '0') = digits at *
  have hpos : 0 < numeral 10 digits := lt_of_lt_of_le (Nat.pow_pos (by decide)) hge
  have hr : Rounds kind sign _ _ := roundDecimal_rounds hk hsig hpos scale
  have hten : (0 : ℚ) < 10 ^ scale := zpow_pos (by norm_num) _
  have hgeq : ((10 : ℚ) ^ (digits.length - 1)) ≤ numeral 10 digits := by exact_mod_cast hge
  have hltq : (numeral 10 digits : ℚ) < 10 ^ digits.length := by exact_mod_cast hlt
  have hposq : (0 : ℚ) < numeral 10 digits := by exact_mod_cast hpos
  split_ifs with hhi hlo hmany
  · -- at least `10 ^ 5000`
    have hhuge : (2 : ℚ) ^ (16500 : ℤ) ≤ numeral 10 digits * 10 ^ scale :=
      calc (2 : ℚ) ^ (16500 : ℤ) ≤ 10 ^ (((digits.length - 1 : ℕ) : ℤ) + scale) :=
            zpow_le_ten_zpow (by omega)
        _ = 10 ^ (digits.length - 1) * 10 ^ scale := by
            rw [zpow_add₀ (by norm_num), zpow_natCast]
        _ ≤ _ := mul_le_mul_of_nonneg_right hgeq hten.le
    have hinf : Rounds kind sign (numeral 10 digits * 10 ^ scale)
        (some (.infinity kind sign)) := Rounds.of_huge hhuge
    exact (hr.overflow.2 (hinf.overflow.1 rfl)).symm
  · have htiny : (numeral 10 digits : ℚ) * 10 ^ scale < 2 ^ (-16500 : ℤ) :=
      calc (numeral 10 digits : ℚ) * 10 ^ scale < 10 ^ digits.length * 10 ^ scale :=
            mul_lt_mul_of_pos_right hltq hten
        _ = 10 ^ ((digits.length : ℤ) + scale) := by rw [zpow_add₀ (by norm_num), zpow_natCast]
        _ ≤ _ := ten_zpow_le_zpow (by omega)
    have hnone : Rounds kind sign (numeral 10 digits * 10 ^ scale) none :=
      Rounds.of_tiny (mul_pos hposq hten) htiny
    exact (hr.underflow.2 (hnone.underflow.1 rfl)).symm
  · exact absurd hmany (not_lt.2 hcap)
  · rfl

def scaledMantissa (hex : Bool) (n f : ℕ) (e : ℤ) : ℚ :=
  n * if hex then 2 ^ (e - 4 * f) else 10 ^ (e - f)

theorem scaledMantissa_pos {hex : Bool} {n f : ℕ} (hn : 0 < n) (e : ℤ) :
    0 < scaledMantissa hex n f e := by
  have hnq : (0 : ℚ) < n := by exact_mod_cast hn
  rw [scaledMantissa]
  cases hex
  · exact mul_pos hnq (zpow_pos (by norm_num) _)
  · exact mul_pos hnq (zpow_pos (by norm_num) _)

theorem scaledMantissa_huge {hex : Bool} {n f : ℕ} (hn : 0 < n) (hf : f < 1000000) {e : ℤ}
    (he : 1000000000 ≤ e) : (2 : ℚ) ^ (16500 : ℤ) ≤ scaledMantissa hex n f e := by
  have hnq : (1 : ℚ) ≤ n := by exact_mod_cast hn
  rw [scaledMantissa]
  cases hex
  · have hz : (2 : ℚ) ^ (16500 : ℤ) ≤ 10 ^ (e - f) := zpow_le_ten_zpow (by omega)
    calc (2 : ℚ) ^ (16500 : ℤ) ≤ 1 * 10 ^ (e - f) := by rw [one_mul]; exact hz
      _ ≤ _ := mul_le_mul_of_nonneg_right hnq (zpow_pos (by norm_num) _).le
  · have hz : (2 : ℚ) ^ (16500 : ℤ) ≤ 2 ^ (e - 4 * f) :=
      zpow_le_zpow_right₀ (by norm_num) (by omega)
    calc (2 : ℚ) ^ (16500 : ℤ) ≤ 1 * 2 ^ (e - 4 * f) := by rw [one_mul]; exact hz
      _ ≤ _ := mul_le_mul_of_nonneg_right hnq (zpow_pos (by norm_num) _).le

theorem scaledMantissa_tiny {hex : Bool} {n f l : ℕ} (hn : n < digitBase hex ^ l)
    (hl : l < 1000000) {e : ℤ} (he : e ≤ -1000000000) :
    scaledMantissa hex n f e < (2 : ℚ) ^ (-16500 : ℤ) := by
  have hnq : (n : ℚ) < digitBase hex ^ l := by exact_mod_cast hn
  rw [scaledMantissa]
  cases hex
  · rw [show digitBase false = 10 from rfl] at hnq
    push_cast at hnq
    calc (n : ℚ) * 10 ^ (e - f) < 10 ^ l * 10 ^ (e - f) :=
          mul_lt_mul_of_pos_right hnq (zpow_pos (by norm_num) _)
      _ = 10 ^ ((l : ℤ) + (e - f)) := by rw [zpow_add₀ (by norm_num), zpow_natCast]
      _ ≤ _ := ten_zpow_le_zpow (by omega)
  · have h16 : ((16 : ℕ) : ℚ) ^ l = 2 ^ (4 * l) := by
      rw [pow_mul]
      norm_num
    rw [show digitBase true = 16 from rfl, h16] at hnq
    calc (n : ℚ) * 2 ^ (e - 4 * f) < 2 ^ (4 * l) * 2 ^ (e - 4 * f) :=
          mul_lt_mul_of_pos_right hnq (zpow_pos (by norm_num) _)
      _ = 2 ^ (((4 * l : ℕ) : ℤ) + (e - 4 * f)) := by
          rw [zpow_add₀ (by norm_num), zpow_natCast]
      _ ≤ _ := zpow_le_zpow_right₀ (by norm_num) (by push_cast; omega)

theorem literalMagnitude_eq (s : List Char) :
    literalMagnitude s = scaledMantissa (unsignedBody s).1
      (numeral (literalBase s) (wholeDigits s ++ fractionDigits s)) (fractionDigits s).length
      (literalExponent s) := by
  rw [literalMagnitude, scaledMantissa, literalBase]
  generalize (fractionDigits s).length = f
  cases (unsignedBody s).1
  · simp only [Bool.false_eq_true, if_false]
    rw [zpow_sub₀ (by norm_num), zpow_natCast]
    push_cast
    ring
  · simp only [if_true]
    have h16 : ((16 : ℕ) : ℚ) ^ f = 2 ^ (4 * (f : ℤ)) := by
      rw [zpow_mul, zpow_natCast]
      norm_num
    rw [zpow_sub₀ (by norm_num), h16]
    ring

theorem rounds_of_saturates {hex : Bool} {n f l : ℕ} (hn : 0 < n) (hlt : n < digitBase hex ^ l)
    (hl : l < 1000000) (hf : f ≤ l) {x e : ℤ} (hx : Saturates x e) {r : Option WideFloatValue}
    (h : Rounds kind sign (scaledMantissa hex n f x) r) :
    Rounds kind sign (scaledMantissa hex n f e) r := by
  rcases hx with rfl | ⟨hx, he⟩ | ⟨hx, he⟩
  · exact h
  · exact h.of_both_huge (scaledMantissa_huge hn (by omega) hx)
      (scaledMantissa_huge hn (by omega) he)
  · exact h.of_both_tiny (scaledMantissa_pos hn x) (scaledMantissa_tiny hlt hl hx)
      (scaledMantissa_pos hn e) (scaledMantissa_tiny hlt hl he)

/-- **Wide literals are correctly rounded.**  An accepted text of fewer than a million characters
and, when it is decimal, at most 20000 significant digits decodes to its exact value rounded once:
a zero mantissa to the signed zero, any other to the value `Rounds` describes.  The decade filter
agrees with the exact path behind it, and the quotient of that path always fills the window. -/
theorem decodeFloatWide_exact (text : List Char) (ns : Option NumberStyle) {kind : TypeKind}
    (hk : isSupportedKind kind = true) {s : List Char} (hs : floatLiteralBody text ns = s)
    {p : FloatLiteralParts} (hp : parseFloatLiteralBody s = some p) (hlen : s.length < 1000000)
    (hcap : p.hex = false → (significantDigits p).length ≤ 20000) :
    (literalMagnitude s = 0 →
      decodeFloatWide text ns kind = some (.zero kind (literalNegative s))) ∧
    (literalMagnitude s ≠ 0 →
      Rounds kind (literalNegative s) (literalMagnitude s) (decodeFloatWide text ns kind)) ∧
    (literalMagnitude s ≠ 0 → p.hex = false →
      decodeFloatWide text ns kind =
        roundDecimal (significantDigits p) (p.exponent - p.pointShift) kind p.sign) ∧
    ∀ (M : FloatMag) (den10 : ℕ), 0 < val M → 256 ≤ magBitLength (scaledDivMod M den10).1 := by
  have hparse := parseFloatLiteralBody_spec hp
  have hmag := literalMagnitude_eq s
  have hbase : literalBase s = digitBase p.hex := by
    rw [literalBase, digitBase, hparse.hex]
  rw [← hparse.digits, hbase, ← hparse.hex, ← hparse.pointShift] at hmag
  rw [← hparse.sign]
  have hdecode : decodeFloatWide text ns kind =
      if significantDigits p = [] then some (.zero kind p.sign)
      else if p.hex then roundExactInteger (digitsToMag (significantDigits p) 16#64)
        (p.exponent - 4 * p.pointShift) kind p.sign
      else if 5000 < p.exponent - p.pointShift + (significantDigits p).length then
        some (.infinity kind p.sign)
      else if p.exponent - p.pointShift + (significantDigits p).length < -5000 then none
      else if 20000 < (significantDigits p).length then none
      else roundDecimal (significantDigits p) (p.exponent - p.pointShift) kind p.sign := by
    rw [decodeFloatWide, if_neg (by rw [hk]; decide), hs, hp]
  have hnum : numeral (digitBase p.hex) (significantDigits p) =
      numeral (digitBase p.hex) p.digits := numeral_dropWhile _ _
  have hsig : ∀ c ∈ significantDigits p, isDigit p.hex c = true :=
    fun c hc => hparse.isDigit c (List.dropWhile_subset _ hc)
  have hpl := hparse.length_le
  have hfl : p.pointShift ≤ p.digits.length := by
    rw [hparse.pointShift, hparse.digits, List.length_append]
    omega
  by_cases hnil : significantDigits p = []
  · -- all digits are zero
    have hz : literalMagnitude s = 0 := by
      rw [hmag, ← hnum, hnil, numeral_nil, scaledMantissa, Nat.cast_zero, zero_mul]
    rw [hdecode, if_pos hnil]
    exact ⟨fun _ => rfl, fun h => absurd hz h, fun h => absurd hz h,
      fun M den10 hM => bitLength_scaledDivMod hM den10⟩
  · have hpos : 0 < numeral (digitBase p.hex) p.digits := by
      have hge := pow_le_numeral hparse.isDigit hnil
      rw [numeral_dropWhile] at hge
      exact lt_of_lt_of_le (Nat.pow_pos (by cases p.hex <;> decide)) hge
    have hlt := numeral_lt hparse.isDigit
    rw [if_neg hnil] at hdecode
    have hne : literalMagnitude s ≠ 0 := by
      rw [hmag]
      exact (scaledMantissa_pos hpos _).ne'
    have hunfiltered : p.hex = false → decodeFloatWide text ns kind =
        roundDecimal (significantDigits p) (p.exponent - p.pointShift) kind p.sign := by
      intro hhex
      rw [hdecode, if_neg (by rw [hhex]; decide)]
      have hdig := hparse.isDigit
      rw [hhex] at hdig
      exact decade_filter hk hdig hnil (hcap hhex) _
    refine ⟨fun h => absurd h hne, fun _ => ?_, fun _ => hunfiltered,
      fun M den10 hM => bitLength_scaledDivMod hM den10⟩
    rw [hmag]
    refine rounds_of_saturates hpos hlt (by omega) hfl hparse.exponent ?_
    cases hhex : p.hex with
    | false =>
      rw [hunfiltered hhex, ← hhex, ← hnum, hhex, scaledMantissa]
      rw [hhex] at hsig hnum hpos
      exact roundDecimal_rounds hk hsig (by rw [← hnum] at hpos; exact hpos) _
    | true =>
      rw [hdecode, if_pos hhex, ← hhex, ← hnum, hhex, scaledMantissa]
      rw [hhex] at hsig hnum hpos
      have hM : val (digitsToMag (significantDigits p) 16#64) =
          numeral (digitBase true) (significantDigits p) := val_digitsToMag hsig
      rw [← hM]
      exact roundExactInteger_rounds hk (by rw [hM, hnum]; exact hpos) _

theorem decodeFloatWide_exact_separated :
    Rounds .f80 true (literalMagnitude "-1000.5e-3".toList)
      (decodeFloatWide "-1_000.5e-3L".toList (some ⟨[['l'], ['L']], some '_'⟩) .f80) :=
  (decodeFloatWide_exact "-1_000.5e-3L".toList (some ⟨[['l'], ['L']], some '_'⟩) (by decide)
    (show floatLiteralBody _ _ = "-1000.5e-3".toList by decide)
    (show parseFloatLiteralBody "-1000.5e-3".toList =
      some ⟨true, false, "10005".toList, 1, -3⟩ by decide)
    (by decide) (fun _ => by decide)).2.1 (by
      rw [literalMagnitude_eq]
      exact (scaledMantissa_pos (by decide) _).ne')

end DssPrime.NumberDecode
