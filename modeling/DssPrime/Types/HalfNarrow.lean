import Mathlib
import DssPrime.Bits.RoundTwice

/-!
# Narrowing to half precision

`narrowToHalf` goes through a `float`, rounds its 24-bit significand to the grid of the halves and
writes the half back as a `double`. The host's two conversions are parameters; `HostConverts` says
what they do on the way of one number.

A carry out of the subnormal mantissa is cut off and leaves a zero (`CarryLost`), and the way
through `float` can end on a tie that goes against the number (`TieLost`).
-/

namespace DssPrime.NumberDecode

open Bits (roundEven IeeeFormat IeeeDatum toNat_field_or toNat_and_mask toNat_ushiftRight_eq)
open Bits.IeeeFormat (binary64 binary32 binary16)

def halfOfFloat (bits : BitVec 32) : BitVec 16 :=
  let sign := (bits >>> 31) &&& 1#32
  let exp32 := (bits >>> 23) &&& 0xFF#32
  let mant32 := bits &&& 0x7FFFFF#32
  if exp32 = 0xFF#32 then
    ((sign <<< 15) ||| ((0x1F#32 <<< 10) |||
      (if mant32 ≠ 0#32 then (mant32 >>> 13) ||| 0x200#32 else 0#32))).setWidth 16
  else if exp32 = 0#32 then (sign <<< 15).setWidth 16
  else
    let e := (exp32.toNat : ℤ) - 127 + 15
    if 0x1F ≤ e then ((sign <<< 15) ||| (0x1F#32 <<< 10)).setWidth 16
    else if e ≤ 0 then
      let mant := mant32 ||| 0x800000#32
      let shift := (14 - e).toNat
      if 25 ≤ shift then (sign <<< 15).setWidth 16
      else
        let rounded := mant >>> shift
        let rem := mant &&& ((1#32 <<< shift) - 1#32)
        let halfLsb := 1#32 <<< (shift - 1)
        let out :=
          if halfLsb < rem ∨ (rem = halfLsb ∧ rounded &&& 1#32 ≠ 0#32) then rounded + 1#32
          else rounded
        ((sign <<< 15) ||| (out &&& 0x3FF#32)).setWidth 16
    else
      let rounded := mant32 >>> 13
      let rem := mant32 &&& 0x1FFF#32
      let halfLsb := 0x1000#32
      let up := halfLsb < rem ∨ (rem = halfLsb ∧ rounded &&& 1#32 ≠ 0#32)
      let out := if up then rounded + 1#32 else rounded
      if up ∧ out = 0x400#32 then
        if 0x1F ≤ e + 1 then ((sign <<< 15) ||| (0x1F#32 <<< 10)).setWidth 16
        else ((sign <<< 15) ||| (BitVec.ofInt 32 (e + 1) <<< 10)).setWidth 16
      else
        ((sign <<< 15) ||| ((BitVec.ofInt 32 e <<< 10) ||| (out &&& 0x3FF#32))).setWidth 16

def normalizeHalf : ℕ → BitVec 32 → ℤ → BitVec 32 × ℤ
  | 0, m, e => (m, e)
  | fuel + 1, m, e =>
    if m &&& 0x400#32 = 0#32 then normalizeHalf fuel (m <<< 1) (e - 1) else (m, e)

def floatOfHalf (half : BitVec 16) : BitVec 32 :=
  let wsign := (half.setWidth 32 >>> 15) &&& 1#32
  let wexp := (half.setWidth 32 >>> 10) &&& 0x1F#32
  let wmant := half.setWidth 32 &&& 0x3FF#32
  if wexp = 0x1F#32 then (wsign <<< 31) ||| ((0xFF#32 <<< 23) ||| (wmant <<< 13))
  else if wexp = 0#32 then
    if wmant = 0#32 then wsign <<< 31
    else
      let r := normalizeHalf 10 wmant (-1)
      (wsign <<< 31) ||| ((BitVec.ofInt 32 (127 - 14 + r.2 + 1) <<< 23) |||
        ((r.1 &&& 0x3FF#32) <<< 13))
  else
    (wsign <<< 31) ||| ((BitVec.ofInt 32 ((wexp.toNat : ℤ) - 15 + 127) <<< 23) ||| (wmant <<< 13))

def narrowToHalf (toFloat : BitVec 64 → BitVec 32) (toDouble : BitVec 32 → BitVec 64)
    (dv : BitVec 64) : BitVec 64 :=
  toDouble (floatOfHalf (halfOfFloat (toFloat dv)))

/-- On the way of `dv` the host rounds to the nearest float, ties to even, and keeps the value of
the float it turns into a double. -/
structure HostConverts (toFloat : BitVec 64 → BitVec 32) (toDouble : BitVec 32 → BitVec 64)
    (dv : BitVec 64) : Prop where
  narrows : ∀ s x, binary64.datum dv = .finite s x →
    binary32.datum (toFloat dv) = binary32.narrow s x
  widens : binary64.datum (narrowToHalf toFloat toDouble dv) =
    binary32.datum (floatOfHalf (halfOfFloat (toFloat dv)))

/-- The float lies below the least normal half and rounds up to it. -/
def CarryLost (x : ℚ) : Prop :=
  2047 * 2 ^ (-25 : ℤ) ≤ binary32.round x ∧ binary32.round x < 2 ^ (-14 : ℤ)

instance (x : ℚ) : Decidable (CarryLost x) := inferInstanceAs (Decidable (_ ∧ _))

/-- The float is a tie between two halves that goes against the number. -/
def TieLost (x : ℚ) : Prop :=
  binary32.round x < 2 ^ (16 : ℤ) ∧ binary16.TieAgainst x (binary32.round x)

variable {s : Bool} {x y : ℚ}

theorem float_fields (bits : BitVec 32) :
    ((bits >>> 31) &&& 1#32).toNat = bits.msb.toNat ∧
      ((bits >>> 23) &&& 0xFF#32).toNat = bits.toNat % 2 ^ 31 / 2 ^ 23 ∧
      (bits &&& 0x7FFFFF#32).toNat = bits.toNat % 2 ^ 31 % 2 ^ 23 := by
  have hlt := bits.isLt
  refine ⟨?_, ?_, ?_⟩
  · rw [toNat_and_mask _ (show (1#32).toNat = 2 ^ 1 - 1 from rfl), toNat_ushiftRight_eq,
      BitVec.msb_eq_decide]
    by_cases h : 2 ^ (32 - 1) ≤ bits.toNat
    · rw [decide_eq_true h, Bool.toNat_true]
      omega
    · rw [decide_eq_false h, Bool.toNat_false]
      omega
  · rw [toNat_and_mask _ (show (0xFF#32).toNat = 2 ^ 8 - 1 from rfl), toNat_ushiftRight_eq]
    omega
  · rw [toNat_and_mask _ (show (0x7FFFFF#32).toNat = 2 ^ 23 - 1 from rfl)]
    omega

theorem datum_half {S n : BitVec 32} (hS : S.toNat = s.toNat) (hn : n.toNat < 2 ^ 15) :
    binary16.datum (((S <<< 15) ||| n).setWidth 16) = binary16.datumOf s n.toNat := by
  have hs := s.toNat_le
  refine IeeeFormat.datum_of_toNat ?_ hn
  rw [BitVec.toNat_setWidth, toNat_field_or (by omega) hn, hS]
  omega

theorem datum_half_zero {S : BitVec 32} (hS : S.toNat = s.toNat) :
    binary16.datum ((S <<< 15).setWidth 16) = .finite s 0 := by
  have h := datum_half (n := 0#32) hS (by decide)
  rw [BitVec.or_zero] at h
  rw [h, BitVec.toNat_ofNat, Nat.zero_mod, IeeeFormat.datumOf_zero]

theorem roundsUp_iff (mant : BitVec 32) {l : ℕ} (hl : l + 1 < 32) :
    ((1#32 <<< l) < (mant &&& ((1#32 <<< (l + 1)) - 1#32)) ∨
      ((mant &&& ((1#32 <<< (l + 1)) - 1#32)) = (1#32 <<< l) ∧
        (mant >>> (l + 1)) &&& 1#32 ≠ 0#32)) ↔
      (2 ^ l < mant.toNat % 2 ^ (l + 1) ∨
        (mant.toNat % 2 ^ (l + 1) = 2 ^ l ∧ mant.toNat / 2 ^ (l + 1) % 2 = 1)) := by
  have hone : ∀ n : ℕ, n < 32 → (1#32 <<< n).toNat = 2 ^ n := by
    intro n hn
    rw [BitVec.toNat_shiftLeft, BitVec.toNat_ofNat, Nat.shiftLeft_eq, Nat.one_mod, Nat.one_mul]
    exact Nat.mod_eq_of_lt (Nat.pow_lt_pow_right (by decide) hn)
  have hmask : ((1#32 <<< (l + 1)) - 1#32).toNat = 2 ^ (l + 1) - 1 := by
    have hlt : 2 ^ (l + 1) < 2 ^ 32 := Nat.pow_lt_pow_right (by decide) hl
    have hpos := Nat.two_pow_pos (l + 1)
    rw [BitVec.toNat_sub, hone _ hl, BitVec.toNat_ofNat]
    omega
  have hlast : (mant >>> (l + 1)) &&& 1#32 ≠ 0#32 ↔ mant.toNat / 2 ^ (l + 1) % 2 = 1 := by
    rw [ne_eq, ← BitVec.toNat_inj, toNat_and_mask _ (show (1#32).toNat = 2 ^ 1 - 1 from rfl),
      toNat_ushiftRight_eq, BitVec.toNat_ofNat]
    omega
  rw [hlast, BitVec.lt_def, ← BitVec.toNat_inj, toNat_and_mask _ hmask, hone l (by omega)]

theorem finite_fields {bits : BitVec 32} (h : binary32.datum bits = .finite s y) :
    bits.toNat % 2 ^ 31 / 2 ^ 23 < 255 ∧ bits.msb = s ∧
      y = if bits.toNat % 2 ^ 31 / 2 ^ 23 = 0 then
          ((bits.toNat % 2 ^ 31 % 2 ^ 23 : ℕ) : ℚ) * 2 ^ (-149 : ℤ)
        else ((2 ^ 23 + bits.toNat % 2 ^ 31 % 2 ^ 23 : ℕ) : ℚ) *
          2 ^ ((bits.toNat % 2 ^ 31 / 2 ^ 23 : ℕ) - 150 : ℤ) := by
  have hbias : 2 * binary32.bias + 1 = 255 := rfl
  have hmbits : binary32.mantissaBits = 23 := rfl
  have hbias' : (binary32.bias : ℤ) = 127 := rfl
  rw [IeeeFormat.datum, IeeeFormat.datumOf, hbias, hmbits] at h
  have h31 : 32 - 1 = 31 := rfl
  rw [h31] at h
  split_ifs at h with hE hm
  · injection h with hs hy
    refine ⟨hE, hs, ?_⟩
    rw [← hy, IeeeFormat.magnitudeOf, hmbits, hbias']
    split_ifs with h0
    · rw [Nat.mod_eq_of_lt (show bits.toNat % 2 ^ 31 < 2 ^ 23 by omega)]
      norm_num
    · congr 2
      push_cast
      ring

theorem round_subnormal {R shift : ℕ} (hR : 2 ^ 23 ≤ R) (hR' : R < 2 ^ 24) (hshift : 14 ≤ shift) :
    binary16.round ((R : ℚ) / 2 ^ shift * 2 ^ (-24 : ℤ)) =
      roundEven ((R : ℚ) / 2 ^ shift) * 2 ^ (-24 : ℤ) := by
  have hlo : (2 : ℚ) ^ 23 ≤ R := by exact_mod_cast hR
  have hhi : (R : ℚ) ≤ 2 ^ 24 := by exact_mod_cast hR'.le
  have hpos : (0 : ℚ) < 2 ^ shift := by positivity
  have hexp : ∀ n : ℕ, (2 : ℚ) ^ (n - 24 - shift : ℤ) = 2 ^ n / 2 ^ shift * 2 ^ (-24 : ℤ) := by
    intro n
    rw [show (n - 24 - shift : ℤ) = n - shift + -24 by ring, zpow_add₀ two_ne_zero,
      zpow_sub₀ two_ne_zero, zpow_natCast, zpow_natCast]
  have hmax : max ((-1 : ℤ) - shift) (1 - binary16.bias) - binary16.mantissaBits = -24 := by
    have hbias : (binary16.bias : ℤ) = 15 := rfl
    have hmbits : (binary16.mantissaBits : ℤ) = 10 := rfl
    rw [hbias, hmbits]
    omega
  have h := IeeeFormat.round_of_binade (F := binary16) (e := -1 - shift)
    (x := (R : ℚ) / 2 ^ shift * 2 ^ (-24 : ℤ)) ?_ ?_
  · rw [h, hmax, mul_div_cancel_right₀ _ (zpow_pos two_pos _).ne']
  · have h23 := hexp 23
    rw [show ((23 : ℕ) - 24 - shift : ℤ) = -1 - shift by push_cast; ring] at h23
    rw [h23]
    gcongr
  · have h24 := hexp 24
    rw [show ((24 : ℕ) - 24 - shift : ℤ) = -1 - shift + 1 by push_cast; ring] at h24
    rw [h24]
    gcongr

theorem roundEven_eq_1024_iff {z : ℚ} (hz : z < 1024) : roundEven z = 1024 ↔ 2047 / 2 ≤ z := by
  have hnear := abs_le.1 (Bits.abs_sub_roundEven_le z)
  constructor
  · intro h
    rw [h] at hnear
    push_cast at hnear
    linarith
  · intro h
    rcases h.eq_or_lt with rfl | hlt
    · have htie := Bits.roundEven_half 1023
      rw [if_neg (by decide)] at htie
      norm_num at htie ⊢
      exact htie
    · refine Bits.roundEven_of_near (D := 1) ?_ ?_
      · push_cast
        linarith
      · push_cast
        linarith

theorem datum_subnormalHalf {S mant : BitVec 32} (hS : S.toNat = s.toNat)
    (hlo : 2 ^ 23 ≤ mant.toNat) (hhi : mant.toNat < 2 ^ 24) {l : ℕ} (hl : 13 ≤ l) (hl' : l ≤ 23)
    (hy : y = (mant.toNat : ℚ) / 2 ^ (l + 1) * 2 ^ (-24 : ℤ)) {out : BitVec 32}
    (hout : out = if (1#32 <<< l) < (mant &&& ((1#32 <<< (l + 1)) - 1#32)) ∨
      ((mant &&& ((1#32 <<< (l + 1)) - 1#32)) = (1#32 <<< l) ∧
        (mant >>> (l + 1)) &&& 1#32 ≠ 0#32) then (mant >>> (l + 1)) + 1#32
      else mant >>> (l + 1)) :
    binary16.datum (((S <<< 15) ||| (out &&& 0x3FF#32)).setWidth 16) =
      if 2047 * 2 ^ (-25 : ℤ) ≤ y then .finite s 0 else binary16.narrow s y := by
  have hz : (mant.toNat : ℚ) / 2 ^ (l + 1) < 1024 := by
    rw [div_lt_iff₀ (by positivity)]
    have hpow : (2 : ℕ) ^ 14 ≤ 2 ^ (l + 1) := Nat.pow_le_pow_right two_pos (by omega)
    have : (mant.toNat : ℚ) < 1024 * 2 ^ (l + 1) := by exact_mod_cast (by omega)
    exact this
  have hdiv : mant.toNat / 2 ^ (l + 1) < 1024 := by
    have hpow : (2 : ℕ) ^ 14 ≤ 2 ^ (l + 1) := Nat.pow_le_pow_right two_pos (by omega)
    rw [Nat.div_lt_iff_lt_mul (Nat.two_pow_pos _)]
    omega
  have hval : roundEven ((mant.toNat : ℚ) / 2 ^ (l + 1)) = out.toNat := by
    have hshr : (mant >>> (l + 1)).toNat = mant.toNat / 2 ^ (l + 1) := toNat_ushiftRight_eq _ _
    rw [Bits.roundEven_rem, hout]
    simp only [roundsUp_iff mant (show l + 1 < 32 by omega)]
    split_ifs
    · rw [BitVec.toNat_add, hshr, BitVec.toNat_ofNat]
      omega
    · rw [hshr, Nat.add_zero]
  have hcarry : 2047 * 2 ^ (-25 : ℤ) ≤ y ↔ out.toNat = 1024 := by
    have hcut := roundEven_eq_1024_iff hz
    rw [hval] at hcut
    have hcast : ((out.toNat : ℤ) = 1024) ↔ out.toNat = 1024 := by omega
    rw [← hcast, hcut, hy, show (2047 : ℚ) * 2 ^ (-25 : ℤ) = 2047 / 2 * 2 ^ (-24 : ℤ) by norm_num,
      mul_le_mul_iff_left₀ (zpow_pos two_pos _)]
  have hle : out.toNat ≤ 1024 := by
    rw [Bits.roundEven_rem] at hval
    split at hval <;> omega
  have hmask : (out &&& 0x3FF#32).toNat = out.toNat % 1024 :=
    toNat_and_mask _ (show (0x3FF#32).toNat = 2 ^ 10 - 1 from rfl)
  rw [datum_half hS (by omega), hmask]
  by_cases hc : out.toNat = 1024
  · rw [if_pos (hcarry.2 hc), hc, Nat.mod_self, IeeeFormat.datumOf_zero]
  · rw [if_neg (mt hcarry.1 hc), Nat.mod_eq_of_lt (by omega)]
    have hmag := IeeeFormat.magnitudeOf_carry (F := binary16) (E := 1) (K := out.toNat) le_rfl
      (hle.trans (by decide)) (.inr rfl)
    rw [Nat.sub_self, Nat.zero_mul, Nat.zero_add] at hmag
    refine (IeeeFormat.narrow_eq_finite ?_ ?_).symm
    · rw [hy, round_subnormal hlo hhi (by omega), hval, hmag]
      norm_num [IeeeFormat.bias, binary16]
    · have hbias : 2 * binary16.bias + 1 = 31 := rfl
      have hmbits : binary16.mantissaBits = 10 := rfl
      rw [hbias, hmbits]
      omega

theorem datum_normalHalf {S mant32 out : BitVec 32} (hS : S.toNat = s.toNat)
    (hm : mant32.toNat < 2 ^ 23) {e : ℕ} (he : 1 ≤ e) (he' : e < 31)
    (hy : y = ((2 ^ 23 + mant32.toNat : ℕ) : ℚ) * 2 ^ ((e : ℤ) - 38)) {up : Prop} [Decidable up]
    (hup : up ↔ 0x1000#32 < (mant32 &&& 0x1FFF#32) ∨ ((mant32 &&& 0x1FFF#32) = 0x1000#32 ∧
      (mant32 >>> 13) &&& 1#32 ≠ 0#32))
    (hout : out = if up then (mant32 >>> 13) + 1#32 else mant32 >>> 13) :
    binary16.datum (if up ∧ out = 0x400#32 then
        if (0x1F : ℤ) ≤ e + 1 then ((S <<< 15) ||| (0x1F#32 <<< 10)).setWidth 16
        else ((S <<< 15) ||| (BitVec.ofInt 32 ((e : ℤ) + 1) <<< 10)).setWidth 16
      else ((S <<< 15) ||| ((BitVec.ofInt 32 (e : ℤ) <<< 10) ||| (out &&& 0x3FF#32))).setWidth 16) =
      binary16.narrow s y := by
  have hiff := roundsUp_iff mant32 (l := 12) (by decide)
  have hup' : up ↔ 2 ^ 12 < mant32.toNat % 2 ^ (12 + 1) ∨
      (mant32.toNat % 2 ^ (12 + 1) = 2 ^ 12 ∧ mant32.toNat / 2 ^ (12 + 1) % 2 = 1) :=
    hup.trans hiff
  have hshr : (mant32 >>> 13).toNat = mant32.toNat / 2 ^ 13 := toNat_ushiftRight_eq _ _
  have hval : roundEven (((2 ^ 23 + mant32.toNat : ℕ) : ℚ) / 2 ^ (12 + 1)) =
      ((1024 + out.toNat : ℕ) : ℤ) := by
    have hcond : (2 ^ 12 < (2 ^ 23 + mant32.toNat) % 2 ^ (12 + 1) ∨
        ((2 ^ 23 + mant32.toNat) % 2 ^ (12 + 1) = 2 ^ 12 ∧
          (2 ^ 23 + mant32.toNat) / 2 ^ (12 + 1) % 2 = 1)) ↔ up := by
      rw [hup']
      omega
    have houtval : out.toNat = mant32.toNat / 2 ^ 13 + if up then 1 else 0 := by
      rw [hout]
      split_ifs
      · rw [BitVec.toNat_add, hshr, BitVec.toNat_ofNat]
        omega
      · rw [hshr, Nat.add_zero]
    rw [Bits.roundEven_rem, houtval]
    simp only [hcond]
    omega
  have hle : out.toNat ≤ 1024 ∧ (out.toNat = 1024 → up) := by
    rw [hout]
    split_ifs with h
    · rw [BitVec.toNat_add, hshr, BitVec.toNat_ofNat]
      exact ⟨by omega, fun _ => h⟩
    · rw [hshr]
      omega
  have hbias : (binary16.bias : ℤ) = 15 := rfl
  have hbias' : 2 * binary16.bias + 1 = 31 := rfl
  have hmbits : binary16.mantissaBits = 10 := rfl
  -- the binade of the number
  have hround : binary16.round y = ((1024 + out.toNat : ℕ) : ℚ) * 2 ^ ((e : ℤ) - 25) := by
    have hlo : (2 : ℚ) ^ 23 ≤ (2 ^ 23 + mant32.toNat : ℕ) := by exact_mod_cast Nat.le_add_right _ _
    have hhi : ((2 ^ 23 + mant32.toNat : ℕ) : ℚ) ≤ 2 ^ 24 := by exact_mod_cast (by omega)
    have hexp : ∀ n : ℕ, (2 : ℚ) ^ (n + ((e : ℤ) - 38)) = 2 ^ n * 2 ^ ((e : ℤ) - 38) := by
      intro n
      rw [zpow_add₀ two_ne_zero, zpow_natCast]
    have hpos : (0 : ℚ) < 2 ^ ((e : ℤ) - 38) := zpow_pos two_pos _
    have h := IeeeFormat.round_of_binade (F := binary16) (e := (23 : ℕ) + ((e : ℤ) - 38)) (x := y)
      ?_ ?_
    · have hmax : max ((23 : ℕ) + ((e : ℤ) - 38)) (1 - binary16.bias) - binary16.mantissaBits =
          (e : ℤ) - 25 := by
        rw [hbias, hmbits]
        push_cast
        omega
      have hdiv : y / 2 ^ ((e : ℤ) - 25) = ((2 ^ 23 + mant32.toNat : ℕ) : ℚ) / 2 ^ (12 + 1) := by
        rw [hy, show (e : ℤ) - 25 = (13 : ℕ) + ((e : ℤ) - 38) by push_cast; ring, hexp,
          mul_div_mul_right _ _ hpos.ne']
      rw [h, hmax, hdiv, hval, Int.cast_natCast]
    · rw [hexp, hy]
      exact mul_le_mul_of_nonneg_right hlo hpos.le
    · rw [show (23 : ℕ) + ((e : ℤ) - 38) + 1 = (24 : ℕ) + ((e : ℤ) - 38) by push_cast; ring, hexp,
        hy]
      exact mul_le_mul_of_nonneg_right hhi hpos.le
  have hmag : binary16.round y = binary16.magnitudeOf ((e - 1) * 2 ^ 10 + (1024 + out.toNat)) := by
    have hcarry := IeeeFormat.magnitudeOf_carry (F := binary16) (E := e) (K := 1024 + out.toNat) he
      (show 1024 + out.toNat ≤ 2 ^ 11 by omega) (.inl (Nat.le_add_right _ _))
    rw [hround, show (e : ℤ) - 25 = e - binary16.bias - binary16.mantissaBits by
      rw [hbias, hmbits]; push_cast; ring]
    exact hcarry.symm
  have hword : ∀ E : ℕ, E < 31 → (BitVec.ofInt 32 (E : ℤ) <<< 10).toNat = E * 2 ^ 10 := by
    intro E hE
    rw [BitVec.toNat_shiftLeft, Nat.shiftLeft_eq, BitVec.toNat_ofInt]
    omega
  by_cases hc : up ∧ out = 0x400#32
  · have hout' : out.toNat = 1024 := by rw [hc.2]; rfl
    rw [if_pos hc]
    rw [hout'] at hmag
    split_ifs with hbig
    · have he30 : e = 30 := by omega
      rw [he30] at hmag
      rw [datum_half hS (by decide), IeeeFormat.narrow_eq_infinity hmag (by decide)]
      rfl
    · have hw := hword (e + 1) (by omega)
      rw [show ((e + 1 : ℕ) : ℤ) = (e : ℤ) + 1 by push_cast; rfl] at hw
      have hn : (e + 1) * 2 ^ 10 = (e - 1) * 2 ^ 10 + (1024 + 1024) := by omega
      rw [datum_half hS (by omega), hw, hn, IeeeFormat.narrow_eq_finite hmag]
      rw [hbias', hmbits]
      omega
  · have hlt : out.toNat < 1024 := by
      rcases hle.1.lt_or_eq with h | h
      · exact h
      · exact absurd ⟨hle.2 h, BitVec.eq_of_toNat_eq h⟩ hc
    have hlow : (out &&& 0x3FF#32).toNat = out.toNat := by
      rw [toNat_and_mask _ (show (0x3FF#32).toNat = 2 ^ 10 - 1 from rfl)]
      omega
    have hE : (BitVec.ofInt 32 (e : ℤ)).toNat = e := by
      rw [BitVec.toNat_ofInt]
      omega
    have hn : ((BitVec.ofInt 32 (e : ℤ) <<< 10) ||| (out &&& 0x3FF#32)).toNat =
        (e - 1) * 2 ^ 10 + (1024 + out.toNat) := by
      rw [toNat_field_or (by omega) (by omega), hE, hlow]
      omega
    rw [if_neg hc, datum_half hS (by omega), hn, IeeeFormat.narrow_eq_finite hmag]
    rw [hbias', hmbits]
    omega

/-- **From float to half**: the nearest half, but for the lost carry. -/
theorem datum_halfOfFloat {bits : BitVec 32} (h : binary32.datum bits = .finite s y) :
    binary16.datum (halfOfFloat bits) =
      if 2047 * 2 ^ (-25 : ℤ) ≤ y ∧ y < 2 ^ (-14 : ℤ) then .finite s 0
      else binary16.narrow s y := by
  obtain ⟨hE255, hs, hy⟩ := finite_fields h
  obtain ⟨hS, hexp, hmant⟩ := float_fields bits
  rw [hs] at hS
  generalize bits.toNat % 2 ^ 31 / 2 ^ 23 = E at hE255 hy hexp
  have hm : (bits &&& 0x7FFFFF#32).toNat < 2 ^ 23 := hmant ▸ Nat.mod_lt _ (Nat.two_pow_pos 23)
  rw [← hmant] at hy
  have hne : ¬ ((bits >>> 23) &&& 0xFF#32) = 0xFF#32 := by
    intro heq
    rw [heq] at hexp
    exact absurd hexp (by rw [BitVec.toNat_ofNat]; omega)
  unfold halfOfFloat
  simp only
  rw [if_neg hne, hexp]
  generalize (bits >>> 31) &&& 1#32 = S at hS
  generalize bits &&& 0x7FFFFF#32 = mant32 at hm hy
  have hy0 : 0 ≤ y := by
    rw [hy]
    split <;> positivity
  have hm' : (mant32.toNat : ℚ) < 2 ^ 23 := by exact_mod_cast hm
  -- too small for a half
  have htiny : y < 2 ^ (-25 : ℤ) →
      binary16.datum ((S <<< 15).setWidth 16) =
        if 2047 * 2 ^ (-25 : ℤ) ≤ y ∧ y < 2 ^ (-14 : ℤ) then .finite s 0
        else binary16.narrow s y := by
    intro hlt
    rw [if_neg, datum_half_zero hS, IeeeFormat.narrow_of_tiny hy0]
    · norm_num [IeeeFormat.bias, binary16] at hlt ⊢
      exact hlt
    · rintro ⟨hle, -⟩
      have : (2047 : ℚ) * 2 ^ (-25 : ℤ) ≤ 2 ^ (-25 : ℤ) := hle.trans hlt.le
      norm_num at this
  by_cases hE0 : E = 0
  · have hz : ((bits >>> 23) &&& 0xFF#32) = 0#32 :=
      BitVec.eq_of_toNat_eq (hexp.trans hE0)
    rw [if_pos hz]
    apply htiny
    rw [hy, if_pos hE0]
    calc (mant32.toNat : ℚ) * 2 ^ (-149 : ℤ) < 2 ^ 23 * 2 ^ (-149 : ℤ) :=
          mul_lt_mul_of_pos_right hm' (zpow_pos two_pos _)
      _ ≤ 2 ^ (-25 : ℤ) := by norm_num
  · have hz : ¬ ((bits >>> 23) &&& 0xFF#32) = 0#32 := by
      intro heq
      rw [heq] at hexp
      exact hE0 hexp.symm
    rw [if_neg hE0] at hy
    rw [if_neg hz]
    have hbelow : ∀ k : ℤ, (E : ℤ) - 126 ≤ k → y < 2 ^ k := by
      intro k hk
      calc y < 2 ^ 24 * 2 ^ ((E : ℤ) - 150) := by
            rw [hy]
            refine mul_lt_mul_of_pos_right ?_ (zpow_pos two_pos _)
            exact_mod_cast (by omega : 2 ^ 23 + mant32.toNat < 2 ^ 24)
        _ = 2 ^ ((E : ℤ) - 126) := by
            rw [← zpow_natCast, ← zpow_add₀ two_ne_zero]
            congr 1
            push_cast
            ring
        _ ≤ 2 ^ k := zpow_le_zpow_right₀ one_le_two hk
    have habove : ∀ k : ℤ, k ≤ (E : ℤ) - 127 → 2 ^ k ≤ y := by
      intro k hk
      calc (2 : ℚ) ^ k ≤ 2 ^ ((E : ℤ) - 127) := zpow_le_zpow_right₀ one_le_two hk
        _ = 2 ^ 23 * 2 ^ ((E : ℤ) - 150) := by
            rw [← zpow_natCast, ← zpow_add₀ two_ne_zero]
            congr 1
            push_cast
            ring
        _ ≤ y := by
            rw [hy]
            refine mul_le_mul_of_nonneg_right ?_ (zpow_pos two_pos _).le
            exact_mod_cast Nat.le_add_right _ _
    by_cases hbig : (0x1F : ℤ) ≤ (E : ℤ) - 127 + 15
    · have hover := habove 16 (by omega)
      rw [if_pos hbig, if_neg, datum_half hS (by decide), IeeeFormat.narrow, if_pos]
      · rfl
      · exact IeeeFormat.zpow_le_round (by decide) hover
      · rintro ⟨-, hlt⟩
        exact absurd (hover.trans hlt.le) (by norm_num)
    · rw [if_neg hbig]
      by_cases hsub : (E : ℤ) - 127 + 15 ≤ 0
      · rw [if_pos hsub]
        by_cases hfar : 25 ≤ (14 - ((E : ℤ) - 127 + 15)).toNat
        · rw [if_pos hfar]
          exact htiny (hbelow _ (by omega))
        · obtain ⟨l, hl⟩ : ∃ l : ℕ, (14 - ((E : ℤ) - 127 + 15)).toNat = l + 1 :=
            ⟨(125 - E : ℕ), by omega⟩
          have hR : (mant32 ||| 0x800000#32).toNat = 2 ^ 23 + mant32.toNat := by
            rw [BitVec.or_comm, show (0x800000#32 : BitVec 32) = 1#32 <<< 23 from rfl,
              toNat_field_or (by decide) hm, BitVec.toNat_ofNat]
            omega
          have hbelow14 := hbelow (-14) (by omega)
          rw [if_neg hfar, hl, Nat.add_sub_cancel]
          simp only [hbelow14, and_true]
          refine datum_subnormalHalf hS (by omega) (by omega) (by omega) (by omega) ?_ rfl
          rw [hy, hR, show (E : ℤ) - 150 = -24 - ((l + 1 : ℕ) : ℤ) by push_cast; omega,
            zpow_sub₀ two_ne_zero, zpow_natCast]
          ring
      · obtain ⟨e, he⟩ : ∃ e : ℕ, (E : ℤ) - 127 + 15 = e := ⟨E - 112, by omega⟩
        have habove14 := habove (-14) (by omega)
        rw [if_neg hsub, he]
        simp only [not_lt.2 habove14, and_false, if_false]
        refine datum_normalHalf hS hm (by omega) (by omega) ?_ Iff.rfl rfl
        rw [hy]
        congr 2
        omega

theorem datum_halfOfFloat_infinity {bits : BitVec 32} (h : binary32.datum bits = .infinity s) :
    binary16.datum (halfOfFloat bits) = .infinity s := by
  obtain ⟨hS, hexp, hmant⟩ := float_fields bits
  have hbias : 2 * binary32.bias + 1 = 255 := rfl
  have hmbits : binary32.mantissaBits = 23 := rfl
  have h31 : 32 - 1 = 31 := rfl
  rw [IeeeFormat.datum, IeeeFormat.datumOf, hbias, hmbits, h31] at h
  split_ifs at h with hE hm
  injection h with hs
  have hlt := bits.isLt
  have he : ((bits >>> 23) &&& 0xFF#32) = 0xFF#32 := by
    apply BitVec.eq_of_toNat_eq
    rw [hexp, BitVec.toNat_ofNat]
    omega
  have hz : bits &&& 0x7FFFFF#32 = 0#32 := BitVec.eq_of_toNat_eq (hmant.trans hm)
  unfold halfOfFloat
  simp only
  rw [if_pos he, hz, if_neg (by decide), BitVec.or_zero, datum_half (hs ▸ hS) (by decide)]
  rfl

theorem normalizeHalf_spec (fuel : ℕ) {m : BitVec 32} {e : ℤ} (hlt : m.toNat < 2 ^ 11)
    (hfuel : 2 ^ 10 ≤ m.toNat * 2 ^ fuel) :
    ∃ j ≤ fuel, (normalizeHalf fuel m e).1.toNat = m.toNat * 2 ^ j ∧
      (normalizeHalf fuel m e).2 = e - j ∧
      2 ^ 10 ≤ m.toNat * 2 ^ j ∧ m.toNat * 2 ^ j < 2 ^ 11 := by
  induction fuel generalizing m e with
  | zero =>
    rw [pow_zero, Nat.mul_one] at hfuel
    exact ⟨0, le_rfl, by simp [normalizeHalf], by simp [normalizeHalf], by simpa using hfuel,
      by simpa using hlt⟩
  | succ fuel ih =>
    have hbit : m &&& 0x400#32 = 0#32 ↔ m.toNat < 2 ^ 10 := by
      have hand : (m &&& 0x400#32).toNat = 2 ^ 10 * (m.toNat / 2 ^ 10 % 2) := by
        rw [BitVec.toNat_and, show (0x400#32).toNat = 2 ^ 10 from rfl, Nat.and_two_pow,
          Nat.testBit_eq_decide_div_mod_eq]
        by_cases h : m.toNat / 2 ^ 10 % 2 = 1
        · rw [decide_eq_true h, h]
          rfl
        · rw [decide_eq_false h, show m.toNat / 2 ^ 10 % 2 = 0 by omega]
          rfl
      rw [← BitVec.toNat_inj, hand, BitVec.toNat_ofNat]
      omega
    rw [normalizeHalf]
    split_ifs with hz
    · rw [hbit] at hz
      have hshl : (m <<< 1).toNat = m.toNat * 2 := by
        rw [BitVec.toNat_shiftLeft, Nat.shiftLeft_eq]
        omega
      obtain ⟨j, hj, hm, he, hlo, hhi⟩ := ih (m := m <<< 1) (e := e - 1) (by omega)
        (by rw [hshl, mul_assoc, ← pow_succ']; exact hfuel)
      rw [hshl, mul_assoc, ← pow_succ'] at hm hlo hhi
      refine ⟨j + 1, by omega, hm, ?_, hlo, hhi⟩
      rw [he]
      push_cast
      ring
    · rw [hbit, not_lt] at hz
      exact ⟨0, Nat.zero_le _, by simp, by simp, by simpa using hz, by simpa using hlt⟩

theorem datum_float {S n : BitVec 32} (hS : S.toNat = s.toNat) (hn : n.toNat < 2 ^ 31) :
    binary32.datum ((S <<< 31) ||| n) = binary32.datumOf s n.toNat := by
  have hs := s.toNat_le
  refine IeeeFormat.datum_of_toNat ?_ hn
  rw [toNat_field_or (by omega) hn, hS]

theorem datum_float_fields {S m : BitVec 32} {E : ℕ} {z : ℤ} (hS : S.toNat = s.toNat)
    (hz : z = E) (hE : 1 ≤ E) (hE' : E < 255) (hm : m.toNat < 2 ^ 10) :
    binary32.datum ((S <<< 31) ||| ((BitVec.ofInt 32 z <<< 23) ||| (m <<< 13))) =
      .finite s ((2 ^ 10 + m.toNat : ℕ) * 2 ^ ((E : ℤ) - 137)) := by
  have hbias : 2 * binary32.bias + 1 = 255 := rfl
  have hbias' : (binary32.bias : ℤ) = 127 := rfl
  have hmbits : binary32.mantissaBits = 23 := rfl
  have hEw : (BitVec.ofInt 32 z).toNat = E := by
    rw [hz, BitVec.toNat_ofInt]
    omega
  have hshl : (m <<< 13).toNat = m.toNat * 2 ^ 13 := by
    rw [BitVec.toNat_shiftLeft, Nat.shiftLeft_eq]
    omega
  have hn : ((BitVec.ofInt 32 z <<< 23) ||| (m <<< 13)).toNat =
      E * 2 ^ 23 + m.toNat * 2 ^ 13 := by
    rw [toNat_field_or (by omega) (by omega), hEw, hshl]
  obtain ⟨hdiv, hmod⟩ := IeeeFormat.div_eq_of_split (k := 23) (m := E) (r := m.toNat * 2 ^ 13)
    (n := E * 2 ^ 23 + m.toNat * 2 ^ 13) (by omega) rfl
  rw [datum_float hS (by omega), hn, IeeeFormat.datumOf, IeeeFormat.magnitudeOf, hbias, hmbits,
    hdiv, hmod, if_pos hE', if_neg (by omega), hbias']
  congr 1
  rw [show (E : ℤ) - 137 = E - 127 - (23 : ℕ) + 13 by push_cast; ring, zpow_add₀ two_ne_zero]
  push_cast
  ring

/-- **From half to float**: no value changes. -/
theorem datum_floatOfHalf {half : BitVec 16} (h : binary16.datum half ≠ .nan) :
    binary32.datum (floatOfHalf half) = binary16.datum half := by
  have hlt := half.isLt
  have hbias : 2 * binary16.bias + 1 = 31 := rfl
  have hbias' : (binary16.bias : ℤ) = 15 := rfl
  have hmbits : binary16.mantissaBits = 10 := rfl
  have hwide : (half.setWidth 32).toNat = half.toNat := by
    rw [BitVec.toNat_setWidth]
    omega
  have hS : ((half.setWidth 32 >>> 15) &&& 1#32).toNat = half.msb.toNat := by
    rw [toNat_and_mask _ (show (1#32).toNat = 2 ^ 1 - 1 from rfl), toNat_ushiftRight_eq, hwide,
      BitVec.msb_eq_decide]
    by_cases hm : 2 ^ (16 - 1) ≤ half.toNat
    · rw [decide_eq_true hm, Bool.toNat_true]
      omega
    · rw [decide_eq_false hm, Bool.toNat_false]
      omega
  have hexp : ((half.setWidth 32 >>> 10) &&& 0x1F#32).toNat = half.toNat % 2 ^ 15 / 2 ^ 10 := by
    rw [toNat_and_mask _ (show (0x1F#32).toNat = 2 ^ 5 - 1 from rfl), toNat_ushiftRight_eq, hwide]
    omega
  have hmant : (half.setWidth 32 &&& 0x3FF#32).toNat = half.toNat % 2 ^ 15 % 2 ^ 10 := by
    rw [toNat_and_mask _ (show (0x3FF#32).toNat = 2 ^ 10 - 1 from rfl), hwide]
    omega
  have hdatum : binary16.datum half = binary16.datumOf half.msb (half.toNat % 2 ^ 15) := rfl
  rw [hdatum, IeeeFormat.datumOf, hbias, hmbits] at h ⊢
  unfold floatOfHalf
  simp only
  generalize (half.setWidth 32 >>> 15) &&& 1#32 = S at hS
  generalize (half.setWidth 32 >>> 10) &&& 0x1F#32 = wexp at hexp
  generalize half.setWidth 32 &&& 0x3FF#32 = wmant at hmant
  have hmlt : wmant.toNat < 2 ^ 10 := hmant ▸ Nat.mod_lt _ (Nat.two_pow_pos 10)
  by_cases htop : wexp = 0x1F#32
  · have hE : ¬ half.toNat % 2 ^ 15 / 2 ^ 10 < 31 := by
      rw [← hexp, htop]
      decide
    rw [if_neg hE] at h ⊢
    split_ifs at h with hm
    · have hz : wmant = 0#32 := BitVec.eq_of_toNat_eq (hmant.trans hm)
      rw [if_pos htop, if_pos hm, hz, datum_float hS (by decide)]
      rfl
    · exact absurd rfl h
  · have hE : half.toNat % 2 ^ 15 / 2 ^ 10 < 31 := by
      have hne : wexp.toNat ≠ 31 := fun heq => htop (BitVec.eq_of_toNat_eq heq)
      omega
    rw [if_neg htop, if_pos hE, IeeeFormat.magnitudeOf, hmbits, ← hexp, ← hmant, hbias']
    by_cases hzero : wexp = 0#32
    · have hexp0 : wexp.toNat = 0 := by rw [hzero]; rfl
      have hsame : half.toNat % 2 ^ 15 = wmant.toNat := by omega
      rw [if_pos hzero, if_pos hexp0, hsame]
      split_ifs with hm
      · have hfloat := datum_float (n := 0#32) hS (by decide)
        rw [BitVec.or_zero] at hfloat
        rw [hfloat, hm, BitVec.toNat_ofNat, Nat.zero_mod, IeeeFormat.datumOf_zero]
        norm_num
      · have hpos : 0 < wmant.toNat :=
          Nat.pos_of_ne_zero fun h0 => hm (BitVec.eq_of_toNat_eq h0)
        obtain ⟨j, hj, hr, he, hlo, hhi⟩ := normalizeHalf_spec 10 (m := wmant) (e := -1) (by omega)
          (Nat.le_mul_of_pos_left _ hpos)
        generalize normalizeHalf 10 wmant (-1) = r at hr he
        have hlow : (r.1 &&& 0x3FF#32).toNat = wmant.toNat * 2 ^ j - 2 ^ 10 := by
          rw [toNat_and_mask _ (show (0x3FF#32).toNat = 2 ^ 10 - 1 from rfl), hr]
          omega
        rw [datum_float_fields (E := 112 - j + 1) hS (by rw [he]; omega) (by omega)
          (by omega) (by omega), hlow, Nat.add_sub_cancel' hlo,
          show ((112 - j + 1 : ℕ) : ℤ) - 137 = 1 - 15 - (10 : ℕ) - j by push_cast; omega,
          zpow_sub₀ two_ne_zero, zpow_natCast]
        push_cast
        field_simp
    · have hexp0 : wexp.toNat ≠ 0 := fun h0 => hzero (BitVec.eq_of_toNat_eq h0)
      rw [if_neg hzero, if_neg hexp0, datum_float_fields (E := wexp.toNat + 112) hS (by omega)
        (by omega) (by omega) hmlt]
      congr 3
      push_cast
      ring

variable {toFloat : BitVec 64 → BitVec 32} {toDouble : BitVec 32 → BitVec 64} {dv : BitVec 64}

theorem narrow_ne_nan (F : IeeeFormat) (s : Bool) (x : ℚ) : F.narrow s x ≠ .nan := by
  unfold IeeeFormat.narrow
  split <;> simp

theorem datum_narrowToHalf (hhost : HostConverts toFloat toDouble dv)
    (hdv : binary64.datum dv = .finite s x) :
    binary64.datum (narrowToHalf toFloat toDouble dv) =
      if CarryLost x then .finite s 0 else binary16.narrow s (binary32.round x) := by
  have hfloat := hhost.narrows s x hdv
  have hhalf : binary16.datum (halfOfFloat (toFloat dv)) =
      if CarryLost x then .finite s 0 else binary16.narrow s (binary32.round x) := by
    by_cases hover : (2 : ℚ) ^ (binary32.bias + 1 : ℤ) ≤ binary32.round x
    · have hbig : (2 : ℚ) ^ (16 : ℤ) ≤ binary32.round x :=
        (zpow_le_zpow_right₀ one_le_two (by decide)).trans hover
      rw [IeeeFormat.narrow, if_pos hover] at hfloat
      rw [datum_halfOfFloat_infinity hfloat, if_neg, IeeeFormat.narrow, if_pos]
      · exact IeeeFormat.zpow_le_round (by decide) hbig
      · rintro ⟨-, hlt⟩
        exact absurd (hbig.trans hlt.le) (by norm_num)
    · rw [IeeeFormat.narrow, if_neg hover] at hfloat
      exact datum_halfOfFloat hfloat
  rw [hhost.widens, datum_floatOfHalf, hhalf]
  rw [hhalf]
  split
  · simp
  · exact narrow_ne_nan _ _ _

theorem magnitudeOf_nonneg (F : IeeeFormat) (n : ℕ) : 0 ≤ F.magnitudeOf n := by
  unfold IeeeFormat.magnitudeOf
  split <;> positivity

theorem nonneg_of_datum {F : IeeeFormat} {w : ℕ} {b : BitVec w} (h : F.datum b = .finite s x) :
    0 ≤ x := by
  rw [IeeeFormat.datum, IeeeFormat.datumOf] at h
  split_ifs at h
  injection h with _ hx
  exact hx ▸ magnitudeOf_nonneg F _

theorem round_of_small (h0 : 0 ≤ x) (hx : x < 2 ^ (-126 : ℤ)) :
    0 ≤ binary32.round x ∧ binary32.round x < 2 ^ (-25 : ℤ) := by
  rcases h0.eq_or_lt with rfl | hpos
  · simp [IeeeFormat.round, roundEven]
  · have hlog : Int.log 2 x < -126 :=
      (Int.lt_zpow_iff_log_lt (b := 2) (by decide) hpos).mp (by exact_mod_cast hx)
    have hq : binary32.quantum x = -149 := by
      have hbias : (binary32.bias : ℤ) = 127 := rfl
      have hmbits : (binary32.mantissaBits : ℤ) = 23 := rfl
      rw [IeeeFormat.quantum, hbias, hmbits]
      omega
    have hunit : (0 : ℚ) < 2 ^ (-149 : ℤ) := zpow_pos two_pos _
    have hlt : x / 2 ^ (-149 : ℤ) < ((2 ^ 23 : ℕ) : ℤ) := by
      rw [div_lt_iff₀ hunit]
      refine hx.trans_le (le_of_eq ?_)
      norm_num
    have hlo := Bits.floor_le_roundEven (x / 2 ^ (-149 : ℤ))
    have hhi := Bits.roundEven_le_floor_add_one (x / 2 ^ (-149 : ℤ))
    have hfloor0 : 0 ≤ ⌊x / 2 ^ (-149 : ℤ)⌋ := Int.floor_nonneg.2 (by positivity)
    have hfloor := Int.floor_lt.2 hlt
    rw [IeeeFormat.round, hq]
    generalize roundEven (x / 2 ^ (-149 : ℤ)) = n at hlo hhi
    have hn0 : (0 : ℚ) ≤ n := by exact_mod_cast hfloor0.trans hlo
    have hn1 : (n : ℚ) ≤ 2 ^ 23 := by exact_mod_cast (by omega : n ≤ 2 ^ 23)
    refine ⟨by positivity, ?_⟩
    calc (n : ℚ) * 2 ^ (-149 : ℤ) ≤ 2 ^ 23 * 2 ^ (-149 : ℤ) :=
          mul_le_mul_of_nonneg_right hn1 hunit.le
      _ < 2 ^ (-25 : ℤ) := by norm_num

theorem not_tieAgainst_of_tiny (h0 : 0 ≤ y) (hy : y < 2 ^ (-25 : ℤ)) :
    ¬ binary16.TieAgainst x y := by
  rintro ⟨hhalf, -⟩
  have hq : (-24 : ℤ) ≤ binary16.quantum x := by
    have hbias : (binary16.bias : ℤ) = 15 := rfl
    have hmbits : (binary16.mantissaBits : ℤ) = 10 := rfl
    rw [IeeeFormat.quantum, hbias, hmbits]
    omega
  have hpos : (0 : ℚ) < 2 ^ binary16.quantum x := zpow_pos two_pos _
  have hlt : y / 2 ^ binary16.quantum x < 1 / 2 := by
    rw [div_lt_iff₀ hpos]
    calc y < 1 / 2 * 2 ^ (-24 : ℤ) := hy.trans_le (le_of_eq (by norm_num))
      _ ≤ 1 / 2 * 2 ^ binary16.quantum x :=
          mul_le_mul_of_nonneg_left (zpow_le_zpow_right₀ one_le_two hq) (by norm_num)
  have hfloor : ⌊y / 2 ^ binary16.quantum x⌋ = 0 := by
    rw [Int.floor_eq_zero_iff, Set.mem_Ico]
    exact ⟨by positivity, by linarith⟩
  rw [hfloor, Int.cast_zero, sub_zero] at hhalf
  exact hlt.ne hhalf

theorem narrow_ne_zero_of_carryLost (hx : (2 : ℚ) ^ (-126 : ℤ) ≤ x) (hc : CarryLost x) :
    IeeeDatum.finite s 0 ≠ binary16.narrow s x := by
  have hlow : (2 : ℚ) ^ (-15 : ℤ) ≤ x := by
    by_contra hlt
    obtain ⟨-, hhi⟩ := IeeeFormat.round_binade (F := binary32) hx
    have hlog : Int.log 2 x < -15 :=
      (Int.lt_zpow_iff_log_lt (b := 2) (by decide) ((zpow_pos two_pos _).trans_le hx)).mp
        (by exact_mod_cast not_le.1 hlt)
    have hle : binary32.round x ≤ 2 ^ (-15 : ℤ) :=
      hhi.trans (zpow_le_zpow_right₀ one_le_two (by omega))
    exact absurd (hc.1.trans hle) (by norm_num)
  have hround : (2 : ℚ) ^ (-15 : ℤ) ≤ binary16.round x :=
    IeeeFormat.zpow_le_round (by decide) hlow
  unfold IeeeFormat.narrow
  split
  · simp
  · intro heq
    injection heq with _ heq
    rw [← heq] at hround
    exact absurd hround (not_le.2 (zpow_pos two_pos _))

/-- **`narrowToHalf` returns the nearest half** exactly where no carry and no tie is lost. -/
theorem narrowToHalf_correct_iff (hhost : HostConverts toFloat toDouble dv)
    (hdv : binary64.datum dv = .finite s x) :
    binary64.datum (narrowToHalf toFloat toDouble dv) = binary16.narrow s x ↔
      ¬ CarryLost x ∧ ¬ TieLost x := by
  rw [datum_narrowToHalf hhost hdv]
  by_cases hx : x < 2 ^ (-126 : ℤ)
  · have h0 := nonneg_of_datum hdv
    obtain ⟨hy0, hy⟩ := round_of_small h0 hx
    have hcarry : ¬ CarryLost x := by
      rintro ⟨hle, -⟩
      exact absurd (hle.trans hy.le) (by norm_num)
    have htiny : (2 : ℚ) ^ (-25 : ℤ) = 2 ^ (-binary16.bias - binary16.mantissaBits : ℤ) := rfl
    rw [if_neg hcarry, IeeeFormat.narrow_of_tiny hy0 (htiny ▸ hy),
      IeeeFormat.narrow_of_tiny h0 (htiny ▸ hx.trans (by norm_num))]
    exact iff_of_true rfl ⟨hcarry, fun h => not_tieAgainst_of_tiny hy0 hy h.2⟩
  · rw [not_lt] at hx
    by_cases hcarry : CarryLost x
    · rw [if_pos hcarry]
      exact iff_of_false (narrow_ne_zero_of_carryLost hx hcarry) fun h => h.1 hcarry
    · rw [if_neg hcarry]
      refine (IeeeFormat.narrow_twice (G := binary32) (by decide) hx).trans ?_
      exact ⟨fun h => ⟨hcarry, h⟩, fun h => h.2⟩

theorem datum_below_normal :
    binary64.datum 0x3F0FFE0000000000#64 = .finite false (4095 * 2 ^ (-26 : ℤ)) ∧
      binary32.datum 0x387FF000#32 = .finite false (4095 * 2 ^ (-26 : ℤ)) := by
  constructor
  · rw [IeeeFormat.datum, IeeeFormat.datumOf, if_pos (by decide), IeeeFormat.magnitudeOf,
      if_neg (by decide)]
    congr 1
    norm_num [binary64, IeeeFormat.bias]
  · rw [IeeeFormat.datum, IeeeFormat.datumOf, if_pos (by decide), IeeeFormat.magnitudeOf,
      if_neg (by decide)]
    congr 1
    norm_num [binary32, IeeeFormat.bias]

theorem round_below_normal :
    binary32.round (4095 * 2 ^ (-26 : ℤ)) = 4095 * 2 ^ (-26 : ℤ) := by
  have hmax : max (-15 : ℤ) (1 - binary32.bias) - binary32.mantissaBits = -38 := rfl
  have hint : (4095 : ℚ) * 2 ^ (-26 : ℤ) / 2 ^ (-38 : ℤ) = ((4095 * 2 ^ 12 : ℤ) : ℚ) := by
    norm_num
  rw [IeeeFormat.round_of_binade (e := -15) (by norm_num) (by norm_num), hmax, hint,
    IeeeFormat.roundEven_intCast]
  norm_num

theorem hostConverts_below_normal :
    HostConverts (fun _ => 0x387FF000#32) (fun _ => 0#64) 0x3F0FFE0000000000#64 := by
  refine ⟨fun s x h => ?_, ?_⟩
  · rw [datum_below_normal.1] at h
    injection h with hs hx
    rw [datum_below_normal.2, ← hs, ← hx, IeeeFormat.narrow, round_below_normal, if_neg]
    norm_num [IeeeFormat.bias, binary32]
  · have hfloat : floatOfHalf (halfOfFloat 0x387FF000#32) = 0#32 := by decide
    rw [hfloat, narrowToHalf, IeeeFormat.datum, IeeeFormat.datum]
    exact (IeeeFormat.datumOf_zero false).trans (IeeeFormat.datumOf_zero false).symm

theorem carryLost_below_normal : CarryLost (4095 * 2 ^ (-26 : ℤ)) := by
  rw [CarryLost, round_below_normal]
  norm_num

theorem narrowToHalf_correct_iff_below_normal :
    binary64.datum (narrowToHalf (fun _ => 0x387FF000#32) (fun _ => 0#64) 0x3F0FFE0000000000#64) =
        binary16.narrow false (4095 * 2 ^ (-26 : ℤ)) ↔
      ¬ CarryLost (4095 * 2 ^ (-26 : ℤ)) ∧ ¬ TieLost (4095 * 2 ^ (-26 : ℤ)) :=
  narrowToHalf_correct_iff hostConverts_below_normal datum_below_normal.1

theorem narrowToHalf_loses_carry :
    ¬ ∀ (toFloat : BitVec 64 → BitVec 32) (toDouble : BitVec 32 → BitVec 64) (dv : BitVec 64)
      (s : Bool) (x : ℚ), HostConverts toFloat toDouble dv → binary64.datum dv = .finite s x →
      binary64.datum (narrowToHalf toFloat toDouble dv) = binary16.narrow s x := by
  intro h
  have heq := h _ _ _ _ _ hostConverts_below_normal datum_below_normal.1
  rw [datum_narrowToHalf hostConverts_below_normal datum_below_normal.1,
    if_pos carryLost_below_normal] at heq
  exact narrow_ne_zero_of_carryLost (by norm_num) carryLost_below_normal heq

end DssPrime.NumberDecode
