import Mathlib
import DssPrime.Bits.RoundEven

/-!
# Binary interchange formats

An IEEE 754 binary format is given by the widths of its two fields.  The bits below the sign, read
as one number `n`, denote a magnitude (`magnitudeOf`); the numbers are in the order of their
magnitudes, and a significand that rounding carries over into the next binade needs no case of its
own (`magnitudeOf_carry`).

`round` is round to nearest, ties to even, on the grid of the format with an unbounded range
upwards, and `narrow` the datum it gives, infinite from the first power of two on that the format
does not reach.
-/

namespace DssPrime.Bits

theorem toNat_field_or {w n : ℕ} {x y : BitVec w} (hx : x.toNat * 2 ^ n < 2 ^ w)
    (hy : y.toNat < 2 ^ n) : ((x <<< n) ||| y).toNat = x.toNat * 2 ^ n + y.toNat := by
  rw [BitVec.toNat_or, BitVec.toNat_shiftLeft, Nat.shiftLeft_eq, Nat.mod_eq_of_lt hx, mul_comm,
    Nat.two_pow_add_eq_or_of_lt hy]

theorem toNat_and_mask {w : ℕ} (x : BitVec w) {m : BitVec w} {n : ℕ} (hm : m.toNat = 2 ^ n - 1) :
    (x &&& m).toNat = x.toNat % 2 ^ n := by
  rw [BitVec.toNat_and, hm, Nat.and_two_pow_sub_one_eq_mod]

theorem toNat_ushiftRight_eq {w : ℕ} (x : BitVec w) (n : ℕ) :
    (x >>> n).toNat = x.toNat / 2 ^ n := by
  rw [BitVec.toNat_ushiftRight, Nat.shiftRight_eq_div_pow]

/-- The widths of a binary interchange format. -/
structure IeeeFormat where
  mantissaBits : ℕ
  exponentBits : ℕ

/-- What a bit pattern stands for. -/
inductive IeeeDatum where
  | finite (sign : Bool) (magnitude : ℚ)
  | infinity (sign : Bool)
  | nan

namespace IeeeFormat

def binary64 : IeeeFormat := ⟨52, 11⟩

def binary32 : IeeeFormat := ⟨23, 8⟩

def binary16 : IeeeFormat := ⟨10, 5⟩

variable (F : IeeeFormat)

def bias : ℕ := 2 ^ (F.exponentBits - 1) - 1

/-- The magnitude that the bits below the sign denote, specials apart. -/
def magnitudeOf (n : ℕ) : ℚ :=
  if n / 2 ^ F.mantissaBits = 0 then n * 2 ^ (1 - F.bias - F.mantissaBits : ℤ)
  else (2 ^ F.mantissaBits + n % 2 ^ F.mantissaBits : ℕ) *
    2 ^ ((n / 2 ^ F.mantissaBits : ℕ) - F.bias - F.mantissaBits : ℤ)

def datumOf (sign : Bool) (n : ℕ) : IeeeDatum :=
  if n / 2 ^ F.mantissaBits < 2 * F.bias + 1 then .finite sign (F.magnitudeOf n)
  else if n % 2 ^ F.mantissaBits = 0 then .infinity sign
  else .nan

def datum {w : ℕ} (bits : BitVec w) : IeeeDatum := F.datumOf bits.msb (bits.toNat % 2 ^ (w - 1))

/-- The exponent of the last place at a magnitude. -/
def quantum (x : ℚ) : ℤ := max (Int.log 2 x) (1 - F.bias) - F.mantissaBits

def round (x : ℚ) : ℚ := roundEven (x / 2 ^ F.quantum x) * 2 ^ F.quantum x

def narrow (sign : Bool) (x : ℚ) : IeeeDatum :=
  if (2 : ℚ) ^ (F.bias + 1 : ℤ) ≤ F.round x then .infinity sign else .finite sign (F.round x)

variable {F}

theorem datum_of_toNat {w : ℕ} {x : BitVec w} {s : Bool} {n : ℕ}
    (hx : x.toNat = s.toNat * 2 ^ (w - 1) + n) (hn : n < 2 ^ (w - 1)) :
    F.datum x = F.datumOf s n := by
  rw [datum, BitVec.msb_eq_decide, hx, Nat.mul_add_mod_self_right, Nat.mod_eq_of_lt hn]
  cases s with
  | false =>
    rw [decide_eq_false]
    rw [Bool.toNat_false, Nat.zero_mul, Nat.zero_add]
    exact not_le.2 hn
  | true =>
    rw [decide_eq_true]
    rw [Bool.toNat_true, Nat.one_mul]
    exact Nat.le_add_right _ _

theorem div_eq_of_split {k m r n : ℕ} (hr : r < 2 ^ k) (hn : n = m * 2 ^ k + r) :
    n / 2 ^ k = m ∧ n % 2 ^ k = r := by
  have hpos := Nat.two_pow_pos k
  subst hn
  constructor
  · rw [mul_comm, Nat.mul_add_div hpos, Nat.div_eq_of_lt hr, Nat.add_zero]
  · rw [mul_comm, Nat.mul_add_mod, Nat.mod_eq_of_lt hr]

/-- A significand of a binade, the next power of two included, or one below the least binade. -/
theorem magnitudeOf_carry {E K : ℕ} (hE : 1 ≤ E) (hK : K ≤ 2 ^ (F.mantissaBits + 1))
    (h : 2 ^ F.mantissaBits ≤ K ∨ E = 1) :
    F.magnitudeOf ((E - 1) * 2 ^ F.mantissaBits + K) =
      K * 2 ^ ((E : ℤ) - F.bias - F.mantissaBits) := by
  obtain ⟨k, rfl⟩ : ∃ k, E = k + 1 := ⟨E - 1, by omega⟩
  rw [Nat.add_sub_cancel]
  rw [pow_succ] at hK
  rcases lt_trichotomy K (2 ^ F.mantissaBits) with hlt | heq | hgt
  · have hk : k = 0 := by omega
    obtain ⟨hdiv, -⟩ := div_eq_of_split (n := k * 2 ^ F.mantissaBits + K) hlt rfl
    rw [magnitudeOf, hdiv, if_pos hk, hk]
    push_cast
    ring_nf
  · obtain ⟨hdiv, hmod⟩ := div_eq_of_split (n := k * 2 ^ F.mantissaBits + K)
      (m := k + 1) (Nat.two_pow_pos F.mantissaBits) (by rw [heq]; ring)
    rw [magnitudeOf, hdiv, hmod, if_neg (Nat.succ_ne_zero k), heq, Nat.add_zero]
  · by_cases htop : K = 2 ^ F.mantissaBits * 2
    · obtain ⟨hdiv, hmod⟩ := div_eq_of_split (n := k * 2 ^ F.mantissaBits + K)
        (m := k + 2) (Nat.two_pow_pos F.mantissaBits) (by rw [htop]; ring)
      have hexp : ((k + 2 : ℕ) : ℤ) - F.bias - F.mantissaBits =
          ((k + 1 : ℕ) : ℤ) - F.bias - F.mantissaBits + 1 := by
        push_cast
        ring
      rw [magnitudeOf, hdiv, hmod, if_neg (by omega), htop, Nat.add_zero, hexp,
        zpow_add_one₀ two_ne_zero]
      push_cast
      ring
    · obtain ⟨hdiv, hmod⟩ := div_eq_of_split (k := F.mantissaBits)
        (n := k * 2 ^ F.mantissaBits + K) (m := k + 1) (r := K - 2 ^ F.mantissaBits) (by omega)
        (by rw [Nat.add_mul]; omega)
      rw [magnitudeOf, hdiv, hmod, if_neg (Nat.succ_ne_zero k), Nat.add_sub_cancel' hgt.le]

theorem magnitudeOf_lt_iff (n : ℕ) :
    F.magnitudeOf n < 2 ^ (F.bias + 1 : ℤ) ↔ n / 2 ^ F.mantissaBits < 2 * F.bias + 1 := by
  have hpos := Nat.two_pow_pos F.mantissaBits
  have hmod := Nat.mod_lt n hpos
  have hdm := Nat.div_add_mod n (2 ^ F.mantissaBits)
  by_cases h0 : n / 2 ^ F.mantissaBits = 0
  · rw [magnitudeOf, if_pos h0]
    rw [h0, Nat.mul_zero, Nat.zero_add] at hdm
    refine iff_of_true ?_ (by omega)
    have hn : (n : ℚ) < 2 ^ F.mantissaBits := by exact_mod_cast hdm ▸ hmod
    calc (n : ℚ) * 2 ^ (1 - F.bias - F.mantissaBits : ℤ)
        < 2 ^ F.mantissaBits * 2 ^ (1 - F.bias - F.mantissaBits : ℤ) :=
          mul_lt_mul_of_pos_right hn (zpow_pos two_pos _)
      _ = 2 ^ (1 - F.bias : ℤ) := by
          rw [← zpow_natCast, ← zpow_add₀ two_ne_zero]
          congr 1
          ring
      _ ≤ 2 ^ (F.bias + 1 : ℤ) := zpow_le_zpow_right₀ one_le_two (by omega)
  · rw [magnitudeOf, if_neg h0]
    have hsum : ∀ e : ℤ, (2 : ℚ) ^ F.mantissaBits * 2 ^ (e - F.mantissaBits) = 2 ^ e := by
      intro e
      rw [← zpow_natCast, ← zpow_add₀ two_ne_zero]
      congr 1
      ring
    constructor
    · intro hlt
      by_contra hge
      have hexp : (F.bias + 1 : ℤ) ≤ (n / 2 ^ F.mantissaBits : ℕ) - F.bias := by omega
      have hle : (2 : ℚ) ^ F.mantissaBits ≤ (2 ^ F.mantissaBits + n % 2 ^ F.mantissaBits : ℕ) := by
        exact_mod_cast Nat.le_add_right _ _
      refine absurd hlt (not_lt.2 ?_)
      calc (2 : ℚ) ^ (F.bias + 1 : ℤ) ≤ 2 ^ ((n / 2 ^ F.mantissaBits : ℕ) - F.bias : ℤ) :=
            zpow_le_zpow_right₀ one_le_two hexp
        _ = 2 ^ F.mantissaBits * 2 ^ ((n / 2 ^ F.mantissaBits : ℕ) - F.bias - F.mantissaBits : ℤ) :=
            (hsum _).symm
        _ ≤ _ := mul_le_mul_of_nonneg_right hle (zpow_pos two_pos _).le
    · intro hlt
      have hlt' : ((2 ^ F.mantissaBits + n % 2 ^ F.mantissaBits : ℕ) : ℚ) <
          2 * 2 ^ F.mantissaBits := by
        exact_mod_cast (by omega : 2 ^ F.mantissaBits + n % 2 ^ F.mantissaBits <
          2 * 2 ^ F.mantissaBits)
      calc _ < 2 * 2 ^ F.mantissaBits *
            2 ^ ((n / 2 ^ F.mantissaBits : ℕ) - F.bias - F.mantissaBits : ℤ) :=
            mul_lt_mul_of_pos_right hlt' (zpow_pos two_pos _)
        _ = 2 ^ ((n / 2 ^ F.mantissaBits : ℕ) - F.bias + 1 : ℤ) := by
            rw [mul_assoc, hsum, zpow_add_one₀ two_ne_zero, mul_comm]
        _ ≤ 2 ^ (F.bias + 1 : ℤ) := zpow_le_zpow_right₀ one_le_two (by omega)

theorem narrow_eq_finite {sign : Bool} {x : ℚ} {n : ℕ} (hround : F.round x = F.magnitudeOf n)
    (hn : n / 2 ^ F.mantissaBits < 2 * F.bias + 1) : F.narrow sign x = F.datumOf sign n := by
  rw [narrow, hround, if_neg (not_le.2 ((magnitudeOf_lt_iff n).2 hn)), datumOf, if_pos hn]

theorem narrow_eq_infinity {sign : Bool} {x : ℚ} {n : ℕ} (hround : F.round x = F.magnitudeOf n)
    (hn : 2 * F.bias + 1 ≤ n / 2 ^ F.mantissaBits) : F.narrow sign x = .infinity sign := by
  rw [narrow, hround, if_pos (not_lt.1 fun h => absurd ((magnitudeOf_lt_iff n).1 h) (by omega))]

theorem roundEven_intCast (n : ℤ) : roundEven n = n :=
  roundEven_eq (.inl (by rw [sub_self, abs_zero]; norm_num))

theorem round_of_binade {x : ℚ} {e : ℤ} (hlo : (2 : ℚ) ^ e ≤ x) (hhi : x ≤ 2 ^ (e + 1)) :
    F.round x = roundEven (x / 2 ^ (max e (1 - F.bias) - F.mantissaBits)) *
      2 ^ (max e (1 - F.bias) - F.mantissaBits) := by
  rcases hhi.lt_or_eq with hlt | heq
  · rw [round, quantum, log_eq hlo hlt]
  · have hlog : Int.log 2 x = e + 1 := by
      apply log_eq heq.ge
      rw [heq]
      exact zpow_lt_zpow_right₀ one_lt_two (by omega)
    rw [round, quantum, hlog]
    by_cases hmin : e + 1 ≤ 1 - F.bias
    · rw [max_eq_right hmin, max_eq_right (by omega)]
    · -- a power of two is on both grids
      have hint : ∀ k : ℕ, x / 2 ^ (e + 1 - k) = ((2 ^ k : ℕ) : ℤ) := by
        intro k
        rw [heq, ← zpow_sub₀ two_ne_zero]
        push_cast
        rw [← zpow_natCast]
        congr 1
        ring
      have hcoarse := hint F.mantissaBits
      have hfine := hint (F.mantissaBits + 1)
      have hexp : e + 1 - ((F.mantissaBits + 1 : ℕ) : ℤ) = e - F.mantissaBits := by
        push_cast
        ring
      rw [hexp] at hfine
      rw [max_eq_left (by omega), max_eq_left (by omega), hcoarse, hfine, roundEven_intCast,
        roundEven_intCast, ← hcoarse, ← hfine, div_mul_cancel₀, div_mul_cancel₀]
      · exact (zpow_pos two_pos _).ne'
      · exact (zpow_pos two_pos _).ne'

theorem round_of_tiny {x : ℚ} (h0 : 0 < x) (hx : x < 2 ^ (-F.bias - F.mantissaBits : ℤ)) :
    F.round x = 0 := by
  have hlog : Int.log 2 x < 1 - F.bias := by
    have h : Int.log 2 x < -F.bias - F.mantissaBits :=
      (Int.lt_zpow_iff_log_lt (by decide) h0).mp (by exact_mod_cast hx)
    omega
  have hq : F.quantum x = 1 - F.bias - F.mantissaBits := by
    rw [quantum, max_eq_right hlog.le]
  have hhalf : x / 2 ^ F.quantum x < 1 / 2 := by
    rw [hq, div_lt_iff₀ (zpow_pos two_pos _)]
    calc x < 2 ^ (-F.bias - F.mantissaBits : ℤ) := hx
      _ = 1 / 2 * 2 ^ (1 - F.bias - F.mantissaBits : ℤ) := by
          rw [show (1 - F.bias - F.mantissaBits : ℤ) = -F.bias - F.mantissaBits + 1 by ring,
            zpow_add_one₀ two_ne_zero]
          ring
  have hround : roundEven (x / 2 ^ F.quantum x) = 0 := by
    apply roundEven_eq
    left
    rw [Int.cast_zero, sub_zero, abs_of_nonneg (by positivity)]
    exact hhalf
  rw [round, hround, Int.cast_zero, zero_mul]

theorem datumOf_zero (sign : Bool) : F.datumOf sign 0 = .finite sign 0 := by
  rw [datumOf, Nat.zero_div, if_pos (Nat.succ_pos _)]
  simp [magnitudeOf]

theorem narrow_of_tiny {sign : Bool} {x : ℚ} (h0 : 0 ≤ x)
    (hx : x < 2 ^ (-F.bias - F.mantissaBits : ℤ)) : F.narrow sign x = .finite sign 0 := by
  have hround : F.round x = 0 := by
    rcases h0.eq_or_lt with rfl | hpos
    · simp [round, roundEven]
    · exact round_of_tiny hpos hx
  rw [narrow, hround, if_neg (not_le.2 (zpow_pos two_pos _))]

end IeeeFormat

end DssPrime.Bits
