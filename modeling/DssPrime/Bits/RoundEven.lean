import Mathlib

/-!
# Rounding to nearest, ties to even

`roundEven` rounds a rational to an integer, `roundSig` to a number of significant bits.
The integer is pinned down by its distance (`roundEven_eq`), and a register with a round
bit and a sticky flag computes it (`roundEven_register`): the flag stands for a fraction
that follows below the register.
-/

namespace DssPrime.Bits

def roundEven (x : ℚ) : ℤ :=
  if x - ⌊x⌋ < 1 / 2 then ⌊x⌋
  else if 1 / 2 < x - ⌊x⌋ then ⌊x⌋ + 1
  else if ⌊x⌋ % 2 = 0 then ⌊x⌋ else ⌊x⌋ + 1

/-- A positive rational rounded to `p` significant bits, with an unbounded exponent. -/
def roundSig (p : ℕ) (x : ℚ) : ℚ :=
  roundEven (x / 2 ^ (Int.log 2 x - (p - 1))) * 2 ^ (Int.log 2 x - (p - 1))

/-- **The nearest integer is what `roundEven` returns**, and of two the even one. -/
theorem roundEven_eq {x : ℚ} {n : ℤ} (h : |x - n| < 1 / 2 ∨ (|x - n| = 1 / 2 ∧ n % 2 = 0)) :
    roundEven x = n := by
  unfold roundEven
  by_cases hle : (n : ℚ) ≤ x
  · rw [abs_of_nonneg (by linarith)] at h
    have hfloor : ⌊x⌋ = n := by
      rw [Int.floor_eq_iff]
      refine ⟨hle, ?_⟩
      rcases h with h | h <;> linarith [h]
    rw [hfloor]
    rcases h with h | ⟨h, heven⟩
    · rw [if_pos h]
    · rw [if_neg (by linarith), if_neg (by linarith), if_pos heven]
  · rw [abs_of_neg (by linarith)] at h
    have hfloor : ⌊x⌋ = n - 1 := by
      rw [Int.floor_eq_iff]
      push_cast
      refine ⟨?_, by linarith⟩
      rcases h with h | h <;> linarith [h]
    rw [hfloor]
    push_cast
    rcases h with h | ⟨h, heven⟩
    · rw [if_neg (by linarith), if_pos (by linarith)]
      ring
    · rw [if_neg (by linarith), if_neg (by linarith), if_neg (by omega)]
      ring

theorem log_eq {x : ℚ} {e : ℤ} (hlo : (2 : ℚ) ^ e ≤ x) (hhi : x < 2 ^ (e + 1)) :
    Int.log 2 x = e := by
  have hpos : 0 < x := lt_of_lt_of_le (zpow_pos (by norm_num) e) hlo
  have h1 : e ≤ Int.log 2 x := (Int.zpow_le_iff_le_log (by decide) hpos).mp (by exact_mod_cast hlo)
  have h2 : Int.log 2 x < e + 1 :=
    (Int.lt_zpow_iff_log_lt (by decide) hpos).mp (by exact_mod_cast hhi)
  omega

/-- **Round bit and sticky flag decide the nearest integer**: `R` is the register, `δ` what
follows below it, and what lies below the round bit does not reach it. -/
theorem roundEven_register {R l : ℕ} {δ : ℚ} (h0 : 0 ≤ δ)
    (hlow : ((R % 2 ^ l : ℕ) : ℚ) + δ < 2 ^ l) :
    roundEven (((R : ℚ) + δ) / 2 ^ (l + 1)) =
      ((R / 2 ^ (l + 1) + if R.testBit l && ((decide (δ ≠ 0) || decide (R % 2 ^ l ≠ 0)) ||
        R.testBit (l + 1)) then 1 else 0 : ℕ) : ℤ) := by
  have hpow : (0 : ℚ) < 2 ^ l := by positivity
  -- the register as quotient, round bit and rest
  obtain ⟨b, hb, hbit⟩ : ∃ b : ℕ, b ≤ 1 ∧ R.testBit l = decide (b = 1) := by
    refine ⟨R / 2 ^ l % 2, by omega, Nat.testBit_eq_decide_div_mod_eq⟩
  have hb' : b = R / 2 ^ l % 2 := by
    have h := Nat.testBit_eq_decide_div_mod_eq (x := R) (i := l)
    rw [hbit, decide_eq_decide] at h
    omega
  have hK : R / 2 ^ (l + 1) = R / 2 ^ l / 2 := by rw [pow_succ, Nat.div_div_eq_div_mul]
  have hodd : R.testBit (l + 1) = decide (R / 2 ^ (l + 1) % 2 = 1) :=
    Nat.testBit_eq_decide_div_mod_eq
  have hsplit : R = 2 ^ l * (2 * (R / 2 ^ (l + 1)) + b) + R % 2 ^ l := by
    have hdm := Nat.div_add_mod R (2 ^ l)
    have hdm2 : R / 2 ^ l = 2 * (R / 2 ^ (l + 1)) + b := by omega
    rw [← hdm2]
    exact hdm.symm
  generalize hKdef : R / 2 ^ (l + 1) = K at *
  generalize R % 2 ^ l = lo at *
  have hRq : (R : ℚ) = 2 ^ l * (2 * K + b) + lo := by exact_mod_cast hsplit
  -- the part below the round bit, as a fraction of it
  obtain ⟨u, hu⟩ : ∃ u : ℚ, u = (lo + δ) / 2 ^ l := ⟨_, rfl⟩
  have hu0 : 0 ≤ u := by rw [hu]; positivity
  have hu1 : u < 1 := by rw [hu, div_lt_one hpow]; exact hlow
  have huz : u = 0 ↔ δ = 0 ∧ lo = 0 := by
    rw [hu, div_eq_zero_iff, or_iff_left hpow.ne']
    have hlo0 : (0 : ℚ) ≤ lo := Nat.cast_nonneg lo
    constructor
    · intro h
      refine ⟨by linarith, ?_⟩
      have : (lo : ℚ) = 0 := by linarith
      exact_mod_cast this
    · rintro ⟨rfl, rfl⟩
      simp
  have hx : ((R : ℚ) + δ) / 2 ^ (l + 1) = K + (b + u) / 2 := by
    rw [hRq, hu, pow_succ]
    field_simp
    ring
  rw [hx, hbit, hodd]
  have hcases : (b = 0) ∨ (b = 1) := by omega
  rcases hcases with rfl | rfl
  · -- round bit clear: down
    apply roundEven_eq
    left
    push_cast
    rw [abs_lt]
    constructor <;> simp <;> linarith
  · by_cases hz : u = 0
    · -- a tie: to even
      obtain ⟨hδ, hlo⟩ := huz.mp hz
      subst hδ hlo
      by_cases hKodd : K % 2 = 1
      · apply roundEven_eq
        right
        refine ⟨?_, ?_⟩
        · simp only [hKodd, hz]
          norm_num
        · simp only [hKodd]
          norm_num
          omega
      · apply roundEven_eq
        right
        refine ⟨?_, ?_⟩
        · simp only [hKodd, hz]
          norm_num
        · simp only [hKodd]
          norm_num
          omega
    · -- more than half: up
      have hst : (decide (δ ≠ 0) || decide (lo ≠ 0)) = true := by
        by_contra hcon
        simp only [Bool.or_eq_true, decide_eq_true_iff, not_or, not_not] at hcon
        exact hz (huz.mpr hcon)
      have hupos : 0 < u := lt_of_le_of_ne hu0 (Ne.symm hz)
      rw [hst]
      apply roundEven_eq
      left
      rw [abs_lt]
      constructor <;> simp <;> linarith

theorem floor_le_roundEven (x : ℚ) : ⌊x⌋ ≤ roundEven x := by
  unfold roundEven
  split_ifs <;> omega

theorem roundEven_le_floor_add_one (x : ℚ) : roundEven x ≤ ⌊x⌋ + 1 := by
  unfold roundEven
  split_ifs <;> omega

theorem zpow_le_roundSig {p : ℕ} (hp : 1 ≤ p) {x : ℚ} {e : ℤ} (h : (2 : ℚ) ^ e ≤ x) :
    (2 : ℚ) ^ e ≤ roundSig p x := by
  have hx : 0 < x := lt_of_lt_of_le (zpow_pos (by norm_num) e) h
  have hlog : e ≤ Int.log 2 x :=
    (Int.zpow_le_iff_le_log (by decide) hx).mp (by exact_mod_cast h)
  have hself : (2 : ℚ) ^ Int.log 2 x ≤ x := by
    exact_mod_cast Int.zpow_log_le_self (b := 2) (by decide) hx
  have hpos : (0 : ℚ) < 2 ^ (Int.log 2 x - (p - 1)) := zpow_pos (by norm_num) _
  have hexp : (2 : ℚ) ^ (p - 1) * 2 ^ (Int.log 2 x - (p - 1)) = 2 ^ Int.log 2 x := by
    rw [← zpow_natCast, ← zpow_add₀ (by norm_num)]
    congr 1
    push_cast [hp]
    ring
  have hfloor : (2 : ℤ) ^ (p - 1) ≤ ⌊x / 2 ^ (Int.log 2 x - (p - 1))⌋ := by
    rw [Int.le_floor, le_div_iff₀ hpos]
    push_cast
    rw [hexp]
    exact hself
  have hround : ((2 : ℚ) ^ (p - 1)) ≤ roundEven (x / 2 ^ (Int.log 2 x - (p - 1))) := by
    exact_mod_cast hfloor.trans (floor_le_roundEven _)
  calc (2 : ℚ) ^ e ≤ 2 ^ Int.log 2 x := zpow_le_zpow_right₀ (by norm_num) hlog
    _ = 2 ^ (p - 1) * 2 ^ (Int.log 2 x - (p - 1)) := hexp.symm
    _ ≤ _ := mul_le_mul_of_nonneg_right hround hpos.le

theorem roundSig_le_zpow {p : ℕ} {x : ℚ} {e : ℤ} (hx : 0 < x) (h : x < (2 : ℚ) ^ e) :
    roundSig p x ≤ 2 ^ e := by
  have hlog : Int.log 2 x < e :=
    (Int.lt_zpow_iff_log_lt (by decide) hx).mp (by exact_mod_cast h)
  have hself : x < (2 : ℚ) ^ (Int.log 2 x + 1) := by
    exact_mod_cast Int.lt_zpow_succ_log_self (b := 2) (by decide) x
  have hpos : (0 : ℚ) < 2 ^ (Int.log 2 x - (p - 1)) := zpow_pos (by norm_num) _
  have hexp : (2 : ℚ) ^ p * 2 ^ (Int.log 2 x - (p - 1)) = 2 ^ (Int.log 2 x + 1) := by
    rw [← zpow_natCast, ← zpow_add₀ (by norm_num)]
    congr 1
    ring
  have hfloor : ⌊x / 2 ^ (Int.log 2 x - (p - 1))⌋ < (2 : ℤ) ^ p := by
    rw [Int.floor_lt, div_lt_iff₀ hpos]
    push_cast
    rw [hexp]
    exact hself
  have hround : (roundEven (x / 2 ^ (Int.log 2 x - (p - 1))) : ℚ) ≤ 2 ^ p := by
    have := roundEven_le_floor_add_one (x / 2 ^ (Int.log 2 x - (p - 1)))
    exact_mod_cast this.trans hfloor
  calc roundSig p x ≤ 2 ^ p * 2 ^ (Int.log 2 x - (p - 1)) :=
        mul_le_mul_of_nonneg_right hround hpos.le
    _ = 2 ^ (Int.log 2 x + 1) := hexp
    _ ≤ 2 ^ e := zpow_le_zpow_right₀ (by norm_num) (by omega)

end DssPrime.Bits
