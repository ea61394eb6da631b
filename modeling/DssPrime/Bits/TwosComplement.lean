import Mathlib

/-!
# Integers modulo a power of two

`wrapInt W S z` is the integer of the `W`-bit type of signedness `S` that is congruent to
`z` modulo `2 ^ W`.  It depends on the low `W` bits of `z` only, which is how a bitwise
operation and a modular one are compared (`wrapInt_eq_of_testBit`).
-/

namespace DssPrime.Bits

/-- The integer in the range of a `W`-bit type that is congruent to `z` modulo `2 ^ W`. -/
def wrapInt (W : ℕ) (S : Bool) (z : ℤ) : ℤ :=
  if S then z.bmod (2 ^ W) else z % 2 ^ W

variable {W : ℕ} {S : Bool} {x y z : ℤ}

theorem wrapInt_congr (h : x ≡ y [ZMOD 2 ^ W]) : wrapInt W S x = wrapInt W S y := by
  unfold wrapInt
  have h' : x % ((2 ^ W : ℕ) : ℤ) = y % ((2 ^ W : ℕ) : ℤ) := by
    push_cast
    exact h
  cases S with
  | false => exact h
  | true => simp only [if_true, Int.bmod, h']

theorem wrapInt_modEq (W : ℕ) (S : Bool) (z : ℤ) : wrapInt W S z ≡ z [ZMOD 2 ^ W] := by
  unfold wrapInt
  cases S with
  | false => exact Int.mod_modEq z _
  | true =>
    have h := Int.bmod_emod (x := z) (m := 2 ^ W)
    push_cast at h
    exact h

theorem wrapInt_range (hW : 1 ≤ W) (z : ℤ) :
    (if S then -(2 ^ (W - 1)) ≤ wrapInt W S z ∧ wrapInt W S z < 2 ^ (W - 1)
      else 0 ≤ wrapInt W S z ∧ wrapInt W S z < 2 ^ W) := by
  obtain ⟨k, rfl⟩ : ∃ k, W = k + 1 := ⟨W - 1, by omega⟩
  have hpos : 0 < 2 ^ (k + 1) := Nat.two_pow_pos _
  cases S with
  | false =>
    have hpos' : (0 : ℤ) < 2 ^ (k + 1) := by positivity
    exact ⟨Int.emod_nonneg _ hpos'.ne', Int.emod_lt_of_pos _ hpos'⟩
  | true =>
    have hlo := Int.le_bmod (x := z) hpos
    have hhi := Int.bmod_lt (x := z) hpos
    have hp : (2 : ℤ) ^ (k + 1) = 2 * 2 ^ k := by rw [pow_succ]; ring
    simp only [wrapInt, if_true, Nat.add_sub_cancel]
    push_cast at hlo hhi
    rw [hp] at hlo hhi
    constructor <;> omega

theorem two_pow_eq_half (hW : 1 ≤ W) : 2 ^ W = 2 * 2 ^ (W - 1) := by
  rw [← pow_succ', Nat.sub_add_cancel hW]

theorem testBit_pred_iff (n : ℕ) (hW : 1 ≤ W) :
    n.testBit (W - 1) = true ↔ 2 ^ (W - 1) ≤ n % 2 ^ W := by
  have hmod : n % 2 ^ W < 2 ^ W := Nat.mod_lt _ (Nat.two_pow_pos _)
  have hbit : (n % 2 ^ W).testBit (W - 1) = n.testBit (W - 1) := by
    rw [Nat.testBit_mod_two_pow, decide_eq_true (by omega : W - 1 < W), Bool.true_and]
  rw [← hbit, Nat.testBit_eq_decide_div_mod_eq, decide_eq_true_iff]
  rw [two_pow_eq_half hW] at hmod ⊢
  constructor
  · intro hone
    by_contra hlt
    rw [Nat.div_eq_of_lt (by omega)] at hone
    omega
  · intro hge
    rw [Nat.div_eq_of_lt_le (by omega) (by omega) (k := 1)]

theorem testBit_toNat_emod (z : ℤ) (W i : ℕ) :
    (z % 2 ^ W).toNat.testBit i = (decide (i < W) && z.testBit i) := by
  cases z with
  | ofNat n =>
    have h : (Int.ofNat n % 2 ^ W).toNat = n % 2 ^ W := by
      have : (Int.ofNat n % 2 ^ W) = ((n % 2 ^ W : ℕ) : ℤ) := by push_cast; rfl
      rw [this, Int.toNat_natCast]
    rw [h, Nat.testBit_mod_two_pow]
    rfl
  | negSucc n =>
    have hlt : n % 2 ^ W < 2 ^ W := Nat.mod_lt _ (Nat.two_pow_pos _)
    have h : (Int.negSucc n % 2 ^ W).toNat = 2 ^ W - (n % 2 ^ W + 1) := by
      have hpos : (0 : ℤ) < 2 ^ W := by positivity
      rw [Int.negSucc_emod _ hpos]
      have : ((2 : ℤ) ^ W - 1 - (n : ℤ) % 2 ^ W) = ((2 ^ W - (n % 2 ^ W + 1) : ℕ) : ℤ) := by
        rw [Nat.cast_sub hlt]
        push_cast
        ring
      rw [this, Int.toNat_natCast]
    rw [h, Nat.testBit_two_pow_sub_succ hlt, Nat.testBit_mod_two_pow]
    by_cases hi : i < W <;> simp [hi, Int.testBit]

theorem modEq_of_testBit (h : ∀ i < W, x.testBit i = y.testBit i) : x ≡ y [ZMOD 2 ^ W] := by
  have hpos : (2 : ℤ) ^ W ≠ 0 := by positivity
  have hnat : (x % 2 ^ W).toNat = (y % 2 ^ W).toNat := by
    apply Nat.eq_of_testBit_eq
    intro i
    rw [testBit_toNat_emod, testBit_toNat_emod]
    by_cases hi : i < W
    · rw [h i hi]
    · simp [hi]
  have hx := Int.toNat_of_nonneg (Int.emod_nonneg x hpos)
  have hy := Int.toNat_of_nonneg (Int.emod_nonneg y hpos)
  rw [Int.ModEq, ← hx, ← hy, hnat]

theorem testBit_of_modEq (h : x ≡ y [ZMOD 2 ^ W]) {i : ℕ} (hi : i < W) :
    x.testBit i = y.testBit i := by
  have hx := testBit_toNat_emod x W i
  have hy := testBit_toNat_emod y W i
  rw [h, hy] at hx
  simpa [hi] using hx.symm

theorem wrapInt_eq_of_testBit (h : ∀ i < W, x.testBit i = y.testBit i) :
    wrapInt W S x = wrapInt W S y :=
  wrapInt_congr (modEq_of_testBit h)

theorem testBit_natCast (n i : ℕ) : (n : ℤ).testBit i = n.testBit i := rfl

theorem testBit_ediv_two_pow (z : ℤ) (c i : ℕ) : (z / 2 ^ c).testBit i = z.testBit (i + c) := by
  cases z with
  | ofNat n =>
    have h : (Int.ofNat n / 2 ^ c) = ((n / 2 ^ c : ℕ) : ℤ) := by push_cast; rfl
    rw [h, testBit_natCast, Nat.testBit_div_two_pow]
    rfl
  | negSucc n =>
    have h : (Int.negSucc n / 2 ^ c) = Int.negSucc (n / 2 ^ c) := by
      have hpos : (0 : ℤ) < 2 ^ c := by positivity
      rw [Int.negSucc_ediv _ hpos, Int.negSucc_eq]
      push_cast
      rfl
    rw [h]
    simp only [Int.testBit, Nat.testBit_div_two_pow]

end DssPrime.Bits
