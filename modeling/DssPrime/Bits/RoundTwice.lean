import Mathlib
import DssPrime.Bits.IeeeFormat

/-!
# Rounding twice

A number that is rounded to a grid and then to a coarser one ends where one rounding puts it,
unless the first rounding moved it onto a tie of the second one and the tie goes to the side the
number does not lie on (`roundEven_twice`).  `narrow_twice` says the same of two formats.
-/

namespace DssPrime.Bits

theorem roundEven_of_near {x D : ℚ} {n : ℤ} (hlo : n * (2 * D) - D < x * (2 * D))
    (hhi : x * (2 * D) < n * (2 * D) + D) : roundEven x = n := by
  have hD : 0 < 2 * D := by linarith
  apply roundEven_eq
  left
  rw [abs_lt]
  constructor
  · refine lt_of_mul_lt_mul_right ?_ hD.le
    linarith
  · refine lt_of_mul_lt_mul_right ?_ hD.le
    linarith

theorem roundEven_half (n : ℤ) : roundEven (n + 1 / 2) = if n % 2 = 0 then n else n + 1 := by
  split_ifs with heven
  · refine roundEven_eq (.inr ⟨?_, heven⟩)
    norm_num
  · refine roundEven_eq (.inr ⟨?_, by omega⟩)
    push_cast
    rw [abs_of_nonpos (by linarith)]
    ring

theorem roundEven_rem (R l : ℕ) :
    roundEven ((R : ℚ) / 2 ^ (l + 1)) = ((R / 2 ^ (l + 1) + if 2 ^ l < R % 2 ^ (l + 1) ∨
      (R % 2 ^ (l + 1) = 2 ^ l ∧ R / 2 ^ (l + 1) % 2 = 1) then 1 else 0 : ℕ) : ℤ) := by
  have hD : (0 : ℚ) < 2 ^ l := by positivity
  have hpow : (2 : ℚ) ^ (l + 1) = 2 * 2 ^ l := by ring
  have hscale : (R : ℚ) / 2 ^ (l + 1) * (2 * 2 ^ l) = R := by
    rw [hpow, div_mul_cancel₀ _ (by positivity)]
  have hsplit : (R : ℚ) = (R / 2 ^ (l + 1) : ℕ) * (2 * 2 ^ l) + (R % 2 ^ (l + 1) : ℕ) := by
    rw [← hpow]
    exact_mod_cast (Nat.div_add_mod' R (2 ^ (l + 1))).symm
  have hmod : ((R % 2 ^ (l + 1) : ℕ) : ℚ) < 2 * 2 ^ l := by
    rw [← hpow]
    exact_mod_cast Nat.mod_lt R (Nat.two_pow_pos _)
  generalize R / 2 ^ (l + 1) = K at *
  generalize R % 2 ^ (l + 1) = r at *
  have hr0 : (0 : ℚ) ≤ r := Nat.cast_nonneg r
  rcases lt_trichotomy r (2 ^ l) with hlt | heq | hgt
  · have hlt' : (r : ℚ) < 2 ^ l := by exact_mod_cast hlt
    rw [if_neg (by omega)]
    apply roundEven_of_near (D := 2 ^ l)
    · rw [hscale]
      push_cast
      linarith
    · rw [hscale]
      push_cast
      linarith
  · have hx : (R : ℚ) / 2 ^ (l + 1) = (K : ℤ) + 1 / 2 := by
      have hrq : (r : ℚ) = 2 ^ l := by exact_mod_cast heq
      rw [div_eq_iff (by positivity), hsplit, hrq, hpow, Int.cast_natCast]
      ring
    rw [hx, roundEven_half]
    split_ifs <;> omega
  · have hgt' : (2 ^ l : ℚ) < r := by exact_mod_cast hgt
    rw [if_pos (.inl hgt)]
    apply roundEven_of_near (D := 2 ^ l)
    · rw [hscale]
      push_cast
      linarith
    · rw [hscale]
      push_cast
      linarith

theorem abs_sub_roundEven_le (x : ℚ) : |x - roundEven x| ≤ 1 / 2 := by
  have hlo := Int.floor_le x
  have hhi := Int.lt_floor_add_one x
  unfold roundEven
  rw [abs_le]
  split_ifs <;> push_cast <;> constructor <;> linarith

/-- **Rounding to a fine grid first** is felt only where it ends on a tie that goes the other
way. -/
theorem roundEven_twice (z : ℚ) {t : ℕ} (ht : 1 ≤ t) {w : ℚ}
    (hw : w = roundEven (z * 2 ^ t) / 2 ^ t) :
    roundEven w = roundEven z ↔ ¬ (w - ⌊w⌋ = 1 / 2 ∧
      (z < w ∧ ⌊w⌋ % 2 = 1 ∨ w < z ∧ ⌊w⌋ % 2 = 0)) := by
  obtain ⟨u, rfl⟩ : ∃ u, t = u + 1 := ⟨t - 1, by omega⟩
  have hpow : (2 : ℚ) ^ (u + 1) = 2 * 2 ^ u := by ring
  have hD : (1 : ℚ) ≤ 2 ^ u := one_le_pow₀ one_le_two
  have hnear := abs_le.1 (abs_sub_roundEven_le (z * 2 ^ (u + 1)))
  generalize hN : roundEven (z * 2 ^ (u + 1)) = N at hw hnear
  rw [hpow] at hnear hw
  have hscale : w * (2 * 2 ^ u) = N := by rw [hw, div_mul_cancel₀ _ (by positivity)]
  -- what lies between the integer below and the fine number, on the fine grid
  obtain ⟨r, hr⟩ : ∃ r : ℤ, N = ⌊w⌋ * (2 * 2 ^ u) + r := ⟨N - ⌊w⌋ * (2 * 2 ^ u), by ring⟩
  have hrq : (N : ℚ) = ⌊w⌋ * (2 * 2 ^ u) + r := by exact_mod_cast hr
  have hlo := Int.floor_le w
  have hhi := Int.lt_floor_add_one w
  have hr0 : (0 : ℚ) ≤ r := by nlinarith
  have hr1 : (r : ℚ) < 2 * 2 ^ u := by nlinarith
  have hfrac : w - ⌊w⌋ = 1 / 2 ↔ r = 2 ^ u := by
    constructor
    · intro h
      have hq : (r : ℚ) = 2 ^ u := by
        have : w * (2 * 2 ^ u) = (⌊w⌋ + 1 / 2) * (2 * 2 ^ u) := by rw [← h]; ring
        linarith
      exact_mod_cast hq
    · intro h
      have hq : (r : ℚ) = 2 ^ u := by exact_mod_cast h
      have hne : (2 * 2 ^ u : ℚ) ≠ 0 := by positivity
      apply mul_right_cancel₀ hne
      linarith
  rcases lt_trichotomy r (2 ^ u) with hlt | heq | hgt
  · have hlt' : (r : ℚ) ≤ 2 ^ u - 1 := by
      have : (r : ℚ) + 1 ≤ 2 ^ u := by exact_mod_cast hlt
      linarith
    have hfw : roundEven w = ⌊w⌋ := by
      apply roundEven_of_near (D := 2 ^ u) <;> linarith
    have hfz : roundEven z = ⌊w⌋ := by
      apply roundEven_of_near (D := 2 ^ u) <;> linarith
    refine iff_of_true (hfw.trans hfz.symm) fun h => ?_
    have := hfrac.1 h.1
    omega
  · have hq : (r : ℚ) = 2 ^ u := by exact_mod_cast heq
    have htie := hfrac.2 heq
    have hwhalf : w = ⌊w⌋ + 1 / 2 := by linarith
    have hfw : roundEven w = if ⌊w⌋ % 2 = 0 then ⌊w⌋ else ⌊w⌋ + 1 := by
      conv_lhs => rw [hwhalf]
      exact roundEven_half _
    rcases lt_trichotomy z w with hzw | rfl | hzw
    · have hfz : roundEven z = ⌊w⌋ := by
        apply roundEven_of_near (D := 2 ^ u)
        · linarith
        · nlinarith
      rw [hfw, hfz, htie]
      simp only [true_and, hzw, not_lt_of_gt hzw, false_and, or_false]
      split_ifs <;> omega
    · simp
    · have hfz : roundEven z = ⌊w⌋ + 1 := by
        apply roundEven_of_near (D := 2 ^ u)
        · push_cast
          nlinarith
        · push_cast
          linarith
      rw [hfw, hfz, htie]
      simp only [true_and, hzw, not_lt_of_gt hzw, false_and, false_or]
      split_ifs <;> omega
  · have hgt' : (2 : ℚ) ^ u + 1 ≤ r := by exact_mod_cast hgt
    have hfw : roundEven w = ⌊w⌋ + 1 := by
      apply roundEven_of_near (D := 2 ^ u)
      · push_cast
        linarith
      · push_cast
        linarith
    have hfz : roundEven z = ⌊w⌋ + 1 := by
      apply roundEven_of_near (D := 2 ^ u)
      · push_cast
        linarith
      · push_cast
        linarith
    refine iff_of_true (hfw.trans hfz.symm) fun h => ?_
    have := hfrac.1 h.1
    omega

namespace IeeeFormat

variable {F G : IeeeFormat}

/-- On the grid of `x`, `y` is halfway between two neighbours, and the even one is not on the side
of `x`. -/
def TieAgainst (F : IeeeFormat) (x y : ℚ) : Prop :=
  y / 2 ^ F.quantum x - ⌊y / 2 ^ F.quantum x⌋ = 1 / 2 ∧
    (x < y ∧ ⌊y / 2 ^ F.quantum x⌋ % 2 = 1 ∨ y < x ∧ ⌊y / 2 ^ F.quantum x⌋ % 2 = 0)

theorem binade {x : ℚ} (hx : (2 : ℚ) ^ (1 - F.bias : ℤ) ≤ x) :
    (2 : ℚ) ^ Int.log 2 x ≤ x ∧ x < 2 ^ (Int.log 2 x + 1) ∧ (1 - F.bias : ℤ) ≤ Int.log 2 x := by
  have hpos : 0 < x := (zpow_pos two_pos _).trans_le hx
  refine ⟨?_, ?_, ?_⟩
  · exact_mod_cast Int.zpow_log_le_self (b := 2) (by decide) hpos
  · exact_mod_cast Int.lt_zpow_succ_log_self (b := 2) (by decide) x
  · exact (Int.zpow_le_iff_le_log (by decide) hpos).mp (by exact_mod_cast hx)

theorem round_binade {x : ℚ} (hx : (2 : ℚ) ^ (1 - F.bias : ℤ) ≤ x) :
    (2 : ℚ) ^ Int.log 2 x ≤ F.round x ∧ F.round x ≤ 2 ^ (Int.log 2 x + 1) := by
  obtain ⟨hlo, hhi, hmin⟩ := binade hx
  have hq : F.quantum x = Int.log 2 x - F.mantissaBits := by rw [quantum, max_eq_left hmin]
  have hpos : (0 : ℚ) < 2 ^ F.quantum x := zpow_pos two_pos _
  have hgrid : ∀ k : ℕ, (2 : ℚ) ^ (F.quantum x + k) = ((2 ^ k : ℕ) : ℤ) * 2 ^ F.quantum x := by
    intro k
    rw [zpow_add₀ two_ne_zero, zpow_natCast, mul_comm]
    push_cast
    rfl
  have hlow := hgrid F.mantissaBits
  have hhigh := hgrid (F.mantissaBits + 1)
  rw [show F.quantum x + F.mantissaBits = Int.log 2 x by omega] at hlow
  rw [show F.quantum x + (F.mantissaBits + 1 : ℕ) = Int.log 2 x + 1 by push_cast; omega] at hhigh
  rw [hlow] at hlo ⊢
  rw [hhigh] at hhi ⊢
  rw [← le_div_iff₀ hpos] at hlo
  rw [← div_lt_iff₀ hpos] at hhi
  unfold round
  constructor
  · refine mul_le_mul_of_nonneg_right ?_ hpos.le
    exact_mod_cast (Int.le_floor.2 hlo).trans (floor_le_roundEven _)
  · refine mul_le_mul_of_nonneg_right ?_ hpos.le
    have hfloor := Int.floor_lt.2 hhi
    have hle := roundEven_le_floor_add_one (x / 2 ^ F.quantum x)
    exact_mod_cast hle.trans (by omega)

theorem round_round {x : ℚ} (hx : (2 : ℚ) ^ (1 - G.bias : ℤ) ≤ x) :
    F.round (G.round x) = roundEven (G.round x / 2 ^ F.quantum x) * 2 ^ F.quantum x := by
  obtain ⟨hlo, hhi⟩ := round_binade hx
  exact round_of_binade hlo hhi

/-- **Rounding through a finer format** differs from rounding once exactly at the ties it makes
and breaks against the number. -/
theorem round_twice (hbits : F.mantissaBits < G.mantissaBits) {x : ℚ}
    (hx : (2 : ℚ) ^ (1 - G.bias : ℤ) ≤ x) :
    roundEven (G.round x / 2 ^ F.quantum x) = roundEven (x / 2 ^ F.quantum x) ↔
      ¬ F.TieAgainst x (G.round x) := by
  obtain ⟨hlo, hhi, hmin⟩ := binade hx
  have hqG : G.quantum x = Int.log 2 x - G.mantissaBits := by rw [quantum, max_eq_left hmin]
  have hqF : Int.log 2 x - F.mantissaBits ≤ F.quantum x := by
    have := le_max_left (Int.log 2 x) (1 - F.bias)
    rw [quantum]
    omega
  obtain ⟨t, ht⟩ : ∃ t : ℕ, F.quantum x = G.quantum x + t :=
    ⟨(F.quantum x - G.quantum x).toNat, by omega⟩
  have hpos : (0 : ℚ) < 2 ^ F.quantum x := zpow_pos two_pos _
  have hsplit : (2 : ℚ) ^ F.quantum x = 2 ^ G.quantum x * 2 ^ t := by
    rw [ht, zpow_add₀ two_ne_zero, zpow_natCast]
  have hfine : x / 2 ^ F.quantum x * 2 ^ t = x / 2 ^ G.quantum x := by
    rw [hsplit, div_mul_eq_div_div, div_mul_cancel₀ _ (by positivity)]
  have hw : G.round x / 2 ^ F.quantum x =
      roundEven (x / 2 ^ F.quantum x * 2 ^ t) / 2 ^ t := by
    rw [hfine, round, hsplit, mul_comm (2 ^ G.quantum x : ℚ),
      mul_div_mul_right _ _ (zpow_pos two_pos _).ne']
  rw [roundEven_twice _ (by omega) hw, TieAgainst, div_lt_div_iff_of_pos_right hpos,
    div_lt_div_iff_of_pos_right hpos]

theorem zpow_le_round {k : ℤ} (hk : (1 - F.bias - F.mantissaBits : ℤ) ≤ k) {x : ℚ}
    (hx : (2 : ℚ) ^ k ≤ x) : (2 : ℚ) ^ k ≤ F.round x := by
  have hpos : 0 < x := (zpow_pos two_pos _).trans_le hx
  have hlog : k ≤ Int.log 2 x :=
    (Int.zpow_le_iff_le_log (by decide) hpos).mp (by exact_mod_cast hx)
  have hq : (0 : ℚ) < 2 ^ F.quantum x := zpow_pos two_pos _
  rcases le_or_gt (F.quantum x) k with hle | hgt
  · obtain ⟨n, hn⟩ : ∃ n : ℕ, k = F.quantum x + n := ⟨(k - F.quantum x).toNat, by omega⟩
    have hgrid : (2 : ℚ) ^ k = ((2 ^ n : ℕ) : ℤ) * 2 ^ F.quantum x := by
      rw [hn, zpow_add₀ two_ne_zero, zpow_natCast, mul_comm]
      push_cast
      rfl
    rw [hgrid, ← le_div_iff₀ hq] at hx
    rw [hgrid, round]
    refine mul_le_mul_of_nonneg_right ?_ hq.le
    exact_mod_cast (Int.le_floor.2 hx).trans (floor_le_roundEven _)
  · have hnormal : (1 - F.bias : ℤ) ≤ Int.log 2 x := by
      rw [quantum] at hgt
      omega
    have hself : (2 : ℚ) ^ Int.log 2 x ≤ x := by
      exact_mod_cast Int.zpow_log_le_self (b := 2) (by decide) hpos
    calc (2 : ℚ) ^ k ≤ 2 ^ Int.log 2 x := zpow_le_zpow_right₀ one_le_two hlog
      _ ≤ F.round x := (round_binade ((zpow_le_zpow_right₀ one_le_two hnormal).trans hself)).1

/-- **Narrowing through a finer format** gives another datum than narrowing at once exactly at
those ties, below the overflow. -/
theorem narrow_twice (hbits : F.mantissaBits < G.mantissaBits) {sign : Bool} {x : ℚ}
    (hx : (2 : ℚ) ^ (1 - G.bias : ℤ) ≤ x) :
    F.narrow sign (G.round x) = F.narrow sign x ↔
      ¬ (G.round x < 2 ^ (F.bias + 1 : ℤ) ∧ F.TieAgainst x (G.round x)) := by
  have htwice := round_twice (F := F) hbits hx
  have hy := round_round (F := F) hx
  obtain ⟨hylo, hyhi⟩ := round_binade hx
  obtain ⟨hlo, hhi, -⟩ := binade hx
  have hpos : (0 : ℚ) < 2 ^ F.quantum x := zpow_pos two_pos _
  by_cases htie : F.TieAgainst x (G.round x)
  · have hne : roundEven (G.round x / 2 ^ F.quantum x) ≠ roundEven (x / 2 ^ F.quantum x) :=
      fun heq => htwice.1 heq htie
    obtain ⟨hhalf, hside⟩ := htie
    by_cases hover : G.round x < 2 ^ (F.bias + 1 : ℤ)
    · -- the overflow threshold is on the grid
      have hlog : Int.log 2 x < F.bias + 1 :=
        (zpow_lt_zpow_iff_right₀ one_lt_two).1 (hylo.trans_lt hover)
      obtain ⟨k, hk⟩ : ∃ k : ℕ, (F.bias + 1 : ℤ) = F.quantum x + k := by
        refine ⟨(F.bias + 1 - F.quantum x).toNat, ?_⟩
        rw [quantum]
        omega
      have hB : (2 : ℚ) ^ (F.bias + 1 : ℤ) = ((2 ^ k : ℕ) : ℤ) * 2 ^ F.quantum x := by
        rw [hk, zpow_add₀ two_ne_zero, zpow_natCast, mul_comm]
        push_cast
        rfl
      refine iff_of_false ?_ fun h => h ⟨hover, hhalf, hside⟩
      rw [hB, ← div_lt_iff₀ hpos] at hover
      have hm := Int.floor_lt.2 hover
      have hw : G.round x / 2 ^ F.quantum x = ⌊G.round x / 2 ^ F.quantum x⌋ + 1 / 2 := by
        linarith
      have hRw := roundEven_half ⌊G.round x / 2 ^ F.quantum x⌋
      rw [← hw] at hRw
      have hRz := roundEven_le_floor_add_one (x / 2 ^ F.quantum x)
      have hcut : ∀ n : ℤ, (2 : ℚ) ^ (F.bias + 1 : ℤ) ≤ n * 2 ^ F.quantum x ↔ (2 ^ k : ℕ) ≤ n := by
        intro n
        rw [hB, mul_le_mul_iff_left₀ hpos]
        exact_mod_cast Iff.rfl
      have hx' : F.round x = roundEven (x / 2 ^ F.quantum x) * 2 ^ F.quantum x := rfl
      rw [narrow, narrow, hy, hx']
      simp only [hcut]
      split_ifs with h1 h2 h2
      · -- both overflow: neither passes the neighbour above
        intro _
        rcases hside with ⟨hxy, hodd⟩ | ⟨hxy, heven⟩
        · have hz : ⌊x / 2 ^ F.quantum x⌋ ≤ ⌊G.round x / 2 ^ F.quantum x⌋ :=
            Int.floor_le_floor (div_le_div_of_nonneg_right hxy.le hpos.le)
          rw [if_neg (by omega)] at hRw
          omega
        · rw [if_pos heven] at hRw
          omega
      · simp
      · simp
      · intro heq
        injection heq with _ heq
        exact hne (by exact_mod_cast mul_right_cancel₀ hpos.ne' heq)
    · refine iff_of_true ?_ fun h => hover h.1
      have hbias : (1 - F.bias - F.mantissaBits : ℤ) ≤ F.bias + 1 := by omega
      have hxB : (2 : ℚ) ^ (F.bias + 1 : ℤ) ≤ x := by
        by_contra hxB
        -- the fine number would be the threshold itself, which is no tie
        have hlog : Int.log 2 x + 1 ≤ F.bias + 1 := by
          have := (zpow_lt_zpow_iff_right₀ (one_lt_two (α := ℚ))).1 (hlo.trans_lt (not_le.1 hxB))
          omega
        have heq : G.round x = 2 ^ (F.bias + 1 : ℤ) :=
          le_antisymm (hyhi.trans (zpow_le_zpow_right₀ one_le_two hlog)) (not_lt.1 hover)
        obtain ⟨k, hk⟩ : ∃ k : ℕ, (F.bias + 1 : ℤ) = F.quantum x + k := by
          refine ⟨(F.bias + 1 - F.quantum x).toNat, ?_⟩
          rw [quantum]
          omega
        have hint : G.round x / 2 ^ F.quantum x = ((2 ^ k : ℕ) : ℤ) := by
          rw [heq, hk, zpow_add₀ two_ne_zero, mul_div_cancel_left₀ _ hpos.ne', zpow_natCast]
          push_cast
          rfl
        rw [hint, Int.floor_intCast, sub_self] at hhalf
        norm_num at hhalf
      rw [narrow, narrow, if_pos (zpow_le_round hbias (not_lt.1 hover)),
        if_pos (zpow_le_round hbias hxB)]
  · refine iff_of_true ?_ fun h => htie h.2
    have hround : F.round (G.round x) = F.round x := by rw [hy, htwice.2 htie, round]
    rw [narrow, narrow, hround]

end IeeeFormat

end DssPrime.Bits
