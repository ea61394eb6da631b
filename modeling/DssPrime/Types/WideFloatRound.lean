import Mathlib
import DssPrime.Bits.RoundEven
import DssPrime.Types.WideFloatReg

/-!
# One rounding for every operation

A well-formed normal value has its integer bit set, no bits below its kind's precision and an
exponent of the normal range (`WideFloatValue.WellFormed`). `Rounds k sign m r` says that `r` is the
positive rational `m` rounded once, to nearest even at the precision of `k` with an unbounded
exponent: the infinity when that exceeds the largest finite value, nothing when it is below the
smallest normal one, else the value itself.
-/

namespace DssPrime.WideFloatValue

def magnitude (v : WideFloatValue) : ℚ := v.sig * 2 ^ (v.exponent - 127)

def maxFinite (k : TypeKind) : ℚ :=
  (2 ^ significandBits k - 1) * 2 ^ (kMaxExp - (significandBits k - 1))

def minNormal : ℚ := 2 ^ kMinExp

/-- A value in range, with its integer bit and no bit too many. -/
structure WellFormed (v : WideFloatValue) : Prop where
  supported : isSupportedKind v.kind = true
  integerBit : v.cls = .normal → 2 ^ 127 ≤ v.sig
  precision : v.cls = .normal → v.sig % 2 ^ (128 - significandBits v.kind) = 0
  exponent_le : v.cls = .normal → v.exponent ≤ kMaxExp
  le_exponent : v.cls = .normal → kMinExp ≤ v.exponent

/-- The magnitude `m` is rounded once. -/
structure Rounds (k : TypeKind) (sign : Bool) (m : ℚ) (r : Option WideFloatValue) : Prop where
  overflow : r = some (infinity k sign) ↔ maxFinite k < Bits.roundSig (significandBits k) m
  underflow : r = none ↔ Bits.roundSig (significandBits k) m < minNormal
  value : minNormal ≤ Bits.roundSig (significandBits k) m →
    Bits.roundSig (significandBits k) m ≤ maxFinite k →
    ∃ v, r = some v ∧ v.WellFormed ∧ v.kind = k ∧ v.cls = .normal ∧ v.sign = sign ∧
      v.magnitude = Bits.roundSig (significandBits k) m

variable {k : TypeKind} {W : List (BitVec 64)}

theorem Rounds.of_cases {sign : Bool} {m : ℚ} {r : Option WideFloatValue}
    (overflow : maxFinite k < Bits.roundSig (significandBits k) m → r = some (infinity k sign))
    (underflow : Bits.roundSig (significandBits k) m < minNormal → r = none)
    (value : minNormal ≤ Bits.roundSig (significandBits k) m →
      Bits.roundSig (significandBits k) m ≤ maxFinite k →
      ∃ v, r = some v ∧ v.WellFormed ∧ v.kind = k ∧ v.cls = .normal ∧ v.sign = sign ∧
        v.magnitude = Bits.roundSig (significandBits k) m) : Rounds k sign m r := by
  have hcases : maxFinite k < Bits.roundSig (significandBits k) m ∨
      Bits.roundSig (significandBits k) m < minNormal ∨
      (minNormal ≤ Bits.roundSig (significandBits k) m ∧
        Bits.roundSig (significandBits k) m ≤ maxFinite k) := by
    by_cases h1 : maxFinite k < Bits.roundSig (significandBits k) m
    · exact .inl h1
    · by_cases h2 : Bits.roundSig (significandBits k) m < minNormal
      · exact .inr (.inl h2)
      · exact .inr (.inr ⟨not_lt.mp h2, not_lt.mp h1⟩)
  refine ⟨⟨?_, overflow⟩, ⟨?_, underflow⟩, value⟩
  · intro hr
    rcases hcases with h | h | h
    · exact h
    · rw [underflow h] at hr
      cases hr
    · obtain ⟨v, hv, -, -, hcls, -⟩ := value h.1 h.2
      rw [hv, Option.some.injEq] at hr
      rw [hr] at hcls
      cases hcls
  · intro hr
    rcases hcases with h | h | h
    · rw [overflow h] at hr
      cases hr
    · exact h
    · obtain ⟨v, hv, -⟩ := value h.1 h.2
      rw [hv] at hr
      cases hr

theorem significandBits_cases (k : TypeKind) :
    significandBits k = 113 ∨ significandBits k = 64 := by
  unfold significandBits
  split
  · exact .inl rfl
  · exact .inr rfl

theorem rounded_register (hW : Reg W) {p : ℕ} (hp : 1 ≤ p) (hp' : p ≤ 113)
    (hlo : 2 ^ 255 ≤ Limbs.val W) (up : Bool) (exp : ℤ) :
    ∃ (W' : List (BitVec 64)) (exp' : ℤ) (K : ℕ),
      (if (if up then addAt (clearBitsBelow W (256 - p)) (256 - p)
          else (clearBitsBelow W (256 - p), false)).2
        then [0#64, 0#64, 0#64, 1#64 <<< 63]
        else (if up then addAt (clearBitsBelow W (256 - p)) (256 - p)
          else (clearBitsBelow W (256 - p), false)).1) = W' ∧
      (if (if up then addAt (clearBitsBelow W (256 - p)) (256 - p)
          else (clearBitsBelow W (256 - p), false)).2 then exp + 1 else exp) = exp' ∧
      Reg W' ∧ Limbs.val W' = 2 ^ (256 - p) * K ∧ 2 ^ (p - 1) ≤ K ∧ K < 2 ^ p ∧
      ((Limbs.val W / 2 ^ (256 - p) + if up then 1 else 0 : ℕ) : ℚ) * 2 ^ (exp - (p - 1)) =
        K * 2 ^ (exp' - (p - 1)) := by
  have hlt := hW.val_lt
  have hpow : 2 ^ (256 - p) * 2 ^ p = 2 ^ 256 := by rw [← pow_add]; congr 1; omega
  have hpow' : 2 ^ (256 - p) * 2 ^ (p - 1) = 2 ^ 255 := by rw [← pow_add]; congr 1; omega
  have hclr : Reg (clearBitsBelow W (256 - p)) := (clearBitsBelow_length W _).trans hW
  have hval := val_clearBitsBelow W (256 - p)
  have hKlt : Limbs.val W / 2 ^ (256 - p) < 2 ^ p :=
    Nat.div_lt_of_lt_mul (by rw [hpow]; exact hlt)
  have hKge : 2 ^ (p - 1) ≤ Limbs.val W / 2 ^ (256 - p) :=
    (Nat.le_div_iff_mul_le (Nat.two_pow_pos _)).mpr (by rw [Nat.mul_comm, hpow']; exact hlo)
  cases up with
  | false =>
    refine ⟨_, _, _, rfl, rfl, hclr, hval, hKge, hKlt, ?_⟩
    simp
  | true =>
    obtain ⟨hadd, hreg⟩ := addAt_val hclr (show 256 - p < 256 by omega)
    rw [hval] at hadd
    simp only [if_true]
    generalize addAt (clearBitsBelow W (256 - p)) (256 - p) = r at hadd hreg ⊢
    generalize Limbs.val W / 2 ^ (256 - p) = K at *
    have hsum : 2 ^ (256 - p) * K + 2 ^ (256 - p) = 2 ^ (256 - p) * (K + 1) := by ring
    rw [hsum] at hadd
    cases hcarry : r.2 with
    | true =>
      -- the carry leaves the register: the kept bits were all ones
      have hKtop : K + 1 = 2 ^ p := by
        rw [hcarry, Bool.toNat_true, Nat.mul_one, ← hpow] at hadd
        have hle : 2 ^ (256 - p) * 2 ^ p ≤ 2 ^ (256 - p) * (K + 1) := by omega
        have := Nat.le_of_mul_le_mul_left hle (Nat.two_pow_pos _)
        omega
      refine ⟨_, _, 2 ^ (p - 1), rfl, rfl, rfl, ?_, le_rfl,
        Nat.pow_lt_pow_right (by decide) (by omega), ?_⟩
      · rw [hpow']
        rfl
      · rw [hKtop]
        have hexp : exp + 1 - ((p : ℤ) - 1) = exp - (p - 1) + 1 := by ring
        have hp2 : (2 : ℕ) ^ p = 2 * 2 ^ (p - 1) := by
          rw [← pow_succ']
          congr 1
          omega
        rw [hp2]
        simp only [if_true]
        rw [hexp, zpow_add_one₀ (by norm_num)]
        push_cast
        ring
    | false =>
      rw [hcarry, Bool.toNat_false, Nat.mul_zero, Nat.add_zero] at hadd
      have hlt' : 2 ^ (256 - p) * (K + 1) < 2 ^ (256 - p) * 2 ^ p := by
        rw [← hadd, hpow]
        exact hreg.val_lt
      refine ⟨_, _, K + 1, rfl, rfl, hreg, hadd, by omega,
        Nat.lt_of_mul_lt_mul_left hlt', ?_⟩
      simp

theorem sig_of_reg (hW : Reg W) (sign : Bool) (cls : WideFloatClass) (e : ℤ) (k : TypeKind) :
    sig ⟨sign, cls, e, W.getD 3 0#64, W.getD 2 0#64, k⟩ = Limbs.val W / 2 ^ 128 := by
  obtain ⟨a, b, c, d, rfl⟩ : ∃ a b c d, W = [a, b, c, d] := by
    rcases W with _ | ⟨a, _ | ⟨b, _ | ⟨c, _ | ⟨d, _ | ⟨e, t⟩⟩⟩⟩⟩ <;>
      simp only [Reg, List.length_cons, List.length_nil] at hW
    · omega
    · omega
    · omega
    · omega
    · exact ⟨a, b, c, d, rfl⟩
    · omega
  have ha := a.isLt
  have hb := b.isLt
  simp only [sig, List.getD_cons_zero, List.getD_cons_succ, Limbs.val_cons, Limbs.val_nil]
  omega

theorem two_zpow_mul (p : ℕ) (e : ℤ) : (2 : ℚ) ^ p * 2 ^ (e - (p - 1)) = 2 ^ (e + 1) := by
  rw [← zpow_natCast, ← zpow_add₀ (by norm_num)]
  congr 1
  ring

theorem zpow_le_kept {p K : ℕ} (hp : 1 ≤ p) (hK : 2 ^ (p - 1) ≤ K) (e : ℤ) :
    (2 : ℚ) ^ e ≤ K * 2 ^ (e - (p - 1)) := by
  have hpos : (0 : ℚ) < 2 ^ (e - (p - 1)) := zpow_pos (by norm_num) _
  have hcast : ((2 : ℚ) ^ (p - 1)) ≤ K := by exact_mod_cast hK
  have hexp : (2 : ℚ) ^ e = 2 ^ (p - 1) * 2 ^ (e - (p - 1)) := by
    rw [← zpow_natCast, ← zpow_add₀ (by norm_num)]
    congr 1
    push_cast [hp]
    ring
  rw [hexp]
  exact mul_le_mul_of_nonneg_right hcast hpos.le

theorem kept_lt_zpow {p K : ℕ} (hK : K < 2 ^ p) (e : ℤ) :
    (K : ℚ) * 2 ^ (e - (p - 1)) < 2 ^ (e + 1) := by
  have hpos : (0 : ℚ) < 2 ^ (e - (p - 1)) := zpow_pos (by norm_num) _
  have hcast : (K : ℚ) < 2 ^ p := by exact_mod_cast hK
  rw [← two_zpow_mul p]
  exact mul_lt_mul_of_pos_right hcast hpos

theorem kept_le_maxFinite {K : ℕ} (hK : K < 2 ^ significandBits k) {e : ℤ} (he : e ≤ kMaxExp) :
    (K : ℚ) * 2 ^ (e - (significandBits k - 1)) ≤ maxFinite k := by
  have hcast : (K : ℚ) ≤ 2 ^ significandBits k - 1 := by
    have h : (K : ℚ) + 1 ≤ 2 ^ significandBits k := by exact_mod_cast hK
    linarith
  have hmono : (2 : ℚ) ^ (e - (significandBits k - 1)) ≤
      2 ^ (kMaxExp - (significandBits k - 1)) :=
    zpow_le_zpow_right₀ (by norm_num) (by linarith)
  exact mul_le_mul hcast hmono (zpow_pos (by norm_num) _).le (le_trans (Nat.cast_nonneg K) hcast)

theorem maxFinite_lt (k : TypeKind) : maxFinite k < 2 ^ (kMaxExp + 1) := by
  have hpos : (0 : ℚ) < 2 ^ (kMaxExp - (significandBits k - 1)) := zpow_pos (by norm_num) _
  rw [← two_zpow_mul (significandBits k), maxFinite]
  exact mul_lt_mul_of_pos_right (by linarith) hpos

theorem roundSig_register (hW : Reg W) {p : ℕ} (hp : 1 ≤ p) (hp' : p ≤ 113)
    (hlo : 2 ^ 255 ≤ Limbs.val W) {δ : ℚ} (h0 : 0 ≤ δ)
    (hlow : ((Limbs.val W % 2 ^ (255 - p) : ℕ) : ℚ) + δ < 2 ^ (255 - p)) (exp : ℤ) :
    Bits.roundSig p ((Limbs.val W + δ) * 2 ^ (exp - 255)) =
      ((Limbs.val W / 2 ^ (256 - p) + if (Limbs.val W).testBit (255 - p) &&
          ((decide (δ ≠ 0) || decide (Limbs.val W % 2 ^ (255 - p) ≠ 0)) ||
            (Limbs.val W).testBit (256 - p)) then 1 else 0 : ℕ) : ℚ) * 2 ^ (exp - (p - 1)) := by
  have hlt := hW.val_lt
  have hpos : (0 : ℚ) < 2 ^ (exp - 255) := zpow_pos (by norm_num) _
  have hl1 : 255 - p + 1 = 256 - p := by omega
  -- the exact value lies in the binade of the exponent
  have hup : (Limbs.val W : ℚ) + δ < 2 ^ 256 := by
    have hdm := Nat.div_add_mod (Limbs.val W) (2 ^ (255 - p))
    have hdiv : Limbs.val W / 2 ^ (255 - p) < 2 ^ (p + 1) := by
      apply Nat.div_lt_of_lt_mul
      rw [← pow_add]
      have : 255 - p + (p + 1) = 256 := by omega
      rw [this]
      exact hlt
    have hdq : (Limbs.val W : ℚ) = 2 ^ (255 - p) * ((Limbs.val W / 2 ^ (255 - p) : ℕ) : ℚ) +
        ((Limbs.val W % 2 ^ (255 - p) : ℕ) : ℚ) := by exact_mod_cast hdm.symm
    have hle : ((Limbs.val W / 2 ^ (255 - p) : ℕ) : ℚ) + 1 ≤ 2 ^ (p + 1) := by exact_mod_cast hdiv
    have hmul : (2 : ℚ) ^ (255 - p) * (((Limbs.val W / 2 ^ (255 - p) : ℕ) : ℚ) + 1) ≤
        2 ^ (255 - p) * 2 ^ (p + 1) := mul_le_mul_of_nonneg_left hle (by positivity)
    rw [← pow_add, show 255 - p + (p + 1) = 256 by omega] at hmul
    linarith
  have hlo' : (2 : ℚ) ^ 255 ≤ Limbs.val W + δ := by
    have : (2 : ℚ) ^ 255 ≤ Limbs.val W := by exact_mod_cast hlo
    linarith
  have hlog : Int.log 2 (((Limbs.val W : ℚ) + δ) * 2 ^ (exp - 255)) = exp := by
    apply Bits.log_eq
    · have h : (2 : ℚ) ^ exp = 2 ^ 255 * 2 ^ (exp - 255) := by
        rw [← zpow_natCast, ← zpow_add₀ (by norm_num)]
        congr 1
        push_cast
        ring
      rw [h]
      exact mul_le_mul_of_nonneg_right hlo' hpos.le
    · have h : (2 : ℚ) ^ (exp + 1) = 2 ^ 256 * 2 ^ (exp - 255) := by
        rw [← zpow_natCast, ← zpow_add₀ (by norm_num)]
        congr 1
        push_cast
        ring
      rw [h]
      exact mul_lt_mul_of_pos_right hup hpos
  have hscale : ((Limbs.val W : ℚ) + δ) * 2 ^ (exp - 255) / 2 ^ (exp - (p - 1)) =
      (Limbs.val W + δ) / 2 ^ (255 - p + 1) := by
    have h : (2 : ℚ) ^ (exp - 255) * 2 ^ (255 - p + 1) = 2 ^ (exp - (p - 1)) := by
      rw [← zpow_natCast, ← zpow_add₀ (by norm_num)]
      congr 1
      push_cast [show p ≤ 255 by omega]
      ring
    rw [← h]
    have hne : (2 : ℚ) ^ (exp - 255) ≠ 0 := hpos.ne'
    field_simp
  rw [Bits.roundSig, hlog, hscale, Bits.roundEven_register h0 hlow, hl1]
  push_cast
  rfl

/-- **The rounding step rounds once, to nearest even**: `δ` is what follows below the
register, and the sticky flag says whether it is there. -/
theorem rounds_roundNormal (hk : isSupportedKind k = true) (hW : Reg W)
    (hlo : 2 ^ 255 ≤ Limbs.val W) {δ : ℚ} (h0 : 0 ≤ δ)
    (hlow : ((Limbs.val W % 2 ^ (255 - significandBits k) : ℕ) : ℚ) + δ <
      2 ^ (255 - significandBits k)) {sticky : Bool} (hst : sticky = decide (δ ≠ 0))
    (sign : Bool) (exp : ℤ) :
    Rounds k sign ((Limbs.val W + δ) * 2 ^ (exp - 255)) (roundNormal k sign exp W sticky) := by
  have hpb : 1 ≤ significandBits k ∧ significandBits k ≤ 113 ∧ 64 ≤ significandBits k := by
    rcases significandBits_cases k with h | h <;> omega
  obtain ⟨hp, hp', hp64⟩ := hpb
  have hround := roundSig_register hW hp hp' hlo h0 hlow exp
  have hl1 : 256 - significandBits k - 1 = 255 - significandBits k := by omega
  unfold roundNormal
  simp only [hl1, getBit_eq, anyBitsBelow_eq, hst]
  generalize hup : ((Limbs.val W).testBit (255 - significandBits k) &&
    ((decide (δ ≠ 0) || decide (Limbs.val W % 2 ^ (255 - significandBits k) ≠ 0)) ||
      (Limbs.val W).testBit (256 - significandBits k))) = up at hround ⊢
  obtain ⟨W', exp', K, hW', hexp', hreg, hval, hKlo, hKhi, hr⟩ :=
    rounded_register hW hp hp' hlo up exp
  rw [hr] at hround
  rw [hW', hexp']
  have hge := zpow_le_kept hp hKlo exp'
  have hltz := kept_lt_zpow hKhi exp'
  refine Rounds.of_cases ?overflow ?underflow ?value
  case overflow =>
    intro hover
    rw [hround] at hover
    rw [if_pos]
    by_contra hle
    exact absurd hover (not_lt.mpr (kept_le_maxFinite hKhi (not_lt.mp hle)))
  case underflow =>
    intro hunder
    rw [hround] at hunder
    have hlt : exp' < kMinExp := by
      by_contra hle
      have hmono : minNormal ≤ 2 ^ exp' := zpow_le_zpow_right₀ (by norm_num) (not_lt.mp hle)
      exact absurd hunder (not_lt.mpr (hmono.trans hge))
    have hno : ¬ kMaxExp < exp' := by
      unfold kMinExp at hlt
      unfold kMaxExp
      omega
    rw [if_neg hno, if_pos hlt]
  case value =>
    intro hmin hmax
    rw [hround] at hmin hmax ⊢
    have hle : exp' ≤ kMaxExp := by
      by_contra hgt
      have hmono : (2 : ℚ) ^ (kMaxExp + 1) ≤ 2 ^ exp' :=
        zpow_le_zpow_right₀ (by norm_num) (by omega)
      exact absurd hmax (not_le.mpr ((maxFinite_lt k).trans_le (hmono.trans hge)))
    have hge' : kMinExp ≤ exp' := by
      by_contra hlt
      have hmono : (2 : ℚ) ^ (exp' + 1) ≤ minNormal :=
        zpow_le_zpow_right₀ (by norm_num) (by omega)
      exact absurd hmin (not_le.mpr (hltz.trans_le hmono))
    rw [if_neg (not_lt.mpr hle), if_neg (not_lt.mpr hge')]
    have hsig := sig_of_reg hreg sign .normal exp' k
    -- the significand: the kept bits, left-justified in 128
    have hK128 : sig ⟨sign, .normal, exp', W'.getD 3 0#64, W'.getD 2 0#64, k⟩ =
        2 ^ (128 - significandBits k) * K := by
      rw [hsig, hval]
      have hpow : 2 ^ (256 - significandBits k) = 2 ^ 128 * 2 ^ (128 - significandBits k) := by
        rw [← pow_add]
        congr 1
        omega
      rw [hpow, Nat.mul_assoc, Nat.mul_div_cancel_left _ (Nat.two_pow_pos 128)]
    refine ⟨_, rfl, ?_, rfl, rfl, rfl, ?_⟩
    · constructor
      · exact hk
      · intro _
        rw [hK128]
        calc 2 ^ 127 = 2 ^ (128 - significandBits k) * 2 ^ (significandBits k - 1) := by
              rw [← pow_add]
              congr 1
              omega
          _ ≤ _ := Nat.mul_le_mul_left _ hKlo
      · intro _
        rw [hK128, Nat.mul_mod_right]
      · intro _
        exact hle
      · intro _
        exact hge'
    · rw [magnitude, hK128]
      have h : (2 : ℚ) ^ (128 - significandBits k) * 2 ^ (exp' - 127) =
          2 ^ (exp' - (significandBits k - 1)) := by
        rw [← zpow_natCast, ← zpow_add₀ (by norm_num)]
        congr 1
        push_cast [show significandBits k ≤ 128 by omega]
        ring
      rw [← h]
      push_cast
      ring

/-- **Renormalising before the rounding**: the register is shifted up to its leading bit. -/
theorem rounds_normalised (hk : isSupportedKind k = true) (hW : Reg W) (hne : Limbs.val W ≠ 0)
    {δ : ℚ} (h0 : 0 ≤ δ) (h1 : δ < 1) (hδ : δ ≠ 0 → 2 ^ 113 ≤ Limbs.val W) {sticky : Bool}
    (hst : sticky = decide (δ ≠ 0)) (sign : Bool) (exp : ℤ) :
    Rounds k sign ((Limbs.val W + δ) * 2 ^ (exp - 255))
      (roundNormal k sign (exp - (255 - highestSetBit W)) (shl W (255 - highestSetBit W))
        sticky) := by
  obtain ⟨h, hh, hlo, hhi⟩ := highestSetBit_spec hW hne
  have hlt := hW.val_lt
  have hh255 : h ≤ 255 := by
    by_contra hgt
    have : 2 ^ 256 ≤ 2 ^ h := Nat.pow_le_pow_right (by decide) (by omega)
    omega
  obtain ⟨s, hs⟩ : ∃ s, s + h = 255 := ⟨255 - h, by omega⟩
  have hsz : (255 : ℤ) - highestSetBit W = s := by rw [hh]; omega
  rw [hsz]
  have hval : Limbs.val (shl W s) = 2 ^ s * Limbs.val W := by
    rw [shl_val hW, Nat.mod_eq_of_lt]
    calc 2 ^ s * Limbs.val W < 2 ^ s * 2 ^ (h + 1) :=
          Nat.mul_lt_mul_of_pos_left hhi (Nat.two_pow_pos s)
      _ = 2 ^ 256 := by rw [← pow_add]; congr 1; omega
  have htop : 2 ^ 255 ≤ Limbs.val (shl W s) := by
    rw [hval]
    calc 2 ^ 255 = 2 ^ s * 2 ^ h := by rw [← pow_add, hs]
      _ ≤ _ := Nat.mul_le_mul_left _ hlo
  -- the fraction moves up with the register and stays below the round bit
  have hlow : ((Limbs.val (shl W s) % 2 ^ (255 - significandBits k) : ℕ) : ℚ) + 2 ^ s * δ <
      2 ^ (255 - significandBits k) := by
    by_cases hz : δ = 0
    · rw [hz, mul_zero, add_zero]
      exact_mod_cast Nat.mod_lt _ (Nat.two_pow_pos _)
    · have hbig := hδ hz
      have hh113 : 113 ≤ h := by
        by_contra hlt'
        have : 2 ^ (h + 1) ≤ 2 ^ 113 := Nat.pow_le_pow_right (by decide) (by omega)
        omega
      obtain ⟨t, ht⟩ : ∃ t, 255 - significandBits k = s + t := by
        refine ⟨255 - significandBits k - s, ?_⟩
        rcases significandBits_cases k with hp | hp <;> omega
      rw [hval, ht, pow_add, Nat.mul_mod_mul_left]
      have hmod : ((Limbs.val W % 2 ^ t : ℕ) : ℚ) + 1 ≤ 2 ^ t := by
        exact_mod_cast Nat.mod_lt (Limbs.val W) (Nat.two_pow_pos t)
      have hpos : (0 : ℚ) < 2 ^ s := by positivity
      push_cast at hmod ⊢
      rw [← mul_add, pow_add]
      exact mul_lt_mul_of_pos_left (by linarith) hpos
  have hst' : sticky = decide ((2 : ℚ) ^ s * δ ≠ 0) := by
    rw [hst]
    have hpos : (2 : ℚ) ^ s ≠ 0 := by positivity
    simp
  have hrounds := rounds_roundNormal hk (shl_length hW s) htop
    (mul_nonneg (by positivity) h0) hlow hst' sign (exp - s)
  have hm : ((Limbs.val (shl W s) : ℚ) + 2 ^ s * δ) * 2 ^ (exp - s - 255) =
      (Limbs.val W + δ) * 2 ^ (exp - 255) := by
    have hz : (2 : ℚ) ^ s * 2 ^ (exp - s - 255) = 2 ^ (exp - 255) := by
      rw [← zpow_natCast, ← zpow_add₀ (by norm_num)]
      congr 1
      ring
    rw [hval, ← hz]
    push_cast
    ring
  rw [hm] at hrounds
  exact hrounds

variable {sign : Bool} {m : ℚ}

theorem Rounds.of_huge (h : (2 : ℚ) ^ (16500 : ℤ) ≤ m) :
    Rounds k sign m (some (infinity k sign)) := by
  have hp : 1 ≤ significandBits k := by rcases significandBits_cases k with h | h <;> omega
  have hover : maxFinite k < Bits.roundSig (significandBits k) m :=
    calc maxFinite k < 2 ^ (kMaxExp + 1) := maxFinite_lt k
      _ ≤ 2 ^ (16500 : ℤ) := zpow_le_zpow_right₀ (by norm_num) (by unfold kMaxExp; norm_num)
      _ ≤ _ := Bits.zpow_le_roundSig hp h
  refine Rounds.of_cases (fun _ => rfl) (fun hu => ?_) (fun _ hmax => ?_)
  · have hmin : minNormal ≤ 2 ^ (16500 : ℤ) :=
      zpow_le_zpow_right₀ (by norm_num) (by unfold kMinExp; norm_num)
    exact absurd hu (not_lt.2 (hmin.trans (Bits.zpow_le_roundSig hp h)))
  · exact absurd hover (not_lt.2 hmax)

theorem Rounds.of_tiny (hm : 0 < m) (h : m < (2 : ℚ) ^ (-16500 : ℤ)) : Rounds k sign m none := by
  have hle := Bits.roundSig_le_zpow (p := significandBits k) hm h
  have hunder : Bits.roundSig (significandBits k) m < minNormal :=
    hle.trans_lt (zpow_lt_zpow_right₀ (by norm_num) (by unfold kMinExp; norm_num))
  have hmax : minNormal ≤ maxFinite k := by
    have hK : (1 : ℚ) ≤ 2 ^ significandBits k - 1 := by
      rcases significandBits_cases k with hk | hk <;> rw [hk] <;> norm_num
    have hz : minNormal ≤ 2 ^ (kMaxExp - (significandBits k - 1)) := by
      apply zpow_le_zpow_right₀ (by norm_num)
      unfold kMinExp kMaxExp
      rcases significandBits_cases k with hk | hk <;> rw [hk] <;> norm_num
    have hpos : (0 : ℚ) < 2 ^ (kMaxExp - (significandBits k - 1)) := zpow_pos (by norm_num) _
    calc minNormal ≤ 1 * 2 ^ (kMaxExp - (significandBits k - 1)) := by rw [one_mul]; exact hz
      _ ≤ maxFinite k := mul_le_mul_of_nonneg_right hK hpos.le
  refine Rounds.of_cases (fun hover => ?_) (fun _ => rfl) (fun hmin _ => ?_)
  · exact absurd (hunder.trans_le hmax) (not_lt.2 hover.le)
  · exact absurd hunder (not_lt.2 hmin)

theorem Rounds.of_both_huge {m' : ℚ} {r : Option WideFloatValue} (hr : Rounds k sign m r)
    (h : (2 : ℚ) ^ (16500 : ℤ) ≤ m) (h' : (2 : ℚ) ^ (16500 : ℤ) ≤ m') : Rounds k sign m' r := by
  have hm : Rounds k sign m (some (infinity k sign)) := Rounds.of_huge h
  rw [hr.overflow.2 (hm.overflow.1 rfl)]
  exact Rounds.of_huge h'

theorem Rounds.of_both_tiny {m' : ℚ} {r : Option WideFloatValue} (hr : Rounds k sign m r)
    (hm : 0 < m) (h : m < (2 : ℚ) ^ (-16500 : ℤ)) (hm' : 0 < m')
    (h' : m' < (2 : ℚ) ^ (-16500 : ℤ)) : Rounds k sign m' r := by
  have hnone : Rounds k sign m none := Rounds.of_tiny hm h
  rw [hr.underflow.2 (hnone.underflow.1 rfl)]
  exact Rounds.of_tiny hm' h'

end DssPrime.WideFloatValue
