import Mathlib
import DssPrime.Types.WideFloatRound

/-!
# Magnitudes are rounded once

Sums, differences, products and quotients of the magnitudes of well-formed values: each is computed
exactly in the register and a fraction below it, and rounded once.

An alignment shift leaves a fraction below the register (`shr_load`).
-/

namespace DssPrime.WideFloatValue

variable {k : TypeKind} {a b v : WideFloatValue}

theorem sig_lt (v : WideFloatValue) : v.sig < 2 ^ 128 := by
  have h1 := v.sigHi.isLt
  have h2 := v.sigLo.isLt
  unfold sig
  omega

theorem load_reg (v : WideFloatValue) : Reg (load v) := rfl

theorem magnitude_eq_load (v : WideFloatValue) :
    v.magnitude = Limbs.val (load v) * 2 ^ (v.exponent - 255) := by
  have h : (2 : ℚ) ^ (v.exponent - 127) = 2 ^ 128 * 2 ^ (v.exponent - 255) := by
    rw [← zpow_natCast, ← zpow_add₀ (by norm_num)]
    congr 1
    push_cast
    ring
  rw [magnitude, val_load, h]
  push_cast
  ring

theorem WellFormed.load_ge (h : v.WellFormed) (hv : v.cls = .normal) :
    2 ^ 255 ≤ Limbs.val (load v) := by
  have := h.integerBit hv
  rw [val_load]
  omega

theorem WellFormed.magnitude_pos (h : v.WellFormed) (hv : v.cls = .normal) : 0 < v.magnitude := by
  have hs : 0 < v.sig := lt_of_lt_of_le (Nat.two_pow_pos 127) (h.integerBit hv)
  have hpos : (0 : ℚ) < 2 ^ (v.exponent - 127) := zpow_pos (by norm_num) _
  exact mul_pos (by exact_mod_cast hs) hpos

/-- **What an alignment leaves below the register**: a fraction that the flag stands for. -/
theorem shr_load (v : WideFloatValue) (d : ℕ) :
    ∃ δ : ℚ, 0 ≤ δ ∧ δ < 1 ∧ (shr (load v) d).2 = decide (δ ≠ 0) ∧
      v.magnitude = (Limbs.val (shr (load v) d).1 + δ) * 2 ^ (v.exponent + d - 255) ∧
      (δ ≠ 0 → Limbs.val (shr (load v) d).1 < 2 ^ 128) := by
  obtain ⟨hval, hflag⟩ := shr_val (load_reg v) (d := d)
  have hpos : (0 : ℚ) < 2 ^ d := by positivity
  have hmod : Limbs.val (load v) % 2 ^ d < 2 ^ d := Nat.mod_lt _ (Nat.two_pow_pos d)
  have hδ : (((Limbs.val (load v) % 2 ^ d : ℕ) : ℚ) / 2 ^ d ≠ 0) ↔
      Limbs.val (load v) % 2 ^ d ≠ 0 := by
    rw [Ne, div_eq_zero_iff, or_iff_left hpos.ne', Nat.cast_eq_zero]
  refine ⟨((Limbs.val (load v) % 2 ^ d : ℕ) : ℚ) / 2 ^ d, by positivity, ?_, ?_, ?_, ?_⟩
  · rw [div_lt_one hpos]
    exact_mod_cast hmod
  · rw [hflag, decide_eq_decide]
    exact hδ.symm
  · have hdm : ((2 ^ d * (Limbs.val (load v) / 2 ^ d) + Limbs.val (load v) % 2 ^ d : ℕ) : ℚ) =
        Limbs.val (load v) := by rw [Nat.div_add_mod]
    have hz : (2 : ℚ) ^ (v.exponent + d - 255) = 2 ^ d * 2 ^ (v.exponent - 255) := by
      rw [← zpow_natCast, ← zpow_add₀ (by norm_num)]
      congr 1
      ring
    rw [magnitude_eq_load, hval, hz, ← hdm]
    push_cast
    field_simp
  · intro hne
    rw [hδ] at hne
    -- a bit is lost only by a shift past the loaded zeros
    have hd : 128 < d := by
      by_contra hle
      apply hne
      rw [val_load]
      exact Nat.mod_eq_zero_of_dvd (Dvd.dvd.mul_right (Nat.pow_dvd_pow 2 (by omega)) _)
    rw [hval]
    apply Nat.div_lt_of_lt_mul
    calc Limbs.val (load v) < 2 ^ 256 := (load_reg v).val_lt
      _ = 2 ^ 128 * 2 ^ 128 := by norm_num
      _ ≤ 2 ^ d * 2 ^ 128 :=
        Nat.mul_le_mul_right _ (Nat.pow_le_pow_right (by decide) (by omega))

theorem WellFormed.rounds_self (h : v.WellFormed) (hv : v.cls = .normal) :
    Rounds v.kind v.sign v.magnitude (some v) := by
  have hpb : 1 ≤ significandBits v.kind ∧ significandBits v.kind ≤ 113 := by
    rcases significandBits_cases v.kind with h | h <;> omega
  obtain ⟨hp, hp'⟩ := hpb
  have hge := h.load_ge hv
  obtain ⟨q, hq⟩ := Nat.dvd_of_mod_eq_zero (h.precision hv)
  have hl : 2 ^ (256 - significandBits v.kind) = 2 ^ 128 * 2 ^ (128 - significandBits v.kind) := by
    rw [← pow_add]
    congr 1
    omega
  have hval : Limbs.val (load v) = 2 ^ (256 - significandBits v.kind) * q := by
    rw [val_load, hq, hl]
    ring
  have hhalf : 2 ^ (256 - significandBits v.kind) = 2 ^ (255 - significandBits v.kind) * 2 := by
    rw [← pow_succ]
    congr 1
    omega
  have hmod : Limbs.val (load v) % 2 ^ (255 - significandBits v.kind) = 0 := by
    rw [hval, hhalf, Nat.mul_assoc, Nat.mul_mod_right]
  have hbit : (Limbs.val (load v)).testBit (255 - significandBits v.kind) = false := by
    rw [hval, Nat.testBit_two_pow_mul, decide_eq_false (by omega), Bool.false_and]
  have hround := roundSig_register (load_reg v) hp hp' hge (le_refl (0 : ℚ))
    (by rw [hmod]; norm_num) v.exponent
  rw [add_zero, ← magnitude_eq_load, hbit, Bool.false_and, if_neg (by decide), Nat.add_zero,
    hval, Nat.mul_div_cancel_left _ (Nat.two_pow_pos _)] at hround
  have hqlo : 2 ^ (significandBits v.kind - 1) ≤ q := by
    have hpow : 2 ^ 255 =
      2 ^ (256 - significandBits v.kind) * 2 ^ (significandBits v.kind - 1) := by
      rw [← pow_add]
      congr 1
      omega
    rw [hval, hpow] at hge
    exact Nat.le_of_mul_le_mul_left hge (Nat.two_pow_pos _)
  have hqhi : q < 2 ^ significandBits v.kind := by
    have hlt := (load_reg v).val_lt
    have hpow : 2 ^ 256 = 2 ^ (256 - significandBits v.kind) * 2 ^ significandBits v.kind := by
      rw [← pow_add]
      congr 1
      omega
    rw [hval, hpow] at hlt
    exact Nat.lt_of_mul_lt_mul_left hlt
  have hmag : v.magnitude = q * 2 ^ (v.exponent - (significandBits v.kind - 1)) := by
    have hz : (2 : ℚ) ^ (256 - significandBits v.kind) * 2 ^ (v.exponent - 255) =
        2 ^ (v.exponent - (significandBits v.kind - 1)) := by
      rw [← zpow_natCast, ← zpow_add₀ (by norm_num)]
      congr 1
      push_cast [show significandBits v.kind ≤ 256 by omega]
      ring
    rw [magnitude_eq_load, hval, ← hz]
    push_cast
    ring
  refine Rounds.of_cases ?overflow ?underflow ?value
  case overflow =>
    intro hover
    rw [hround] at hover
    exact absurd hover (not_lt.mpr (kept_le_maxFinite hqhi (h.exponent_le hv)))
  case underflow =>
    intro hunder
    rw [hround] at hunder
    have hmono : minNormal ≤ 2 ^ v.exponent := zpow_le_zpow_right₀ (by norm_num) (h.le_exponent hv)
    exact absurd hunder (not_lt.mpr (hmono.trans (zpow_le_kept hp hqlo v.exponent)))
  case value =>
    intro _ _
    exact ⟨v, rfl, h, rfl, hv, rfl, by rw [hround, hmag]⟩

theorem rounds_addAligned (hk : isSupportedKind k = true) {Wa Wb : List (BitVec 64)}
    (ha : Reg Wa) (hb : Reg Wb) (hlo : 2 ^ 255 ≤ Limbs.val Wa + Limbs.val Wb) {δ : ℚ}
    (h0 : 0 ≤ δ) (h1 : δ < 1) {sticky : Bool} (hst : sticky = decide (δ ≠ 0)) (sign : Bool)
    (exp : ℤ) :
    Rounds k sign ((Limbs.val Wa + Limbs.val Wb + δ) * 2 ^ (exp - 255))
      (addAligned k sign exp Wa Wb sticky) := by
  obtain ⟨hval, hc1⟩ := Limbs.addCarry_val (ha.trans hb.symm) (c := 0#64) (Nat.zero_le 1)
  have hreg : Reg (Limbs.addCarry Wa Wb 0#64).1 :=
    (Limbs.addCarry_length (ha.trans hb.symm) 0#64).trans ha
  rw [ha, BitVec.toNat_ofNat] at hval
  have hl : 1 ≤ 255 - significandBits k := by
    rcases significandBits_cases k with h | h <;> omega
  have hone : ∀ n : ℕ, ((n % 2 ^ (255 - significandBits k) : ℕ) : ℚ) + 1 ≤
      2 ^ (255 - significandBits k) := by
    intro n
    exact_mod_cast Nat.mod_lt n (Nat.two_pow_pos _)
  unfold addAligned
  generalize Limbs.addCarry Wa Wb 0#64 = s at hval hc1 hreg ⊢
  simp only
  by_cases hc : s.2 = 0#64
  · -- no carry: the sum is in the register
    rw [if_neg (by simpa using hc)]
    rw [hc, BitVec.toNat_ofNat] at hval
    have hsum : Limbs.val s.1 = Limbs.val Wa + Limbs.val Wb := by omega
    have hq : (Limbs.val s.1 : ℚ) = Limbs.val Wa + Limbs.val Wb := by exact_mod_cast hsum
    rw [← hq]
    exact rounds_roundNormal hk hreg (by omega) h0 (by linarith [hone (Limbs.val s.1)]) hst sign exp
  · rw [if_pos hc]
    have hc2 : s.2.toNat = 1 := by
      have hne : s.2.toNat ≠ 0 := fun hz => hc (BitVec.eq_of_toNat_eq hz)
      omega
    rw [hc2] at hval
    obtain ⟨hsv, hsf⟩ := shr_val hreg (d := 1)
    have hsreg : Reg (shr s.1 (1 : ℕ)).1 := shr_length hreg _
    have hlt := hreg.val_lt
    -- the carry comes back in at the top
    have hset : Limbs.val (setBit (shr s.1 (1 : ℕ)).1 255) = 2 ^ 255 + Limbs.val s.1 / 2 := by
      rw [val_setBit hsreg (by decide), hsv, pow_one, Nat.or_comm]
      have hlow : Limbs.val s.1 / 2 < 2 ^ 255 := by omega
      have hor := Nat.two_pow_add_eq_or_of_lt hlow 1
      rw [Nat.mul_one] at hor
      exact hor.symm
    have hsetreg : Reg (setBit (shr s.1 (1 : ℕ)).1 255) := (setBit_length _ _).trans hsreg
    obtain ⟨δ', hδ'⟩ : ∃ δ' : ℚ, δ' = (((Limbs.val s.1 % 2 : ℕ) : ℚ) + δ) / 2 := ⟨_, rfl⟩
    have hbit : ((Limbs.val s.1 % 2 : ℕ) : ℚ) ≤ 1 := by
      exact_mod_cast Nat.le_of_lt_succ (Nat.mod_lt _ (by decide))
    have hbit0 : (0 : ℚ) ≤ ((Limbs.val s.1 % 2 : ℕ) : ℚ) := Nat.cast_nonneg _
    have hst' : (sticky || (shr s.1 (1 : ℕ)).2) = decide (δ' ≠ 0) := by
      rw [hst, hsf, pow_one, Bool.eq_iff_iff, Bool.or_eq_true, decide_eq_true_iff,
        decide_eq_true_iff, decide_eq_true_iff, hδ']
      constructor
      · rintro (hd | hm) hz
        · exact hd (by linarith)
        · have h : ((Limbs.val s.1 % 2 : ℕ) : ℚ) = 0 := by linarith
          exact hm (by exact_mod_cast h)
      · intro hz
        by_contra hcon
        rw [not_or, not_not, not_not] at hcon
        rw [hcon.1, hcon.2] at hz
        simp at hz
    have hrounds := rounds_roundNormal hk hsetreg (by omega)
      (show (0 : ℚ) ≤ δ' by rw [hδ']; linarith)
      (by linarith [hone (Limbs.val (setBit (shr s.1 (1 : ℕ)).1 255))]) hst' sign (exp + 1)
    have hsum : (Limbs.val Wa : ℚ) + Limbs.val Wb = 2 ^ 256 + Limbs.val s.1 := by
      have : Limbs.val Wa + Limbs.val Wb = 2 ^ 256 + Limbs.val s.1 := by omega
      exact_mod_cast this
    have hdm : (Limbs.val s.1 : ℚ) = 2 * ((Limbs.val s.1 / 2 : ℕ) : ℚ) +
        ((Limbs.val s.1 % 2 : ℕ) : ℚ) := by exact_mod_cast (Nat.div_add_mod _ 2).symm
    have hm : ((Limbs.val (setBit (shr s.1 (1 : ℕ)).1 255) : ℚ) + δ') * 2 ^ (exp + 1 - 255) =
        (Limbs.val Wa + Limbs.val Wb + δ) * 2 ^ (exp - 255) := by
      have hz : (2 : ℚ) ^ (exp + 1 - 255) = 2 * 2 ^ (exp - 255) := by
        rw [show exp + 1 - 255 = 1 + (exp - 255) by ring, zpow_add₀ (by norm_num), zpow_one]
      rw [hz, hset, hsum, hδ', hdm]
      push_cast
      ring
    rw [hm] at hrounds
    exact hrounds

theorem rounds_addMagnitudes (hk : isSupportedKind k = true) (ha : a.WellFormed)
    (hb : b.WellFormed) (hac : a.cls = .normal) (hbc : b.cls = .normal) (sign : Bool) :
    Rounds k sign (a.magnitude + b.magnitude) (addMagnitudes k sign a b) := by
  have hla := ha.load_ge hac
  have hlb := hb.load_ge hbc
  unfold addMagnitudes
  by_cases hexp : b.exponent ≤ a.exponent
  · rw [if_pos hexp]
    obtain ⟨d, hd⟩ := Int.le.dest hexp
    have hdz : a.exponent - b.exponent = d := by omega
    obtain ⟨δ, h0, h1, hst, hmag, -⟩ := shr_load b d
    simp only [hdz]
    have hrounds := rounds_addAligned hk (load_reg a) (shr_length (load_reg b) d)
      (by omega) h0 h1 hst sign a.exponent
    have hm : ((Limbs.val (load a) : ℚ) + Limbs.val (shr (load b) d).1 + δ) *
        2 ^ (a.exponent - 255) = a.magnitude + b.magnitude := by
      rw [hmag, hd, magnitude_eq_load a]
      ring
    rw [hm] at hrounds
    exact hrounds
  · rw [if_neg hexp]
    obtain ⟨d, hd⟩ := Int.le.dest (not_le.mp hexp).le
    have hdz : b.exponent - a.exponent = d := by omega
    obtain ⟨δ, h0, h1, hst, hmag, -⟩ := shr_load a d
    simp only [hdz]
    have hrounds := rounds_addAligned hk (shr_length (load_reg a) d) (load_reg b)
      (by omega) h0 h1 hst sign b.exponent
    have hm : ((Limbs.val (shr (load a) d).1 : ℚ) + Limbs.val (load b) + δ) *
        2 ^ (b.exponent - 255) = a.magnitude + b.magnitude := by
      rw [hmag, hd, magnitude_eq_load b]
      ring
    rw [hm] at hrounds
    exact hrounds

def Above (a b : WideFloatValue) : Prop :=
  b.exponent < a.exponent ∨ (b.exponent = a.exponent ∧ b.sig < a.sig)

theorem compareMagnitude_spec (a b : WideFloatValue) :
    (compareMagnitude a b = .eq ∧ a.exponent = b.exponent ∧ a.sig = b.sig) ∨
      (compareMagnitude a b = .gt ∧ Above a b) ∨ (compareMagnitude a b = .lt ∧ Above b a) := by
  have h1 := a.sigLo.isLt
  have h2 := b.sigLo.isLt
  unfold compareMagnitude Above sig
  by_cases he : a.exponent = b.exponent
  · rw [if_neg (by simpa using he)]
    by_cases hh : a.sigHi = b.sigHi
    · rw [if_neg (by simpa using hh), hh]
      by_cases hl : a.sigLo = b.sigLo
      · exact .inl ⟨by rw [if_neg (by simpa using hl)], he, by rw [hl]⟩
      · have hne : a.sigLo.toNat ≠ b.sigLo.toNat := fun h => hl (BitVec.eq_of_toNat_eq h)
        rw [if_pos hl]
        by_cases hlt : a.sigLo < b.sigLo
        · rw [BitVec.lt_def] at hlt
          exact .inr (.inr ⟨by rw [if_pos (BitVec.lt_def.mpr hlt)], .inr ⟨he, by omega⟩⟩)
        · rw [if_neg hlt]
          rw [BitVec.lt_def] at hlt
          exact .inr (.inl ⟨rfl, .inr ⟨he.symm, by omega⟩⟩)
    · have hne : a.sigHi.toNat ≠ b.sigHi.toNat := fun h => hh (BitVec.eq_of_toNat_eq h)
      rw [if_pos hh]
      by_cases hlt : a.sigHi < b.sigHi
      · rw [if_pos hlt]
        rw [BitVec.lt_def] at hlt
        exact .inr (.inr ⟨rfl, .inr ⟨he, by omega⟩⟩)
      · rw [if_neg hlt]
        rw [BitVec.lt_def] at hlt
        exact .inr (.inl ⟨rfl, .inr ⟨he.symm, by omega⟩⟩)
  · rw [if_pos he]
    by_cases hlt : a.exponent < b.exponent
    · exact .inr (.inr ⟨by rw [if_pos hlt], .inl hlt⟩)
    · exact .inr (.inl ⟨by rw [if_neg hlt], .inl (by omega)⟩)

theorem magnitude_lt_of_above (ha : a.WellFormed) (hac : a.cls = .normal) (h : Above a b) :
    b.magnitude < a.magnitude := by
  have hpos : (0 : ℚ) < 2 ^ (b.exponent - 127) := zpow_pos (by norm_num) _
  have hsa : ((2 : ℚ) ^ 127) ≤ a.sig := by exact_mod_cast ha.integerBit hac
  have hsb : (b.sig : ℚ) < 2 ^ 128 := by exact_mod_cast sig_lt b
  unfold magnitude
  rcases h with h | ⟨h, hsig⟩
  · calc (b.sig : ℚ) * 2 ^ (b.exponent - 127) < 2 ^ 128 * 2 ^ (b.exponent - 127) :=
          mul_lt_mul_of_pos_right hsb hpos
      _ = 2 ^ 127 * 2 ^ (b.exponent + 1 - 127) := by
          rw [show b.exponent + 1 - 127 = 1 + (b.exponent - 127) by ring,
            zpow_add₀ (by norm_num), zpow_one]
          ring
      _ ≤ 2 ^ 127 * 2 ^ (a.exponent - 127) :=
          mul_le_mul_of_nonneg_left (zpow_le_zpow_right₀ (by norm_num) (by linarith)) (by norm_num)
      _ ≤ a.sig * 2 ^ (a.exponent - 127) :=
          mul_le_mul_of_nonneg_right hsa (zpow_pos (by norm_num) _).le
  · rw [h] at hpos ⊢
    exact mul_lt_mul_of_pos_right (by exact_mod_cast hsig) hpos

theorem aligned_lt {big small : WideFloatValue} (hb : big.WellFormed) (hbc : big.cls = .normal)
    (h : Above big small) {d : ℕ} (hd : small.exponent + d = big.exponent) :
    Limbs.val (shr (load small) d).1 < Limbs.val (load big) := by
  obtain ⟨hval, -⟩ := shr_val (load_reg small) (d := d)
  have hge := hb.load_ge hbc
  have hlt := (load_reg small).val_lt
  rcases h with h | ⟨h, hsig⟩
  · obtain ⟨t, rfl⟩ : ∃ t, d = t + 1 := ⟨d - 1, by omega⟩
    have hdiv : Limbs.val (load small) / 2 ^ (t + 1) ≤ Limbs.val (load small) / 2 ^ 1 :=
      Nat.div_le_div_left (Nat.pow_le_pow_right (by decide) (by omega)) (by decide)
    omega
  · have hd0 : d = 0 := by omega
    subst hd0
    rw [hval, pow_zero, Nat.div_one, val_load, val_load]
    omega

/-- **The difference of two magnitudes, rounded once**: what the alignment shifted out is
borrowed from the register. -/
theorem rounds_subOrdered (hk : isSupportedKind k = true) {big small : WideFloatValue}
    (hb : big.WellFormed) (hbc : big.cls = .normal) (h : Above big small) :
    Rounds k big.sign (big.magnitude - small.magnitude) (subOrdered k big small) := by
  have hexp : small.exponent ≤ big.exponent := by
    rcases h with h | h
    · exact h.le
    · exact h.1.le
  obtain ⟨d, hd⟩ := Int.le.dest hexp
  have hdz : big.exponent - small.exponent = d := by omega
  obtain ⟨δ, h0, h1, hst, hmag, hsmall⟩ := shr_load small d
  have hlt := aligned_lt hb hbc h hd
  have hge := hb.load_ge hbc
  have hreg := shr_length (load_reg small) d
  obtain ⟨hsub, -⟩ := Limbs.subBorrow_val ((load_reg big).trans hreg.symm) (c := 0#64)
    (Nat.zero_le 1)
  have hdreg : Reg (subFrom (load big) (shr (load small) d).1) :=
    (Limbs.subBorrow_length _ _ _).trans (load_reg big)
  have hdiff : Limbs.val (subFrom (load big) (shr (load small) d).1) +
      Limbs.val (shr (load small) d).1 = Limbs.val (load big) := by
    have hdlt := hdreg.val_lt
    rw [load_reg big, BitVec.toNat_ofNat] at hsub
    unfold subFrom at hdlt ⊢
    omega
  -- the register after the borrow, and the fraction that is left below it
  obtain ⟨W, δ', hW, hWreg, hne, h0', h1', hst', hbig, hsum⟩ : ∃ (W : List (BitVec 64)) (δ' : ℚ),
      (if (shr (load small) d).2 then subOne (subFrom (load big) (shr (load small) d).1)
        else subFrom (load big) (shr (load small) d).1) = W ∧ Reg W ∧ Limbs.val W ≠ 0 ∧
      0 ≤ δ' ∧ δ' < 1 ∧ (shr (load small) d).2 = decide (δ' ≠ 0) ∧
      (δ' ≠ 0 → 2 ^ 113 ≤ Limbs.val W) ∧
      (Limbs.val W : ℚ) + δ' = Limbs.val (load big) - (Limbs.val (shr (load small) d).1 + δ) := by
    have hdq : (Limbs.val (subFrom (load big) (shr (load small) d).1) : ℚ) +
        Limbs.val (shr (load small) d).1 = Limbs.val (load big) := by exact_mod_cast hdiff
    by_cases hδ : δ = 0
    · subst hδ
      rw [decide_eq_false (by simp)] at hst
      rw [hst]
      refine ⟨subFrom (load big) (shr (load small) d).1, 0, if_neg (by decide), hdreg, by omega,
        le_rfl, by norm_num, by simp, by simp, ?_⟩
      linarith
    · rw [decide_eq_true hδ] at hst
      rw [hst]
      have hlow := hsmall hδ
      have hone := subOne_val (subFrom (load big) (shr (load small) d).1) (by omega)
      have hpos : 0 < δ := lt_of_le_of_ne h0 (Ne.symm hδ)
      refine ⟨subOne (subFrom (load big) (shr (load small) d).1), 1 - δ, if_pos rfl,
        (subOne_length _).trans hdreg, ?_, by linarith, by linarith, ?_, ?_, ?_⟩
      · omega
      · rw [eq_comm, decide_eq_true_iff]
        intro hz
        linarith
      · intro _
        omega
      · have hoq : (Limbs.val (subOne (subFrom (load big) (shr (load small) d).1)) : ℚ) + 1 =
            Limbs.val (subFrom (load big) (shr (load small) d).1) := by exact_mod_cast hone
        linarith
  have hrounds := rounds_normalised hk hWreg hne h0' h1' hbig hst' big.sign big.exponent
  have hm : ((Limbs.val W : ℚ) + δ') * 2 ^ (big.exponent - 255) =
      big.magnitude - small.magnitude := by
    rw [hsum, hmag, hd, magnitude_eq_load big]
    ring
  rw [hm] at hrounds
  obtain ⟨hb255, hpos, -⟩ := highestSetBit_spec hWreg hne
  unfold subOrdered
  simp only [hdz, hW]
  rw [if_neg (by omega)]
  by_cases hshift : 0 < 255 - highestSetBit W
  · rw [if_pos hshift]
    exact hrounds
  · -- already normalised
    rw [if_neg hshift]
    have hlt256 := hWreg.val_lt
    obtain ⟨hbit, hbitv, hlo, -⟩ := highestSetBit_spec hWreg hne
    have hle : hbit ≤ 255 := by
      by_contra hgt
      have : 2 ^ 256 ≤ 2 ^ hbit := Nat.pow_le_pow_right (by decide) (by omega)
      omega
    have hz : 255 - highestSetBit W = 0 := by omega
    rw [hz, sub_zero, shl, if_pos le_rfl] at hrounds
    exact hrounds

theorem rounds_mul (hk : isSupportedKind k = true) (ha : a.WellFormed) (hb : b.WellFormed)
    (hac : a.cls = .normal) (hbc : b.cls = .normal) (sign : Bool) :
    Rounds k sign (a.magnitude * b.magnitude)
      (if getBit (mul128 a.sigHi a.sigLo b.sigHi b.sigLo) 255 then
        roundNormal k sign (a.exponent + b.exponent + 1)
          (mul128 a.sigHi a.sigLo b.sigHi b.sigLo) false
      else roundNormal k sign (a.exponent + b.exponent)
        (shl (mul128 a.sigHi a.sigLo b.sigHi b.sigLo) 1) false) := by
  have hval := mul128_val a b
  have hreg := mul128_length a.sigHi a.sigLo b.sigHi b.sigLo
  have hlt := hreg.val_lt
  generalize mul128 a.sigHi a.sigLo b.sigHi b.sigLo = P at *
  have hlo : 2 ^ 254 ≤ Limbs.val P := by
    rw [hval]
    calc 2 ^ 254 = 2 ^ 127 * 2 ^ 127 := by norm_num
      _ ≤ _ := Nat.mul_le_mul (ha.integerBit hac) (hb.integerBit hbc)
  have hmag : a.magnitude * b.magnitude =
      Limbs.val P * 2 ^ (a.exponent + b.exponent + 1 - 255) := by
    have hz : (2 : ℚ) ^ (a.exponent + b.exponent + 1 - 255) =
        2 ^ (a.exponent - 127) * 2 ^ (b.exponent - 127) := by
      rw [← zpow_add₀ (by norm_num)]
      congr 1
      ring
    rw [magnitude, magnitude, hz, hval]
    push_cast
    ring
  have hone : ∀ n : ℕ, ((n % 2 ^ (255 - significandBits k) : ℕ) : ℚ) + 0 <
      2 ^ (255 - significandBits k) := by
    intro n
    rw [add_zero]
    exact_mod_cast Nat.mod_lt n (Nat.two_pow_pos _)
  have hflag : false = decide ((0 : ℚ) ≠ 0) := by simp
  have hbit : getBit P 255 = decide (2 ^ 255 ≤ Limbs.val P) := by
    rw [getBit_eq, Nat.testBit_eq_decide_div_mod_eq, decide_eq_decide]
    omega
  rw [hbit]
  by_cases htop : 2 ^ 255 ≤ Limbs.val P
  · rw [decide_eq_true htop, if_pos rfl, hmag]
    have hrounds := rounds_roundNormal hk hreg htop (le_refl (0 : ℚ)) (hone _)
      hflag sign (a.exponent + b.exponent + 1)
    rw [add_zero] at hrounds
    exact hrounds
  · rw [decide_eq_false htop, if_neg (by decide), hmag]
    have hshl := shl_val hreg 1
    rw [Nat.mod_eq_of_lt (by omega), pow_one] at hshl
    have hrounds := rounds_roundNormal hk (shl_length hreg (1 : ℕ)) (by omega) (le_refl (0 : ℚ))
      (hone _) hflag sign (a.exponent + b.exponent)
    have hz : (2 : ℚ) ^ (a.exponent + b.exponent + 1 - 255) =
        2 * 2 ^ (a.exponent + b.exponent - 255) := by
      rw [show a.exponent + b.exponent + 1 - 255 = 1 + (a.exponent + b.exponent - 255) by ring,
        zpow_add₀ (by norm_num), zpow_one]
    rw [add_zero, hshl] at hrounds
    rw [hz]
    push_cast at hrounds
    rw [← mul_assoc, mul_comm (Limbs.val P : ℚ) 2]
    exact hrounds

/-- **The quotient, rounded once**: the remainder is the fraction below the register. -/
theorem rounds_div (hk : isSupportedKind k = true) (ha : a.WellFormed) (hb : b.WellFormed)
    (hac : a.cls = .normal) (hbc : b.cls = .normal) (sign : Bool)
    {QR : List (BitVec 64) × List (BitVec 64)}
    (hQR : divLoop [0#64, 0#64, a.sigLo, a.sigHi] [b.sigLo, b.sigHi, 0#64, 0#64] 256
      [0#64, 0#64, 0#64, 0#64] [0#64, 0#64, 0#64, 0#64] = QR) :
    Rounds k sign (a.magnitude / b.magnitude)
      (roundNormal k sign (a.exponent - b.exponent + 127 - (255 - highestSetBit QR.1))
        (shl QR.1 (255 - highestSetBit QR.1)) (!isZeroReg QR.2)) := by
  have hN : Limbs.val [0#64, 0#64, a.sigLo, a.sigHi] = 2 ^ 128 * a.sig := val_load a
  have hD : Limbs.val [b.sigLo, b.sigHi, 0#64, 0#64] = b.sig := by
    simp only [sig, Limbs.val_cons, Limbs.val_nil, BitVec.toNat_ofNat]
    omega
  have halo := ha.integerBit hac
  have hblo := hb.integerBit hbc
  have hblt := sig_lt b
  have hN256 : Limbs.val [0#64, 0#64, a.sigLo, a.sigHi] / 2 ^ 256 = 0 :=
    Nat.div_eq_of_lt (load_reg a).val_lt
  have hzero : Limbs.val [0#64, 0#64, 0#64, 0#64] = 0 := rfl
  obtain ⟨hQreg, hR, hQ⟩ := divLoop_spec (N := [0#64, 0#64, a.sigLo, a.sigHi])
    (D := [b.sigLo, b.sigHi, 0#64, 0#64]) rfl (by omega) (by omega) (le_refl 256)
    (Q := [0#64, 0#64, 0#64, 0#64]) (R := [0#64, 0#64, 0#64, 0#64]) rfl rfl
    (by rw [hN256, Nat.zero_mod]; exact hzero) (by rw [hN256, Nat.zero_div]; exact hzero)
  rw [hQR, hN, hD] at hR hQ
  rw [hQR] at hQreg
  have hbpos : 0 < b.sig := by omega
  have hdm := Nat.div_add_mod (2 ^ 128 * a.sig) b.sig
  rw [← hQ, ← hR] at hdm
  have hRlt : Limbs.val QR.2 < b.sig := by rw [hR]; exact Nat.mod_lt _ hbpos
  have hbq : (0 : ℚ) < b.sig := by exact_mod_cast hbpos
  -- the quotient has its leading bit at 127 or 128
  have hQlo : 2 ^ 127 ≤ Limbs.val QR.1 := by
    rw [hQ, Nat.le_div_iff_mul_le hbpos]
    calc 2 ^ 127 * b.sig ≤ 2 ^ 127 * 2 ^ 128 := Nat.mul_le_mul_left _ hblt.le
      _ = 2 ^ 128 * 2 ^ 127 := by norm_num
      _ ≤ 2 ^ 128 * a.sig := Nat.mul_le_mul_left _ halo
  have hδ : ((Limbs.val QR.2 : ℚ) / b.sig ≠ 0) ↔ Limbs.val QR.2 ≠ 0 := by
    rw [Ne, div_eq_zero_iff, or_iff_left hbq.ne', Nat.cast_eq_zero]
  have hflag : (!isZeroReg QR.2) = decide ((Limbs.val QR.2 : ℚ) / b.sig ≠ 0) := by
    rw [isZeroReg_eq, ← decide_not, decide_eq_decide]
    exact hδ.symm
  have hrounds := rounds_normalised hk hQreg (by omega)
    (show (0 : ℚ) ≤ (Limbs.val QR.2 : ℚ) / b.sig by positivity)
    (by rw [div_lt_one hbq]; exact_mod_cast hRlt)
    (by intro _; omega) hflag sign
    (a.exponent - b.exponent + 127)
  have hm : ((Limbs.val QR.1 : ℚ) + (Limbs.val QR.2 : ℚ) / b.sig) *
      2 ^ (a.exponent - b.exponent + 127 - 255) = a.magnitude / b.magnitude := by
    have hdq : (b.sig : ℚ) * Limbs.val QR.1 + Limbs.val QR.2 = 2 ^ 128 * a.sig := by
      exact_mod_cast hdm
    have hza : (2 : ℚ) ^ (a.exponent - 127) =
        2 ^ (a.exponent - b.exponent + 127 - 255) * 2 ^ 128 * 2 ^ (b.exponent - 127) := by
      rw [← zpow_natCast, ← zpow_add₀ (by norm_num), ← zpow_add₀ (by norm_num)]
      congr 1
      push_cast
      ring
    have hzb : (2 : ℚ) ^ (b.exponent - 127) ≠ 0 := (zpow_pos (by norm_num) _).ne'
    rw [magnitude, magnitude, hza]
    field_simp
    linear_combination hdq
  rw [hm] at hrounds
  exact hrounds

end DssPrime.WideFloatValue
