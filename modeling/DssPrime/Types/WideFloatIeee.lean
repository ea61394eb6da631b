import Mathlib
import DssPrime.Types.WideFloatExact

/-!
# Wide floats are correctly rounded

The four operations on well-formed values of one kind.

Well-formedness is the representation the class documents, and every value its factories and
operations make has it (`WideFloatValue.Made.wellFormed`).
-/

namespace DssPrime.WideFloatValue

variable {k : TypeKind} {a b v : WideFloatValue}

def toRat (v : WideFloatValue) : ℚ :=
  if v.cls = .normal then (if v.sign then -v.magnitude else v.magnitude) else 0

/-- A finite result: the exact number `x` rounded once, a zero under the sign given. -/
def Meets (k : TypeKind) (x : ℚ) (zeroSign : Bool) (r : Option WideFloatValue) : Prop :=
  if x = 0 then r = some (zero k zeroSign) else Rounds k (decide (x < 0)) |x| r

def IeeeAdd (k : TypeKind) (a b : WideFloatValue) (r : Option WideFloatValue) : Prop :=
  if a.cls = .nan ∨ b.cls = .nan then r = some (nan k)
  else if a.cls = .infinity ∧ b.cls = .infinity ∧ a.sign ≠ b.sign then r = some (nan k)
  else if a.cls = .infinity then r = some (infinity k a.sign)
  else if b.cls = .infinity then r = some (infinity k b.sign)
  else Meets k (a.toRat + b.toRat) (a.sign && b.sign) r

def IeeeMul (k : TypeKind) (a b : WideFloatValue) (r : Option WideFloatValue) : Prop :=
  if a.cls = .nan ∨ b.cls = .nan then r = some (nan k)
  else if (a.cls = .infinity ∧ b.cls = .zero) ∨ (a.cls = .zero ∧ b.cls = .infinity) then
    r = some (nan k)
  else if a.cls = .infinity ∨ b.cls = .infinity then r = some (infinity k (a.sign ^^ b.sign))
  else Meets k (a.toRat * b.toRat) (a.sign ^^ b.sign) r

def IeeeDiv (k : TypeKind) (a b : WideFloatValue) (r : Option WideFloatValue) : Prop :=
  if a.cls = .nan ∨ b.cls = .nan then r = some (nan k)
  else if (a.cls = .infinity ∧ b.cls = .infinity) ∨ (a.cls = .zero ∧ b.cls = .zero) then
    r = some (nan k)
  else if a.cls = .infinity ∨ b.cls = .zero then r = some (infinity k (a.sign ^^ b.sign))
  else if b.cls = .infinity then r = some (zero k (a.sign ^^ b.sign))
  else Meets k (a.toRat / b.toRat) (a.sign ^^ b.sign) r

theorem negate_wellFormed (h : v.WellFormed) : v.negate.WellFormed :=
  ⟨h.supported, h.integerBit, h.precision, h.exponent_le, h.le_exponent⟩

theorem toRat_of_not_normal (h : v.cls ≠ .normal) : v.toRat = 0 := if_neg h

theorem toRat_of_normal (h : v.cls = .normal) :
    v.toRat = if v.sign then -v.magnitude else v.magnitude := if_pos h

theorem meets_of_rounds {sign : Bool} {m : ℚ} (hm : 0 < m) {x : ℚ}
    (hx : x = if sign then -m else m) {r : Option WideFloatValue} (h : Rounds k sign m r)
    (zeroSign : Bool) : Meets k x zeroSign r := by
  unfold Meets
  cases sign with
  | false =>
    simp only [Bool.false_eq_true, if_false] at hx
    rw [hx, if_neg hm.ne', decide_eq_false (not_lt.mpr hm.le), abs_of_pos hm]
    exact h
  | true =>
    simp only [if_true] at hx
    rw [hx, if_neg (by linarith), decide_eq_true (by linarith), abs_neg, abs_of_pos hm]
    exact h

theorem meets_self (h : v.WellFormed) (hv : v.cls = .normal) (zeroSign : Bool) :
    Meets v.kind v.toRat zeroSign (some v) :=
  meets_of_rounds (h.magnitude_pos hv) (toRat_of_normal hv) (h.rounds_self hv) zeroSign

theorem normal_of_finite (h1 : v.cls ≠ .nan) (h2 : v.cls ≠ .infinity) (h3 : v.cls ≠ .zero) :
    v.cls = .normal := by
  cases h : v.cls with
  | zero => exact absurd h h3
  | normal => rfl
  | infinity => exact absurd h h2
  | nan => exact absurd h h1

theorem meets_subMagnitudes (hk : isSupportedKind k = true) (ha : a.WellFormed)
    (hb : b.WellFormed) (hac : a.cls = .normal) (hbc : b.cls = .normal) (hs : a.sign ≠ b.sign) :
    Meets k (a.toRat + b.toRat) (a.sign && b.sign) (subMagnitudes k a b) := by
  have hand : (a.sign && b.sign) = false := by
    cases ha : a.sign <;> cases hb : b.sign <;> simp_all
  have hsum : a.toRat + b.toRat =
      if a.sign then -(a.magnitude - b.magnitude) else a.magnitude - b.magnitude := by
    rw [toRat_of_normal hac, toRat_of_normal hbc]
    cases ha : a.sign <;> cases hb : b.sign <;> simp_all <;> ring
  unfold subMagnitudes
  rcases compareMagnitude_spec a b with ⟨hc, he, hg⟩ | ⟨hc, habove⟩ | ⟨hc, habove⟩
  · -- exact cancellation
    have hz : a.toRat + b.toRat = 0 := by
      rw [hsum, magnitude, magnitude, he, hg]
      simp
    rw [if_pos hc, Meets, if_pos hz, hand]
  · have hpos := magnitude_lt_of_above ha hac habove
    rw [if_neg (by rw [hc]; decide), if_pos hc]
    exact meets_of_rounds (by linarith) hsum (rounds_subOrdered hk ha hac habove) _
  · have hpos := magnitude_lt_of_above hb hbc habove
    have hsum' : a.toRat + b.toRat =
        if b.sign then -(b.magnitude - a.magnitude) else b.magnitude - a.magnitude := by
      rw [hsum]
      cases ha : a.sign <;> cases hb : b.sign <;> simp_all
    rw [if_neg (by rw [hc]; decide), if_neg (by rw [hc]; decide)]
    exact meets_of_rounds (by linarith) hsum' (rounds_subOrdered hk hb hbc habove) _

theorem kind_guard (ha : a.WellFormed) (hkind : a.kind = b.kind) :
    ¬ (a.kind ≠ b.kind ∨ isSupportedKind a.kind = false) := by
  rintro (h | h)
  · exact h hkind
  · rw [ha.supported] at h
    cases h

theorem ieeeAdd_addSub (ha : a.WellFormed) (hb : b.WellFormed) (hkind : a.kind = b.kind)
    (subtract : Bool) :
    IeeeAdd a.kind a (if subtract then b.negate else b) (addSub a b subtract) := by
  unfold addSub
  rw [if_neg (kind_guard ha hkind)]
  have hneg : (if subtract then { b with sign := !b.sign } else b) =
      if subtract then b.negate else b := rfl
  simp only [hneg]
  have hbw : (if subtract then b.negate else b).WellFormed ∧
      (if subtract then b.negate else b).kind = a.kind := by
    cases subtract with
    | false => exact ⟨hb, hkind.symm⟩
    | true => exact ⟨negate_wellFormed hb, hkind.symm⟩
  generalize (if subtract then b.negate else b) = b' at hbw ⊢
  obtain ⟨hb', hk'⟩ := hbw
  unfold IeeeAdd
  by_cases hnan : a.cls = .nan ∨ b'.cls = .nan
  · rw [if_pos hnan, if_pos hnan]
  rw [if_neg hnan, if_neg hnan]
  rw [not_or] at hnan
  by_cases hai : a.cls = .infinity
  · by_cases hbi : b'.cls = .infinity
    · by_cases hs : a.sign = b'.sign <;> simp [hai, hbi, hs]
    · simp [hai, hbi]
  · by_cases hbi : b'.cls = .infinity
    · simp [hai, hbi]
    · simp only [hai, hbi, false_and, or_self, if_false]
      -- both operands are finite
      by_cases haz : a.cls = .zero
      · have hat : a.toRat = 0 := toRat_of_not_normal (by rw [haz]; decide)
        by_cases hbz : b'.cls = .zero
        · have hbt : b'.toRat = 0 := toRat_of_not_normal (by rw [hbz]; decide)
          rw [if_pos ⟨haz, hbz⟩, Meets, if_pos (by rw [hat, hbt, add_zero])]
        · rw [if_neg (by simp [hbz]), if_pos haz, hat, zero_add, ← hk']
          exact meets_self hb' (normal_of_finite hnan.2 hbi hbz) _
      · have hac := normal_of_finite hnan.1 hai haz
        by_cases hbz : b'.cls = .zero
        · have hbt : b'.toRat = 0 := toRat_of_not_normal (by rw [hbz]; decide)
          rw [if_neg (by simp [haz]), if_neg haz, if_pos hbz, hbt, add_zero]
          exact meets_self ha hac _
        · have hbc := normal_of_finite hnan.2 hbi hbz
          rw [if_neg (by simp [haz]), if_neg haz, if_neg hbz]
          by_cases hs : a.sign = b'.sign
          · rw [if_pos hs]
            have hpos := add_pos (ha.magnitude_pos hac) (hb'.magnitude_pos hbc)
            refine meets_of_rounds hpos ?_
              (rounds_addMagnitudes ha.supported ha hb' hac hbc a.sign) _
            rw [toRat_of_normal hac, toRat_of_normal hbc, ← hs]
            cases a.sign
            · simp
            · simp
              ring
          · rw [if_neg hs]
            exact meets_subMagnitudes ha.supported ha hb' hac hbc hs

theorem ieeeMul_mul (ha : a.WellFormed) (hb : b.WellFormed) (hkind : a.kind = b.kind) :
    IeeeMul a.kind a b (mul a b) := by
  unfold mul IeeeMul
  rw [if_neg (kind_guard ha hkind)]
  simp only
  by_cases hnan : a.cls = .nan ∨ b.cls = .nan
  · rw [if_pos hnan, if_pos hnan]
  rw [if_neg hnan, if_neg hnan]
  rw [not_or] at hnan
  by_cases hinf : a.cls = .infinity ∨ b.cls = .infinity
  · rw [if_pos hinf]
    by_cases hz : a.cls = .zero ∨ b.cls = .zero
    · rw [if_pos hz, if_pos]
      rcases hinf with h | h <;> rcases hz with h' | h'
      · rw [h] at h'; cases h'
      · exact .inl ⟨h, h'⟩
      · exact .inr ⟨h', h⟩
      · rw [h] at h'; cases h'
    · rw [if_neg hz, if_neg, if_pos hinf]
      rintro (⟨-, h⟩ | ⟨h, -⟩)
      · exact hz (.inr h)
      · exact hz (.inl h)
  · rw [if_neg hinf, if_neg (by tauto), if_neg hinf]
    rw [not_or] at hinf
    by_cases hz : a.cls = .zero ∨ b.cls = .zero
    · have hx : a.toRat * b.toRat = 0 := by
        rcases hz with h | h
        · rw [toRat_of_not_normal (v := a) (by rw [h]; decide), zero_mul]
        · rw [toRat_of_not_normal (v := b) (by rw [h]; decide), mul_zero]
      rw [if_pos hz, Meets, if_pos hx]
    · rw [if_neg hz]
      rw [not_or] at hz
      have hac := normal_of_finite hnan.1 hinf.1 hz.1
      have hbc := normal_of_finite hnan.2 hinf.2 hz.2
      refine meets_of_rounds (mul_pos (ha.magnitude_pos hac) (hb.magnitude_pos hbc)) ?_
        (rounds_mul ha.supported ha hb hac hbc (a.sign ^^ b.sign)) _
      rw [toRat_of_normal hac, toRat_of_normal hbc]
      cases a.sign <;> cases b.sign <;> simp

theorem ieeeDiv_div (ha : a.WellFormed) (hb : b.WellFormed) (hkind : a.kind = b.kind) :
    IeeeDiv a.kind a b (div a b) := by
  unfold div IeeeDiv
  rw [if_neg (kind_guard ha hkind)]
  simp only
  by_cases hnan : a.cls = .nan ∨ b.cls = .nan
  · rw [if_pos hnan, if_pos hnan]
  rw [if_neg hnan, if_neg hnan]
  rw [not_or] at hnan
  by_cases hai : a.cls = .infinity
  · rw [if_pos hai]
    by_cases hbi : b.cls = .infinity
    · rw [if_pos hbi, if_pos (.inl ⟨hai, hbi⟩)]
    · rw [if_neg hbi, if_neg (by simp [hai, hbi]), if_pos (.inl hai)]
  rw [if_neg hai]
  by_cases hbi : b.cls = .infinity
  · rw [if_pos hbi, if_neg (by simp [hai, hbi]), if_neg (by simp [hai, hbi]), if_pos hbi]
  rw [if_neg hbi]
  by_cases hbz : b.cls = .zero
  · rw [if_pos hbz]
    by_cases haz : a.cls = .zero
    · rw [if_pos haz, if_pos (.inr ⟨haz, hbz⟩)]
    · rw [if_neg haz, if_neg (by simp [hai, haz]), if_pos (.inr hbz)]
  rw [if_neg hbz, if_neg (by simp [hai, hbz]), if_neg (by simp [hai, hbz]), if_neg hbi]
  have hbc := normal_of_finite hnan.2 hbi hbz
  by_cases haz : a.cls = .zero
  · have hx : a.toRat / b.toRat = 0 := by
      rw [toRat_of_not_normal (v := a) (by rw [haz]; decide), zero_div]
    rw [if_pos haz, Meets, if_pos hx]
  · rw [if_neg haz]
    have hac := normal_of_finite hnan.1 hai haz
    refine meets_of_rounds (div_pos (ha.magnitude_pos hac) (hb.magnitude_pos hbc)) ?_
      (rounds_div ha.supported ha hb hac hbc (a.sign ^^ b.sign) rfl) _
    rw [toRat_of_normal hac, toRat_of_normal hbc]
    cases a.sign <;> cases b.sign <;> simp [neg_div, div_neg]

theorem zero_wellFormed (hk : isSupportedKind k = true) (sign : Bool) : (zero k sign).WellFormed :=
  ⟨hk, nofun, nofun, nofun, nofun⟩

theorem infinity_wellFormed (hk : isSupportedKind k = true) (sign : Bool) :
    (infinity k sign).WellFormed :=
  ⟨hk, nofun, nofun, nofun, nofun⟩

theorem nan_wellFormed (hk : isSupportedKind k = true) : (nan k).WellFormed :=
  ⟨hk, nofun, nofun, nofun, nofun⟩

theorem wellFormed_of_sigHi (hk : isSupportedKind k = true) {sign : Bool} {e : ℤ}
    {w : BitVec 64} (hw : 2 ^ 63 ≤ w.toNat) (hlo : kMinExp ≤ e) (hhi : e ≤ kMaxExp) :
    WellFormed ⟨sign, .normal, e, w, 0#64, k⟩ := by
  have hsig : sig ⟨sign, .normal, e, w, 0#64, k⟩ = 2 ^ 64 * w.toNat := by
    simp only [sig, BitVec.toNat_ofNat]
    omega
  refine ⟨hk, fun _ => ?_, fun _ => ?_, fun _ => hhi, fun _ => hlo⟩
  · rw [hsig]
    omega
  · rw [hsig]
    apply Nat.mod_eq_zero_of_dvd
    refine Dvd.dvd.mul_right (Nat.pow_dvd_pow 2 ?_) _
    rcases significandBits_cases k with h | h <;> simp only [h] <;> omega

theorem two_pow_le_shl_countlZero {w : BitVec 64} (hw : w ≠ 0#64) :
    2 ^ 63 ≤ (w <<< countlZero w).toNat ∧ countlZero w ≤ 63 := by
  have hne : w.toNat ≠ 0 := fun h => hw (BitVec.eq_of_toNat_eq h)
  have hsz := Nat.lt_size_self w.toNat
  have hsz64 : w.toNat.size ≤ 64 := Nat.size_le.mpr w.isLt
  have hsz0 : 0 < w.toNat.size := Nat.size_pos.mpr (Nat.pos_of_ne_zero hne)
  obtain ⟨s, hs⟩ : ∃ s, w.toNat.size = s + 1 := ⟨_, (Nat.succ_pred hsz0.ne').symm⟩
  have hle : 2 ^ s ≤ w.toNat := Nat.lt_size.mp (by omega)
  rw [hs] at hsz hsz64
  refine ⟨?_, by rw [countlZero, hs]; omega⟩
  have hlt : w.toNat * 2 ^ (64 - (s + 1)) < 2 ^ 64 := by
    calc w.toNat * 2 ^ (64 - (s + 1)) < 2 ^ (s + 1) * 2 ^ (64 - (s + 1)) :=
          Nat.mul_lt_mul_of_pos_right hsz (Nat.two_pow_pos _)
      _ = 2 ^ 64 := by rw [← pow_add]; congr 1; omega
  rw [countlZero, hs, BitVec.toNat_shiftLeft, Nat.shiftLeft_eq, Nat.mod_eq_of_lt hlt]
  calc 2 ^ 63 = 2 ^ s * 2 ^ (64 - (s + 1)) := by rw [← pow_add]; congr 1; omega
    _ ≤ _ := Nat.mul_le_mul_right _ hle

theorem fromUint64_wellFormed (hk : isSupportedKind k = true) (mag : BitVec 64) (sign : Bool) :
    (fromUint64 mag sign k).WellFormed := by
  unfold fromUint64
  by_cases h0 : mag = 0#64
  · rw [if_pos h0]
    exact zero_wellFormed hk sign
  · rw [if_neg h0]
    obtain ⟨htop, hclz⟩ := two_pow_le_shl_countlZero h0
    have hsub : 63 - (63 - countlZero mag) = countlZero mag := by omega
    simp only [hsub]
    exact wellFormed_of_sigHi hk htop (by unfold kMinExp; omega) (by unfold kMaxExp; omega)

theorem fromDouble_wellFormed (hk : isSupportedKind k = true) (bits : BitVec 64) :
    (fromDouble bits k).WellFormed := by
  unfold fromDouble
  simp only
  have hexp : ((bits >>> 52) &&& 0x7FF#64).toNat ≤ 2047 := by
    rw [BitVec.toNat_and]
    exact Nat.and_le_right
  split
  · split
    · exact infinity_wellFormed hk _
    · exact ⟨hk, nofun, nofun, nofun, nofun⟩
  · split
    · split
      · exact zero_wellFormed hk _
      · rename_i h0
        obtain ⟨htop, hclz⟩ := two_pow_le_shl_countlZero h0
        exact wellFormed_of_sigHi hk htop (by unfold kMinExp; omega) (by unfold kMaxExp; omega)
    · have hor : 2 ^ 63 ≤ ((1#64 <<< 63) ||| ((bits &&& 0x000FFFFFFFFFFFFF#64) <<< 11)).toNat := by
        rw [BitVec.toNat_or]
        exact Nat.left_le_or
      exact wellFormed_of_sigHi hk hor (by unfold kMinExp; omega) (by unfold kMaxExp; omega)

theorem Rounds.wellFormed (hk : isSupportedKind k = true) {sign : Bool} {m : ℚ}
    (h : Rounds k sign m (some v)) : v.WellFormed ∧ v.kind = k := by
  by_cases hover : maxFinite k < Bits.roundSig (significandBits k) m
  · have hv := h.overflow.mpr hover
    rw [Option.some.injEq] at hv
    rw [hv]
    exact ⟨infinity_wellFormed hk sign, rfl⟩
  · have hmin : minNormal ≤ Bits.roundSig (significandBits k) m := by
      by_contra hlt
      have hv := h.underflow.mpr (not_le.mp hlt)
      cases hv
    obtain ⟨u, hu, hwf, hkind, -⟩ := h.value hmin (not_lt.mp hover)
    rw [Option.some.injEq] at hu
    rw [hu]
    exact ⟨hwf, hkind⟩

theorem Meets.wellFormed (hk : isSupportedKind k = true) {x : ℚ} {s : Bool}
    (h : Meets k x s (some v)) : v.WellFormed ∧ v.kind = k := by
  unfold Meets at h
  split at h
  · rw [Option.some.injEq] at h
    rw [h]
    exact ⟨zero_wellFormed hk s, rfl⟩
  · exact h.wellFormed hk

theorem fromExactBinary_wellFormed {sign : Bool} {e : ℤ} {reg : List (BitVec 64)} (hreg : Reg reg)
    {residual : Bool} (h : fromExactBinary k sign e reg residual = some v) :
    v.WellFormed ∧ v.kind = k := by
  unfold fromExactBinary at h
  split at h
  · cases h
  · rename_i hk
    rw [Bool.not_eq_false] at hk
    split at h
    · cases h
    · rename_i hbit
      rw [Bool.not_eq_false, getBit_eq] at hbit
      have hlo : 2 ^ 255 ≤ Limbs.val reg := Nat.ge_two_pow_of_testBit hbit
      have hone : ((Limbs.val reg % 2 ^ (255 - significandBits k) : ℕ) : ℚ) + 1 ≤
          2 ^ (255 - significandBits k) := by
        exact_mod_cast Nat.mod_lt (Limbs.val reg) (Nat.two_pow_pos _)
      -- the residual stands for some fraction; a half will do
      have hrounds := rounds_roundNormal hk hreg hlo
        (show (0 : ℚ) ≤ if residual then 1 / 2 else 0 by split <;> norm_num) (by split <;> linarith)
        (show residual = decide ((if residual then (1 / 2 : ℚ) else 0) ≠ 0) by
          cases residual <;> simp) sign e
      rw [h] at hrounds
      exact hrounds.wellFormed hk

/-- The values the class makes.  `fromPacked` is not among them: it gives back what `pack` was given
(`fromPacked_pack`), and of words that no `pack` wrote it may make one that is not well formed. -/
inductive Made : WideFloatValue → Prop
  | zero {k : TypeKind} (hk : isSupportedKind k = true) (sign : Bool) : Made (zero k sign)
  | infinity {k : TypeKind} (hk : isSupportedKind k = true) (sign : Bool) :
      Made (infinity k sign)
  | nan {k : TypeKind} (hk : isSupportedKind k = true) : Made (nan k)
  | fromDouble {k : TypeKind} (hk : isSupportedKind k = true) (bits : BitVec 64) :
      Made (fromDouble bits k)
  | fromUint64 {k : TypeKind} (hk : isSupportedKind k = true) (mag : BitVec 64) (sign : Bool) :
      Made (fromUint64 mag sign k)
  | fromInt64 {k : TypeKind} (hk : isSupportedKind k = true) (x : BitVec 64) :
      Made (fromInt64 x k)
  | fromExactBinary {k : TypeKind} {v : WideFloatValue} {sign : Bool} {e : ℤ}
      {reg : List (BitVec 64)} (hreg : Reg reg) {residual : Bool}
      (h : fromExactBinary k sign e reg residual = some v) : Made v
  | negate {v : WideFloatValue} (hv : Made v) : Made v.negate
  | add {a b v : WideFloatValue} (ha : Made a) (hb : Made b) (h : add a b = some v) : Made v
  | sub {a b v : WideFloatValue} (ha : Made a) (hb : Made b) (h : sub a b = some v) : Made v
  | mul {a b v : WideFloatValue} (ha : Made a) (hb : Made b) (h : mul a b = some v) : Made v
  | div {a b v : WideFloatValue} (ha : Made a) (hb : Made b) (h : div a b = some v) : Made v

theorem IeeeAdd.wellFormed (hk : isSupportedKind k = true) (h : IeeeAdd k a b (some v)) :
    v.WellFormed := by
  unfold IeeeAdd at h
  simp only [Option.some.injEq] at h
  split_ifs at h
  · exact h ▸ nan_wellFormed hk
  · exact h ▸ nan_wellFormed hk
  · exact h ▸ infinity_wellFormed hk _
  · exact h ▸ infinity_wellFormed hk _
  · exact (h.wellFormed hk).1

theorem IeeeMul.wellFormed (hk : isSupportedKind k = true) (h : IeeeMul k a b (some v)) :
    v.WellFormed := by
  unfold IeeeMul at h
  simp only [Option.some.injEq] at h
  split_ifs at h
  · exact h ▸ nan_wellFormed hk
  · exact h ▸ nan_wellFormed hk
  · exact h ▸ infinity_wellFormed hk _
  · exact (h.wellFormed hk).1

theorem IeeeDiv.wellFormed (hk : isSupportedKind k = true) (h : IeeeDiv k a b (some v)) :
    v.WellFormed := by
  unfold IeeeDiv at h
  simp only [Option.some.injEq] at h
  split_ifs at h
  · exact h ▸ nan_wellFormed hk
  · exact h ▸ nan_wellFormed hk
  · exact h ▸ infinity_wellFormed hk _
  · exact h ▸ zero_wellFormed hk _
  · exact (h.wellFormed hk).1

theorem kind_eq_of_guard {c : Prop} [Decidable c] {α : Type} {x : Option α} {y : α}
    (h : (if c then none else x) = some y) : ¬ c := by
  intro hc
  rw [if_pos hc] at h
  cases h

/-- **Every value the class makes is well formed.** -/
theorem Made.wellFormed (h : Made v) : v.WellFormed := by
  induction h with
  | zero hk sign => exact zero_wellFormed hk sign
  | infinity hk sign => exact infinity_wellFormed hk sign
  | nan hk => exact nan_wellFormed hk
  | fromDouble hk bits => exact fromDouble_wellFormed hk bits
  | fromUint64 hk mag sign => exact fromUint64_wellFormed hk mag sign
  | fromInt64 hk x => exact fromUint64_wellFormed hk _ _
  | fromExactBinary hreg h => exact (fromExactBinary_wellFormed hreg h).1
  | negate hv ih => exact negate_wellFormed ih
  | add ha hb h iha ihb =>
    have hkind := not_not.mp (not_or.mp (kind_eq_of_guard h)).1
    have hop := ieeeAdd_addSub iha ihb hkind false
    rw [show addSub _ _ false = some _ from h] at hop
    exact hop.wellFormed iha.supported
  | sub ha hb h iha ihb =>
    have hkind := not_not.mp (not_or.mp (kind_eq_of_guard h)).1
    have hop := ieeeAdd_addSub iha ihb hkind true
    rw [show addSub _ _ true = some _ from h] at hop
    exact hop.wellFormed iha.supported
  | mul ha hb h iha ihb =>
    have hkind := not_not.mp (not_or.mp (kind_eq_of_guard h)).1
    have hop := ieeeMul_mul iha ihb hkind
    rw [h] at hop
    exact hop.wellFormed iha.supported
  | div ha hb h iha ihb =>
    have hkind := not_not.mp (not_or.mp (kind_eq_of_guard h)).1
    have hop := ieeeDiv_div iha ihb hkind
    rw [h] at hop
    exact hop.wellFormed iha.supported

/-- **The four operations are correctly rounded.** -/
theorem arithmetic_rounded {a b : WideFloatValue} (ha : a.WellFormed) (hb : b.WellFormed)
    (hkind : a.kind = b.kind) :
    IeeeAdd a.kind a b (add a b) ∧ IeeeAdd a.kind a b.negate (sub a b) ∧
      IeeeMul a.kind a b (mul a b) ∧ IeeeDiv a.kind a b (div a b) :=
  ⟨ieeeAdd_addSub ha hb hkind false, ieeeAdd_addSub ha hb hkind true, ieeeMul_mul ha hb hkind,
    ieeeDiv_div ha hb hkind⟩

theorem arithmetic_rounded_seven_three :
    IeeeAdd .f128 (fromUint64 7#64 false .f128) (fromUint64 3#64 true .f128)
        (add (fromUint64 7#64 false .f128) (fromUint64 3#64 true .f128)) ∧
      IeeeAdd .f128 (fromUint64 7#64 false .f128) (fromUint64 3#64 true .f128).negate
        (sub (fromUint64 7#64 false .f128) (fromUint64 3#64 true .f128)) ∧
      IeeeMul .f128 (fromUint64 7#64 false .f128) (fromUint64 3#64 true .f128)
        (mul (fromUint64 7#64 false .f128) (fromUint64 3#64 true .f128)) ∧
      IeeeDiv .f128 (fromUint64 7#64 false .f128) (fromUint64 3#64 true .f128)
        (div (fromUint64 7#64 false .f128) (fromUint64 3#64 true .f128)) :=
  arithmetic_rounded (fromUint64_wellFormed rfl 7#64 false) (fromUint64_wellFormed rfl 3#64 true)
    rfl

end DssPrime.WideFloatValue
