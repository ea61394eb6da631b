import Mathlib
import DssPrime.Bits.IeeeFormat
import DssPrime.Types.WideFloatIeee

/-!
# The packed form of wide floats

A wide float leaves the fold as two words: `F80` keeps its integer bit in the low word, `F128` drops
it and splits a fraction of 112 bits over both. `unpackF80` and `unpackF128` read the words back.

Nothing in the words records the guard bits below the significand, the bits of a special value or an
exponent outside the format.
-/

namespace DssPrime.WideFloatValue

open Bits (toNat_field_or toNat_and_mask toNat_ushiftRight_eq)

structure Packed where
  lo : BitVec 64
  hi : BitVec 64
  deriving DecidableEq

def kExpBias : ℤ := 16383

def exp15 (v : WideFloatValue) : BitVec 64 :=
  (BitVec.ofInt 32 (v.exponent + kExpBias) &&& 0x7FFF#32).setWidth 64

def packF80 (v : WideFloatValue) : Packed :=
  let s := if v.sign then 1#64 else 0#64
  match v.cls with
  | .zero => ⟨0#64, s <<< 15⟩
  | .infinity => ⟨1#64 <<< 63, (s <<< 15) ||| 0x7FFF#64⟩
  | .nan => ⟨(1#64 <<< 63) ||| (1#64 <<< 62), (s <<< 15) ||| 0x7FFF#64⟩
  | .normal => ⟨v.sigHi, (s <<< 15) ||| v.exp15⟩

def packF128 (v : WideFloatValue) : Packed :=
  let s := if v.sign then 1#64 else 0#64
  match v.cls with
  | .zero => ⟨0#64, s <<< 63⟩
  | .infinity => ⟨0#64, (s <<< 63) ||| (0x7FFF#64 <<< 48)⟩
  | .nan => ⟨0#64, (s <<< 63) ||| (0x7FFF#64 <<< 48) ||| (1#64 <<< 47)⟩
  | .normal =>
    -- the fraction is bits 126 to 15 of the significand
    let fracLo64 := (v.sigLo >>> 15) ||| (v.sigHi <<< 49)
    let fracHi48 := (v.sigHi >>> 15) &&& 0xFFFFFFFFFFFF#64
    ⟨fracLo64, (s <<< 63) ||| (v.exp15 <<< 48) ||| fracHi48⟩

def pack (v : WideFloatValue) : Packed := if v.kind = .f128 then packF128 v else packF80 v

def unpackF80 (lo hi : BitVec 64) : WideFloatValue :=
  let sign := ((hi >>> 15) &&& 1#64) != 0#64
  let exp15 := hi &&& 0x7FFF#64
  if exp15 = 0x7FFF#64 then
    ⟨sign, if lo &&& 0x7FFFFFFFFFFFFFFF#64 = 0#64 then .infinity else .nan, 0, 0#64, 0#64, .f80⟩
  else if exp15 = 0#64 ∨ lo = 0#64 then ⟨sign, .zero, 0, 0#64, 0#64, .f80⟩
  else ⟨sign, .normal, (exp15.toNat : ℤ) - kExpBias, lo, 0#64, .f80⟩

def unpackF128 (lo hi : BitVec 64) : WideFloatValue :=
  let sign := ((hi >>> 63) &&& 1#64) != 0#64
  let exp15 := (hi >>> 48) &&& 0x7FFF#64
  let fracHi48 := hi &&& 0xFFFFFFFFFFFF#64
  let fracLo64 := lo
  if exp15 = 0x7FFF#64 then
    ⟨sign, if fracHi48 = 0#64 ∧ fracLo64 = 0#64 then .infinity else .nan, 0, 0#64, 0#64, .f128⟩
  else if exp15 = 0#64 ∧ fracHi48 = 0#64 ∧ fracLo64 = 0#64 then
    ⟨sign, .zero, 0, 0#64, 0#64, .f128⟩
  else
    ⟨sign, .normal, (exp15.toNat : ℤ) - kExpBias,
      (1#64 <<< 63) ||| (fracHi48 <<< 15) ||| (fracLo64 >>> 49), fracLo64 <<< 15, .f128⟩

def fromPacked (lo hi : BitVec 64) (k : TypeKind) : WideFloatValue :=
  if k = .f128 then unpackF128 lo hi else unpackF80 lo hi

def Plain (v : WideFloatValue) : Prop :=
  v.cls ≠ .normal → v.exponent = 0 ∧ v.sigHi = 0#64 ∧ v.sigLo = 0#64

variable {a b v : WideFloatValue} {k : TypeKind}

theorem plain_special (sign : Bool) (cls : WideFloatClass) (k : TypeKind) :
    Plain ⟨sign, cls, 0, 0#64, 0#64, k⟩ := fun _ => ⟨rfl, rfl, rfl⟩

theorem plain_normal (sign : Bool) (e : ℤ) (hi lo : BitVec 64) (k : TypeKind) :
    Plain ⟨sign, .normal, e, hi, lo, k⟩ := fun h => absurd rfl h

theorem fromUint64_plain (mag : BitVec 64) (sign : Bool) (k : TypeKind) :
    (fromUint64 mag sign k).Plain := by
  unfold fromUint64
  split
  · exact plain_special _ _ _
  · exact plain_normal _ _ _ _ _

theorem fromDouble_plain (bits : BitVec 64) (k : TypeKind) : (fromDouble bits k).Plain := by
  unfold fromDouble
  simp only
  split_ifs
  · exact plain_special _ _ _
  · exact plain_special _ _ _
  · exact plain_special _ _ _
  · exact plain_normal _ _ _ _ _
  · exact plain_normal _ _ _ _ _

theorem Plain.negate (h : v.Plain) : v.negate.Plain := h

theorem roundNormal_plain {sign s : Bool} {e : ℤ} {W : List (BitVec 64)}
    (h : roundNormal k sign e W s = some v) : v.Plain := by
  unfold roundNormal at h
  simp only at h
  split_ifs at h
  all_goals
    rw [Option.some.injEq] at h
    first
    | exact h ▸ plain_special _ _ _
    | exact h ▸ plain_normal _ _ _ _ _

theorem addMagnitudes_plain {sign : Bool} (h : addMagnitudes k sign a b = some v) : v.Plain := by
  unfold addMagnitudes addAligned at h
  simp only at h
  split_ifs at h <;> exact roundNormal_plain h

theorem subOrdered_plain (h : subOrdered k a b = some v) : v.Plain := by
  unfold subOrdered at h
  simp only at h
  split_ifs at h
  all_goals first
    | exact roundNormal_plain h
    | rw [Option.some.injEq] at h
      exact h ▸ plain_special _ _ _

theorem subMagnitudes_plain (h : subMagnitudes k a b = some v) : v.Plain := by
  unfold subMagnitudes at h
  split_ifs at h
  · rw [Option.some.injEq] at h
    exact h ▸ plain_special _ _ _
  · exact subOrdered_plain h
  · exact subOrdered_plain h

theorem addSub_plain (ha : a.Plain) (hb : b.Plain) {subtract : Bool}
    (h : addSub a b subtract = some v) : v.Plain := by
  have hb' : (if subtract then { b with sign := !b.sign } else b).Plain := by
    split
    · exact hb
    · exact hb
  unfold addSub at h
  simp only at h
  generalize (if subtract then { b with sign := !b.sign } else b) = b' at h hb'
  split_ifs at h
  all_goals first
    | exact addMagnitudes_plain h
    | exact subMagnitudes_plain h
    | rw [Option.some.injEq] at h
      first
        | exact h ▸ plain_special _ _ _
        | exact h ▸ ha
        | exact h ▸ hb'

theorem mul_plain (h : mul a b = some v) : v.Plain := by
  unfold mul at h
  simp only at h
  split_ifs at h
  all_goals first
    | exact roundNormal_plain h
    | rw [Option.some.injEq] at h
      exact h ▸ plain_special _ _ _

theorem div_plain (h : div a b = some v) : v.Plain := by
  unfold div at h
  simp only at h
  split_ifs at h
  all_goals first
    | exact roundNormal_plain h
    | rw [Option.some.injEq] at h
      exact h ▸ plain_special _ _ _

/-- **No special value the class makes carries an exponent or a significand.** -/
theorem Made.plain (h : Made v) : v.Plain := by
  induction h with
  | zero hk sign => exact plain_special _ _ _
  | infinity hk sign => exact plain_special _ _ _
  | nan hk => exact plain_special _ _ _
  | fromDouble hk bits => exact fromDouble_plain bits _
  | fromUint64 hk mag sign => exact fromUint64_plain mag sign _
  | fromInt64 hk x => exact fromUint64_plain _ _ _
  | fromExactBinary hreg h =>
    unfold WideFloatValue.fromExactBinary at h
    split_ifs at h
    exact roundNormal_plain h
  | negate hv ih => exact ih.negate
  | add ha hb h iha ihb => exact addSub_plain iha ihb h
  | sub ha hb h iha ihb => exact addSub_plain iha ihb h
  | mul ha hb h iha ihb => exact mul_plain h
  | div ha hb h iha ihb => exact div_plain h

theorem WellFormed.exp15_toNat (h : v.WellFormed) (hv : v.cls = .normal) :
    (v.exp15.toNat : ℤ) = v.exponent + kExpBias ∧ 1 ≤ v.exp15.toNat ∧ v.exp15.toNat < 0x7FFF := by
  have hle := h.exponent_le hv
  have hge := h.le_exponent hv
  unfold kMaxExp at hle
  unfold kMinExp at hge
  have hval : v.exp15.toNat = (v.exponent + kExpBias).toNat := by
    have hmask : (0x7FFF#32).toNat = 2 ^ 15 - 1 := rfl
    rw [exp15, BitVec.toNat_setWidth, BitVec.toNat_and, hmask, Nat.and_two_pow_sub_one_eq_mod,
      BitVec.toNat_ofInt]
    unfold kExpBias
    omega
  unfold kExpBias at hval ⊢
  omega

theorem WellFormed.sig_parts (h : v.WellFormed) (hv : v.cls = .normal) :
    2 ^ 63 ≤ v.sigHi.toNat ∧
      (v.kind = .f80 → v.sigLo = 0#64) ∧ (v.kind = .f128 → v.sigLo.toNat % 2 ^ 15 = 0) := by
  have hbit := h.integerBit hv
  have hprec := h.precision hv
  have hlo := v.sigLo.isLt
  unfold sig at hbit hprec
  refine ⟨by omega, fun hk => ?_, fun hk => ?_⟩
  · have hp : significandBits v.kind = 64 := by rw [hk]; rfl
    rw [hp] at hprec
    apply BitVec.eq_of_toNat_eq
    rw [BitVec.toNat_ofNat]
    omega
  · have hp : significandBits v.kind = 113 := by rw [hk]; rfl
    rw [hp] at hprec
    omega

theorem sign_bit (v : WideFloatValue) :
    (if v.sign then 1#64 else 0#64).toNat ≤ 1 ∧
      ((if v.sign then 1#64 else 0#64) != 0#64) = v.sign := by
  cases v.sign <;> decide

theorem unpackF80_special (v : WideFloatValue) (hv : v.cls ≠ .normal) (hp : v.Plain)
    (hk : v.kind = .f80) : unpackF80 (packF80 v).lo (packF80 v).hi = v := by
  obtain ⟨he, hhi, hlo⟩ := hp hv
  obtain ⟨sign, cls, exponent, sigHi, sigLo, kind⟩ := v
  subst he hhi hlo hk
  cases cls with
  | normal => exact absurd rfl hv
  | zero => cases sign <;> decide
  | infinity => cases sign <;> decide
  | nan => cases sign <;> decide

theorem unpackF128_special (v : WideFloatValue) (hv : v.cls ≠ .normal) (hp : v.Plain)
    (hk : v.kind = .f128) : unpackF128 (packF128 v).lo (packF128 v).hi = v := by
  obtain ⟨he, hhi, hlo⟩ := hp hv
  obtain ⟨sign, cls, exponent, sigHi, sigLo, kind⟩ := v
  subst he hhi hlo hk
  cases cls with
  | normal => exact absurd rfl hv
  | zero => cases sign <;> decide
  | infinity => cases sign <;> decide
  | nan => cases sign <;> decide

theorem unpackF80_normal (h : v.WellFormed) (hv : v.cls = .normal) (hk : v.kind = .f80) :
    unpackF80 (packF80 v).lo (packF80 v).hi = v := by
  obtain ⟨hE, hE1, hE2⟩ := h.exp15_toNat hv
  obtain ⟨htop, hlo, -⟩ := h.sig_parts hv
  obtain ⟨hs1, hs⟩ := v.sign_bit
  have hpack : packF80 v =
      ⟨v.sigHi, ((if v.sign then 1#64 else 0#64) <<< 15) ||| v.exp15⟩ := by
    rw [packF80]
    simp only [hv]
  rw [hpack]
  simp only
  generalize (if v.sign then 1#64 else 0#64) = s at hs1 hs
  have hhi := toNat_field_or (n := 15) (x := s) (y := v.exp15) (by omega) (by omega)
  have hexp : ((s <<< 15) ||| v.exp15) &&& 0x7FFF#64 = v.exp15 := by
    apply BitVec.eq_of_toNat_eq
    rw [toNat_and_mask _ (show (0x7FFF#64).toNat = 2 ^ 15 - 1 from rfl), hhi]
    omega
  have hsign : (((s <<< 15) ||| v.exp15) >>> 15) &&& 1#64 = s := by
    apply BitVec.eq_of_toNat_eq
    rw [toNat_and_mask _ (show (1#64).toNat = 2 ^ 1 - 1 from rfl), toNat_ushiftRight_eq, hhi]
    omega
  have hmax : v.exp15 ≠ 0x7FFF#64 := by
    intro heq
    rw [heq] at hE2
    exact absurd hE2 (by decide)
  have hnz : ¬ (v.exp15 = 0#64 ∨ v.sigHi = 0#64) := by
    rintro (heq | heq)
    · rw [heq] at hE1
      exact absurd hE1 (by decide)
    · rw [heq] at htop
      exact absurd htop (by decide)
  unfold unpackF80
  simp only
  rw [hexp, hsign, hs, if_neg hmax, if_neg hnz, hE]
  obtain ⟨sign, cls, exponent, sigHi, sigLo, kind⟩ := v
  simp only at hv hk hlo ⊢
  rw [hv, hk, hlo hk, add_sub_cancel_right]

theorem unpackF128_normal (h : v.WellFormed) (hv : v.cls = .normal) (hk : v.kind = .f128) :
    unpackF128 (packF128 v).lo (packF128 v).hi = v := by
  obtain ⟨hE, hE1, hE2⟩ := h.exp15_toNat hv
  obtain ⟨htop, -, hlo⟩ := h.sig_parts hv
  obtain ⟨hs1, hs⟩ := v.sign_bit
  have hH := v.sigHi.isLt
  have hL := v.sigLo.isLt
  have hguard := hlo hk
  have hpack : packF128 v = ⟨(v.sigLo >>> 15) ||| (v.sigHi <<< 49),
      ((if v.sign then 1#64 else 0#64) <<< 63) ||| (v.exp15 <<< 48) |||
        ((v.sigHi >>> 15) &&& 0xFFFFFFFFFFFF#64)⟩ := by
    rw [packF128]
    simp only [hv]
  rw [hpack]
  simp only
  generalize (if v.sign then 1#64 else 0#64) = s at hs1 hs
  -- the fraction over the two words
  have hfhi : ((v.sigHi >>> 15) &&& 0xFFFFFFFFFFFF#64).toNat = v.sigHi.toNat / 2 ^ 15 % 2 ^ 48 := by
    rw [toNat_and_mask _ (show (0xFFFFFFFFFFFF#64).toNat = 2 ^ 48 - 1 from rfl),
      toNat_ushiftRight_eq]
  have hflo : ((v.sigLo >>> 15) ||| (v.sigHi <<< 49)).toNat =
      v.sigHi.toNat % 2 ^ 15 * 2 ^ 49 + v.sigLo.toNat / 2 ^ 15 := by
    have hshl : (v.sigHi <<< 49).toNat = 2 ^ 49 * (v.sigHi.toNat % 2 ^ 15) := by
      rw [BitVec.toNat_shiftLeft, Nat.shiftLeft_eq]
      omega
    rw [BitVec.or_comm, BitVec.toNat_or, hshl, toNat_ushiftRight_eq,
      ← Nat.two_pow_add_eq_or_of_lt (by omega), mul_comm]
  have hlow : ((v.exp15 <<< 48) ||| ((v.sigHi >>> 15) &&& 0xFFFFFFFFFFFF#64)).toNat =
      v.exp15.toNat * 2 ^ 48 + v.sigHi.toNat / 2 ^ 15 % 2 ^ 48 := by
    rw [toNat_field_or (by omega) (by rw [hfhi]; omega), hfhi]
  have hhi : ((s <<< 63) ||| (v.exp15 <<< 48) |||
      ((v.sigHi >>> 15) &&& 0xFFFFFFFFFFFF#64)).toNat =
      s.toNat * 2 ^ 63 + (v.exp15.toNat * 2 ^ 48 + v.sigHi.toNat / 2 ^ 15 % 2 ^ 48) := by
    rw [BitVec.or_assoc, toNat_field_or (by omega) (by rw [hlow]; omega), hlow]
  generalize hW : (s <<< 63) ||| (v.exp15 <<< 48) |||
    ((v.sigHi >>> 15) &&& 0xFFFFFFFFFFFF#64) = W at hhi
  generalize hF : (v.sigLo >>> 15) ||| (v.sigHi <<< 49) = F at hflo
  have hexp : (W >>> 48) &&& 0x7FFF#64 = v.exp15 := by
    apply BitVec.eq_of_toNat_eq
    rw [toNat_and_mask _ (show (0x7FFF#64).toNat = 2 ^ 15 - 1 from rfl), toNat_ushiftRight_eq, hhi]
    omega
  have hsign : (W >>> 63) &&& 1#64 = s := by
    apply BitVec.eq_of_toNat_eq
    rw [toNat_and_mask _ (show (1#64).toNat = 2 ^ 1 - 1 from rfl), toNat_ushiftRight_eq, hhi]
    omega
  have hsigLo : F <<< 15 = v.sigLo := by
    apply BitVec.eq_of_toNat_eq
    rw [BitVec.toNat_shiftLeft, Nat.shiftLeft_eq, hflo]
    omega
  have hsigHi : (1#64 <<< 63) ||| ((W &&& 0xFFFFFFFFFFFF#64) <<< 15) ||| (F >>> 49) = v.sigHi := by
    have hfrac : (W &&& 0xFFFFFFFFFFFF#64).toNat = v.sigHi.toNat / 2 ^ 15 % 2 ^ 48 := by
      rw [toNat_and_mask _ (show (0xFFFFFFFFFFFF#64).toNat = 2 ^ 48 - 1 from rfl), hhi]
      omega
    have hFhi : (F >>> 49).toNat = v.sigHi.toNat % 2 ^ 15 := by
      rw [toNat_ushiftRight_eq, hflo]
      omega
    have hin : (((W &&& 0xFFFFFFFFFFFF#64) <<< 15) ||| (F >>> 49)).toNat =
        v.sigHi.toNat / 2 ^ 15 % 2 ^ 48 * 2 ^ 15 + v.sigHi.toNat % 2 ^ 15 := by
      rw [toNat_field_or (by omega) (by omega), hfrac, hFhi]
    apply BitVec.eq_of_toNat_eq
    rw [BitVec.or_assoc, toNat_field_or (by decide) (by rw [hin]; omega), hin,
      show (1#64).toNat = 1 from rfl]
    omega
  have hmax : v.exp15 ≠ 0x7FFF#64 := by
    intro heq
    rw [heq] at hE2
    exact absurd hE2 (by decide)
  have hnz : ¬ (v.exp15 = 0#64 ∧ W &&& 0xFFFFFFFFFFFF#64 = 0#64 ∧ F = 0#64) := by
    rintro ⟨heq, -, -⟩
    rw [heq] at hE1
    exact absurd hE1 (by decide)
  unfold unpackF128
  simp only
  rw [hexp, hsign, hs, if_neg hmax, if_neg hnz, hE, hsigHi, hsigLo]
  obtain ⟨sign, cls, exponent, sigHi, sigLo, kind⟩ := v
  simp only at hv hk ⊢
  rw [hv, hk, add_sub_cancel_right]

/-- **Packing loses nothing.** -/
theorem unpack_pack (h : v.WellFormed) (hp : v.Plain) :
    fromPacked (pack v).lo (pack v).hi v.kind = v := by
  have hkind := h.supported
  rw [isSupportedKind, Bool.or_eq_true, beq_iff_eq, beq_iff_eq] at hkind
  rcases hkind with hk | hk
  · have hne : v.kind ≠ .f128 := by
      rw [hk]
      decide
    rw [fromPacked, pack, if_neg hne, if_neg hne]
    by_cases hv : v.cls = .normal
    · exact unpackF80_normal h hv hk
    · exact unpackF80_special v hv hp hk
  · rw [fromPacked, pack, if_pos hk, if_pos hk]
    by_cases hv : v.cls = .normal
    · exact unpackF128_normal h hv hk
    · exact unpackF128_special v hv hp hk

/-- **Every value the class makes survives the pack and the unpack**, NaNs with their sign
included, so two values of one kind share a pattern only when they are the same value. -/
theorem fromPacked_pack (hv : Made v) :
    fromPacked (pack v).lo (pack v).hi v.kind = v ∧
      ∀ w, Made w → w.kind = v.kind → pack v = pack w → v = w := by
  have hround : ∀ u, Made u → fromPacked (pack u).lo (pack u).hi u.kind = u := fun u hu =>
    unpack_pack hu.wellFormed hu.plain
  refine ⟨hround v hv, fun w hw hkind hpack => ?_⟩
  calc v = fromPacked (pack v).lo (pack v).hi v.kind := (hround v hv).symm
    _ = fromPacked (pack w).lo (pack w).hi w.kind := by rw [hpack, hkind]
    _ = w := hround w hw

theorem fromPacked_pack_third :
    fromPacked (pack (fromDouble 0xBFD5555555555555#64 .f128)).lo
        (pack (fromDouble 0xBFD5555555555555#64 .f128)).hi
        (fromDouble 0xBFD5555555555555#64 .f128).kind = fromDouble 0xBFD5555555555555#64 .f128 ∧
      ∀ w, Made w → w.kind = (fromDouble 0xBFD5555555555555#64 .f128).kind →
        pack (fromDouble 0xBFD5555555555555#64 .f128) = pack w →
        fromDouble 0xBFD5555555555555#64 .f128 = w :=
  fromPacked_pack (.fromDouble rfl _)

theorem pack_not_injective_over_kinds :
    ¬ ∀ v w : WideFloatValue, Made v → Made w → v.cls ≠ .nan → w.cls ≠ .nan → v ≠ w →
      pack v ≠ pack w := by
  intro h
  exact h (zero .f80 false) (zero .f128 false) (.zero rfl false) (.zero rfl false) (by decide)
    (by decide) (by decide) (by decide)

end DssPrime.WideFloatValue
