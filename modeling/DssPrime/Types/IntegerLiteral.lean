import Mathlib
import DssPrime.Types.BitIntRepr
import DssPrime.Types.FloatLiteral

/-!
# Integer literals

Both decoders read the body that `normalizeIntegerLiteral` leaves and stop at the first character
that is no digit of its base.

The width of a bit-precise literal is counted in 32 bits.
-/

namespace DssPrime.NumberDecode

open Limbs (val)

structure IntegerPrefix where
  text : List Char
  radix : ℕ
  two_le : 2 ≤ radix
  le_36 : radix ≤ 36

/-- What the integer decoders read of a number style, beside the digit separator. -/
structure IntegerStyle extends NumberStyle where
  integerPrefixes : List IntegerPrefix
  integerSuffixes : List (List Char)

structure IntegerLiteralBody where
  digits : List Char
  base : ℕ
  prefixed : Bool

def longestPrefix (digits : List Char) (ps : List IntegerPrefix) : ℕ × ℕ :=
  ps.foldl (fun best p => if best.1 < p.text.length ∧ p.text.length ≤ digits.length ∧
    digits.take p.text.length = p.text then (p.text.length, p.radix) else best) (0, 10)

def validDigit (base : ℕ) (c : Char) : Bool :=
  match digitValue c with
  | some d => decide (d.toNat < base)
  | none => false

def normalizeIntegerLiteral (text : List Char) (ns : Option IntegerStyle) : IntegerLiteralBody :=
  let stripped := match ns with
    | some ns => stripTrailingSuffix text ns.integerSuffixes
    | none => text
  -- the NUL character stands for "no separator"
  let sep := (ns.bind (·.digitSeparator)).getD (Char.ofNat 0)
  let digits := stripped.filter (fun c => !(decide (sep ≠ Char.ofNat 0) && c == sep))
  match ns with
  | none => ⟨digits, 10, false⟩
  | some ns =>
    let best := longestPrefix digits ns.integerPrefixes
    if best.1 = 0 then ⟨digits, 10, false⟩
    else if digits.length = best.1 ∧ digits.all (validDigit best.2) then ⟨digits, best.2, true⟩
    else ⟨digits.drop best.1, best.2, true⟩

def decodeDigits (base : BitVec 64) : List Char → BitVec 64 → Option (BitVec 64)
  | [], value => some value
  | c :: cs, value =>
    match digitValue c with
    | none => some value
    | some d =>
      if base ≤ d then some value
      else if (0xFFFFFFFFFFFFFFFF#64 - d) / base < value then none
      else decodeDigits base cs (value * base + d)

def decodeInteger (text : List Char) (ns : Option IntegerStyle) : Option (BitVec 64) :=
  let body := normalizeIntegerLiteral text ns
  decodeDigits (BitVec.ofNat 64 body.base) body.digits 0#64

def decodeBigDigits (base : BitVec 64) : List Char → FloatMag → Bool → FloatMag × Bool
  | [], mag, anyDigit => (mag, anyDigit)
  | c :: cs, mag, anyDigit =>
    match digitValue c with
    | none => (mag, anyDigit)
    | some d =>
      if base ≤ d then (mag, anyDigit)
      else decodeBigDigits base cs (magMulAddSmall mag base d) true

def decodeBigInteger (text : List Char) (ns : Option IntegerStyle) : Option FloatMag :=
  let body := normalizeIntegerLiteral text ns
  let r := decodeBigDigits (BitVec.ofNat 64 body.base) body.digits [0#64] false
  if r.2 then some r.1 else none

def valueFrom (base : ℕ) (acc : ℕ) (ds : List Char) : ℕ :=
  ds.foldl (fun acc c => acc * base + ((digitValue c).getD 0#64).toNat) acc

def validDigits (body : IntegerLiteralBody) : List Char :=
  body.digits.takeWhile (validDigit body.base)

def literalValue (text : List Char) (ns : Option IntegerStyle) : ℕ :=
  let body := normalizeIntegerLiteral text ns
  valueFrom body.base 0 (validDigits body)

def Represents (W : ℕ) (isSigned : Bool) (x : ℕ) : Prop :=
  if isSigned then x < 2 ^ (W - 1) else x < 2 ^ W

/-- The decoders give the value of the text. -/
structure DecodedExactly (text : List Char) (ns : Option IntegerStyle) (isSigned : Bool) :
    Prop where
  digits : decodeBigInteger text ns = none ↔ validDigits (normalizeIntegerLiteral text ns) = []
  value : ∀ m, decodeBigInteger text ns = some m → val m = literalValue text ns
  small : ∀ v, decodeInteger text ns = some v ↔ literalValue text ns = v.toNat
  overflow : decodeInteger text ns = none ↔ 2 ^ 64 ≤ literalValue text ns
  kept : ∀ m, decodeBigInteger text ns = some m →
    (BitIntValue.fromLiteralMagnitude m isSigned).toInt = literalValue text ns
  smallest : ∀ m, decodeBigInteger text ns = some m → ∀ W, 1 ≤ W →
    W < (BitIntValue.fromLiteralMagnitude m isSigned).width →
    ¬ Represents W isSigned (literalValue text ns)

variable {base : ℕ}

theorem le_valueFrom (hb : 1 ≤ base) (acc : ℕ) (ds : List Char) : acc ≤ valueFrom base acc ds := by
  induction ds generalizing acc with
  | nil => exact le_rfl
  | cons c cs ih =>
    refine le_trans ?_ (ih _)
    exact le_add_right (Nat.le_mul_of_pos_right _ hb)

theorem normalize_base (text : List Char) (ns : Option IntegerStyle) :
    2 ≤ (normalizeIntegerLiteral text ns).base ∧ (normalizeIntegerLiteral text ns).base ≤ 36 := by
  have hbest : ∀ (ds : List Char) (ps : List IntegerPrefix) (b : ℕ × ℕ), 2 ≤ b.2 → b.2 ≤ 36 →
      2 ≤ (ps.foldl (fun best p => if best.1 < p.text.length ∧ p.text.length ≤ ds.length ∧
        ds.take p.text.length = p.text then (p.text.length, p.radix) else best) b).2 ∧
      (ps.foldl (fun best p => if best.1 < p.text.length ∧ p.text.length ≤ ds.length ∧
        ds.take p.text.length = p.text then (p.text.length, p.radix) else best) b).2 ≤ 36 := by
    intro ds ps
    induction ps with
    | nil => exact fun b h1 h2 => ⟨h1, h2⟩
    | cons p ps ih =>
      intro b h1 h2
      rw [List.foldl_cons]
      split
      · exact ih _ p.two_le p.le_36
      · exact ih _ h1 h2
  unfold normalizeIntegerLiteral
  cases ns with
  | none => exact ⟨Nat.le_add_left 2 8, Nat.le_add_right 10 26⟩
  | some ns =>
    simp only
    split_ifs
    · exact ⟨Nat.le_add_left 2 8, Nat.le_add_right 10 26⟩
    · exact hbest _ _ _ (Nat.le_add_left 2 8) (Nat.le_add_right 10 26)
    · exact hbest _ _ _ (Nat.le_add_left 2 8) (Nat.le_add_right 10 26)

theorem validDigit_cases (hb : base ≤ 36) (c : Char) :
    (∃ d, digitValue c = some d ∧ ¬ BitVec.ofNat 64 base ≤ d ∧ validDigit base c = true) ∨
      ((∀ d, digitValue c = some d → BitVec.ofNat 64 base ≤ d) ∧ validDigit base c = false) := by
  have hbase : (BitVec.ofNat 64 base).toNat = base := by
    rw [BitVec.toNat_ofNat]
    omega
  unfold validDigit
  cases digitValue c with
  | none => exact .inr ⟨by simp, rfl⟩
  | some d =>
    by_cases hd : d.toNat < base
    · refine .inl ⟨d, rfl, ?_, decide_eq_true hd⟩
      rw [BitVec.le_def, hbase]
      omega
    · refine .inr ⟨fun d' h' => ?_, decide_eq_false hd⟩
      cases h'
      rw [BitVec.le_def, hbase]
      omega

/-- **The guarded accumulator** returns the value unless it has left the 64 bits. -/
theorem decodeDigits_eq (hb : 1 ≤ base) (hb' : base ≤ 36) (ds : List Char) (v : BitVec 64) :
    decodeDigits (BitVec.ofNat 64 base) ds v =
      if valueFrom base v.toNat (ds.takeWhile (validDigit base)) < 2 ^ 64 then
        some (BitVec.ofNat 64 (valueFrom base v.toNat (ds.takeWhile (validDigit base))))
      else none := by
  have hbase : (BitVec.ofNat 64 base).toNat = base := by
    rw [BitVec.toNat_ofNat]
    omega
  have hstop : ∀ w : BitVec 64, some w =
      if valueFrom base w.toNat [] < 2 ^ 64 then some (BitVec.ofNat 64 (valueFrom base w.toNat []))
      else none := by
    intro w
    rw [valueFrom, List.foldl_nil, if_pos w.isLt, BitVec.ofNat_toNat, BitVec.setWidth_eq]
  induction ds generalizing v with
  | nil => exact hstop v
  | cons c cs ih =>
    rcases validDigit_cases hb' c with ⟨d, hd, hlt, hvalid⟩ | ⟨hge, hvalid⟩
    · rw [decodeDigits, hd]
      simp only [if_neg hlt]
      rw [List.takeWhile_cons_of_pos hvalid, valueFrom, List.foldl_cons, hd, Option.getD_some,
        ← valueFrom]
      have hguard : (0xFFFFFFFFFFFFFFFF#64 - d) / BitVec.ofNat 64 base < v ↔
          2 ^ 64 ≤ v.toNat * base + d.toNat := by
        have hdlt := d.isLt
        rw [BitVec.lt_def, BitVec.toNat_udiv, hbase, Nat.div_lt_iff_lt_mul (by omega)]
        have hsub : (0xFFFFFFFFFFFFFFFF#64 - d).toNat = 2 ^ 64 - 1 - d.toNat := by
          rw [BitVec.toNat_sub, BitVec.toNat_ofNat]
          omega
        rw [hsub]
        generalize v.toNat * base = p
        omega
      split_ifs with hover hfits hfits
      · rw [hguard] at hover
        have := le_valueFrom hb (v.toNat * base + d.toNat) (cs.takeWhile (validDigit base))
        omega
      · rfl
      · rw [hguard, not_le] at hover
        have hnext : (v * BitVec.ofNat 64 base + d).toNat = v.toNat * base + d.toNat := by
          rw [BitVec.toNat_add, BitVec.toNat_mul, hbase, Nat.mod_add_mod, Nat.mod_eq_of_lt hover]
        rw [ih, hnext, if_pos hfits]
      · rw [hguard, not_le] at hover
        have hnext : (v * BitVec.ofNat 64 base + d).toNat = v.toNat * base + d.toNat := by
          rw [BitVec.toNat_add, BitVec.toNat_mul, hbase, Nat.mod_add_mod, Nat.mod_eq_of_lt hover]
        rw [ih, hnext, if_neg hfits]
    · rw [List.takeWhile_cons_of_neg (by rw [hvalid]; decide), decodeDigits]
      cases hd : digitValue c with
      | none => exact hstop v
      | some d =>
        simp only [if_pos (hge d hd)]
        exact hstop v

/-- **The limb accumulator** is exact and notices whether there was a digit. -/
theorem decodeBigDigits_val (hb : base ≤ 36) (ds : List Char) (mag : FloatMag) (anyDigit : Bool) :
    val (decodeBigDigits (BitVec.ofNat 64 base) ds mag anyDigit).1 =
        valueFrom base (val mag) (ds.takeWhile (validDigit base)) ∧
      (decodeBigDigits (BitVec.ofNat 64 base) ds mag anyDigit).2 =
        (anyDigit || !(ds.takeWhile (validDigit base)).isEmpty) := by
  have hbase : (BitVec.ofNat 64 base).toNat = base := by
    rw [BitVec.toNat_ofNat]
    omega
  induction ds generalizing mag anyDigit with
  | nil => exact ⟨rfl, (Bool.or_false _).symm⟩
  | cons c cs ih =>
    rcases validDigit_cases hb c with ⟨d, hd, hlt, hvalid⟩ | ⟨hge, hvalid⟩
    · rw [decodeBigDigits, hd]
      simp only [if_neg hlt]
      obtain ⟨hval, hany⟩ := ih (magMulAddSmall mag (BitVec.ofNat 64 base) d) true
      rw [hval, hany, List.takeWhile_cons_of_pos hvalid, val_magMulAddSmall, hbase]
      refine ⟨?_, ?_⟩
      · rw [valueFrom, valueFrom, List.foldl_cons, hd, Option.getD_some]
      · simp
    · rw [List.takeWhile_cons_of_neg (by rw [hvalid]; decide), decodeBigDigits]
      cases hd : digitValue c with
      | none => exact ⟨rfl, (Bool.or_false _).symm⟩
      | some d =>
        simp only [if_pos (hge d hd)]
        exact ⟨rfl, (Bool.or_false _).symm⟩

open BitIntValue (bitLengthBelow bitLengthOf topBits literalWidth fromLiteralMagnitude limbsFor
  declared)

theorem size_eq_of_bounds {n k : ℕ} (hlo : 2 ^ k ≤ n) (hhi : n < 2 ^ (k + 1)) : n.size = k + 1 :=
  le_antisymm (Nat.size_le.2 hhi) (Nat.lt_size.2 hlo)

theorem topBits_eq (fuel : ℕ) {w : BitVec 64} (h : w.toNat < 2 ^ fuel) :
    topBits fuel w = w.toNat.size := by
  induction fuel generalizing w with
  | zero =>
    have h0 : w.toNat = 0 := by omega
    rw [topBits, h0, Nat.size_zero]
  | succ fuel ih =>
    rw [topBits]
    split_ifs with hw
    · rw [hw]
      rfl
    · have hhalf : (w >>> 1).toNat = w.toNat / 2 := by
        rw [BitVec.toNat_ushiftRight, Nat.shiftRight_eq_div_pow]
      have hpos : w.toNat ≠ 0 := fun h0 => hw (BitVec.eq_of_toNat_eq h0)
      have hlt := Nat.lt_size_self (w.toNat / 2)
      rw [ih (by rw [hhalf, Nat.pow_succ] at *; omega), hhalf]
      symm
      apply size_eq_of_bounds
      · by_cases h1 : w.toNat / 2 = 0
        · rw [h1, Nat.size_zero]
          omega
        · obtain ⟨k, hk⟩ : ∃ k, (w.toNat / 2).size = k + 1 :=
            ⟨(w.toNat / 2).size - 1, by have := Nat.size_pos.2 (Nat.pos_of_ne_zero h1); omega⟩
          have hle := Nat.lt_size.1 (show k < (w.toNat / 2).size by omega)
          rw [hk, pow_succ]
          omega
      · rw [pow_succ]
        omega

/-- **The bit length, in 32 bits.** -/
theorem bitLengthBelow_eq (m : List (BitVec 64)) (i : ℕ) :
    bitLengthBelow m i = (val (m.take i)).size % 2 ^ 32 := by
  induction i with
  | zero => rfl
  | succ i ih =>
    have hlow := Limbs.val_lt (m.take i)
    have hlen : (m.take i).length ≤ i := List.length_take_le i m
    have hlt : val (m.take i) < 2 ^ (64 * i) :=
      hlow.trans_le (Nat.pow_le_pow_right two_pos (by omega))
    rw [bitLengthBelow, Limbs.val_take_succ, show (0 : BitVec 64) = 0#64 from rfl]
    generalize m.getD i 0#64 = top
    split_ifs with htop
    · have hne : top.toNat ≠ 0 := fun h0 => htop (BitVec.eq_of_toNat_eq h0)
      obtain ⟨k, hk⟩ : ∃ k, top.toNat.size = k + 1 :=
        ⟨top.toNat.size - 1, by have := Nat.size_pos.2 (Nat.pos_of_ne_zero hne); omega⟩
      have hlo := Nat.lt_size.1 (show k < top.toNat.size by omega)
      have hhi := Nat.lt_size_self top.toNat
      rw [hk] at hhi
      have hsize : (val (m.take i) + 2 ^ (64 * i) * top.toNat).size = i * 64 + k + 1 := by
        apply size_eq_of_bounds
        · calc 2 ^ (i * 64 + k) = 2 ^ (64 * i) * 2 ^ k := by rw [← pow_add, mul_comm i]
            _ ≤ 2 ^ (64 * i) * top.toNat := Nat.mul_le_mul_left _ hlo
            _ ≤ _ := Nat.le_add_left _ _
        · calc val (m.take i) + 2 ^ (64 * i) * top.toNat
              < 2 ^ (64 * i) * (top.toNat + 1) := by rw [Nat.mul_succ]; omega
            _ ≤ 2 ^ (64 * i) * 2 ^ (k + 1) := Nat.mul_le_mul_left _ hhi
            _ = 2 ^ (i * 64 + k + 1) := by rw [← pow_add, mul_comm i, add_assoc]
      rw [topBits_eq 64 top.isLt, hk, hsize, add_assoc]
    · rw [not_not] at htop
      rw [htop, BitVec.toNat_ofNat, Nat.zero_mod, Nat.mul_zero, Nat.add_zero]
      exact ih

theorem bitLengthOf_eq (m : List (BitVec 64)) : bitLengthOf m = (val m).size % 2 ^ 32 := by
  rw [bitLengthOf, bitLengthBelow_eq, List.take_length]

def neededBits (isSigned : Bool) (x : ℕ) : ℕ := x.size + if isSigned then 1 else 0

theorem wrapInt_natCast {W : ℕ} {S : Bool} (hW : 1 ≤ W) {x : ℕ} (hx : Represents W S x) :
    Bits.wrapInt W S x = x := by
  have hmod := (Bits.wrapInt_modEq W S (x : ℤ)).symm.dvd
  have hrange := Bits.wrapInt_range (S := S) hW (x : ℤ)
  have htwo : (2 : ℤ) ^ W = 2 * 2 ^ (W - 1) := by
    rw [← pow_succ', Nat.sub_add_cancel hW]
  refine sub_eq_zero.1 (Int.eq_zero_of_abs_lt_dvd hmod ?_)
  rw [abs_lt]
  unfold Represents at hx
  cases S with
  | false =>
    simp only [Bool.false_eq_true, if_false] at hx hrange
    have hx' : (x : ℤ) < 2 ^ W := by exact_mod_cast hx
    constructor <;> omega
  | true =>
    simp only [if_true] at hx hrange
    have hx' : (x : ℤ) < 2 ^ (W - 1) := by exact_mod_cast hx
    constructor <;> omega

/-- **The width is right** while it can be rounded up to limbs in 32 bits. -/
theorem fromLiteralMagnitude_exact {m : List (BitVec 64)} {S : Bool}
    (h : neededBits S (val m) + 63 < 2 ^ 32) :
    (fromLiteralMagnitude m S).toInt = val m ∧
      ∀ W, 1 ≤ W → W < (fromLiteralMagnitude m S).width → ¬ Represents W S (val m) := by
  have hself := Nat.lt_size_self (val m)
  have hwidth : declared (literalWidth m S) = max 1 (neededBits S (val m)) := by
    unfold literalWidth neededBits declared at *
    rw [bitLengthOf_eq]
    cases S with
    | false =>
      simp only [Bool.false_eq_true, if_false, Nat.add_zero] at h ⊢
      split_ifs <;> omega
    | true =>
      simp only [if_true] at h ⊢
      split_ifs <;> omega
  have hW : literalWidth m S + 63 < 2 ^ 32 := by
    unfold declared at hwidth
    split at hwidth <;> omega
  have hdecl : (fromLiteralMagnitude m S).width = max 1 (neededBits S (val m)) := by
    rw [fromLiteralMagnitude, BitIntValue.ofLimbs, BitIntValue.wrapTo, hwidth]
    exact BitIntValue.declared_eq (le_max_left _ _)
  constructor
  · rw [fromLiteralMagnitude, BitIntValue.toInt_ofLimbs m S hW, hwidth]
    apply wrapInt_natCast (le_max_left _ _)
    unfold Represents neededBits
    cases S with
    | false =>
      simp only [Bool.false_eq_true, if_false, Nat.add_zero]
      exact hself.trans_le (Nat.pow_le_pow_right two_pos (le_max_right _ _))
    | true =>
      simp only [if_true]
      exact hself.trans_le (Nat.pow_le_pow_right two_pos (by omega))
  · intro W h1 hlt hrep
    rw [hdecl] at hlt
    have hsize : W < neededBits S (val m) := by omega
    unfold Represents neededBits at *
    cases S with
    | false =>
      simp only [Bool.false_eq_true, if_false, Nat.add_zero] at hrep hsize
      exact absurd (Nat.lt_size.1 hsize) (not_le.2 hrep)
    | true =>
      simp only [if_true] at hrep hsize
      exact absurd (Nat.lt_size.1 (show W - 1 < (val m).size by omega)) (not_le.2 hrep)

theorem fromLiteralMagnitude_lt {m : List (BitVec 64)} {S : Bool}
    (h : 2 ^ 32 ≤ neededBits S (val m) + 63) : (fromLiteralMagnitude m S).toInt < val m := by
  obtain ⟨B, hB⟩ : ∃ B, (val m).size = B + 1 :=
    ⟨(val m).size - 1, by unfold neededBits at h; split at h <;> omega⟩
  have hV : 2 ^ B ≤ val m := Nat.lt_size.1 (by omega)
  have hV' : (2 : ℤ) ^ B ≤ val m := by exact_mod_cast hV
  have hpos := BitIntValue.declared_pos (literalWidth m S)
  have hrange := Bits.wrapInt_range (S := S) hpos
    (val (fromLiteralMagnitude m S).limbs)
  have hint : (fromLiteralMagnitude m S).toInt =
      Bits.wrapInt (declared (literalWidth m S)) S (val (fromLiteralMagnitude m S).limbs) := by
    rw [BitIntValue.toInt]
    unfold fromLiteralMagnitude BitIntValue.ofLimbs BitIntValue.wrapTo
    simp only [BitIntValue.declared_eq hpos]
  rw [hint]
  by_cases hwrap : neededBits S (val m) < 2 ^ 32
  · -- the width is right, but the limbs are one
    have hwidth : declared (literalWidth m S) = neededBits S (val m) := by
      unfold literalWidth neededBits declared at *
      rw [bitLengthOf_eq, hB]
      cases S with
      | false =>
        simp only [Bool.false_eq_true, if_false, Nat.add_zero] at h hwrap ⊢
        rw [hB] at h hwrap
        split_ifs <;> omega
      | true =>
        simp only [if_true] at h hwrap ⊢
        rw [hB] at h hwrap
        split_ifs <;> omega
    have hlimbs : limbsFor (declared (literalWidth m S)) = 1 := by
      rw [hwidth, limbsFor]
      have h0 : (neededBits S (val m) + 63) % 2 ^ 32 / 64 = 0 := by omega
      simp only [h0, if_true]
    have hlen : (fromLiteralMagnitude m S).limbs.length = 1 := by
      unfold fromLiteralMagnitude BitIntValue.ofLimbs BitIntValue.wrapTo
      simp only
      rw [BitIntValue.maskTopLimb_length, BitIntValue.resize_length, hlimbs]
    have hsmall := Limbs.val_lt (fromLiteralMagnitude m S).limbs
    rw [hlen] at hsmall
    have hbits : 64 < neededBits S (val m) ∧ 64 ≤ B := by
      unfold neededBits at h ⊢
      split at h <;> split <;> omega
    rw [wrapInt_natCast hpos]
    · have h64 : (2 : ℕ) ^ (64 * 1) ≤ 2 ^ B := Nat.pow_le_pow_right two_pos (by omega)
      exact_mod_cast hsmall.trans_le (h64.trans hV)
    · rw [hwidth]
      unfold Represents
      split
      · exact hsmall.trans_le (Nat.pow_le_pow_right two_pos (by omega))
      · exact hsmall.trans_le (Nat.pow_le_pow_right two_pos (by omega))
  · -- the width itself has wrapped
    have hwidth : declared (literalWidth m S) < 2 ^ 32 := by
      have hbits := bitLengthOf_eq m
      unfold literalWidth declared
      simp only
      split_ifs <;> omega
    unfold neededBits at hwrap
    cases S with
    | false =>
      simp only [Bool.false_eq_true, if_false, Nat.add_zero] at hrange hwrap
      exact hrange.2.trans_le ((pow_le_pow_right₀ one_le_two (by omega)).trans hV')
    | true =>
      simp only [if_true] at hrange hwrap
      exact hrange.2.trans_le ((pow_le_pow_right₀ one_le_two (by omega)).trans hV')

theorem decodeBigInteger_spec (text : List Char) (ns : Option IntegerStyle) :
    (decodeBigInteger text ns = none ↔ validDigits (normalizeIntegerLiteral text ns) = []) ∧
      ∀ m, decodeBigInteger text ns = some m → val m = literalValue text ns := by
  obtain ⟨-, hb⟩ := normalize_base text ns
  obtain ⟨hval, hany⟩ :=
    decodeBigDigits_val hb (normalizeIntegerLiteral text ns).digits [0#64] false
  have hzero : val [0#64] = 0 := rfl
  rw [Bool.false_or] at hany
  rw [hzero] at hval
  unfold decodeBigInteger
  simp only
  rw [hany]
  constructor
  · rw [validDigits]
    cases (normalizeIntegerLiteral text ns).digits.takeWhile
        (validDigit (normalizeIntegerLiteral text ns).base) with
    | nil => simp
    | cons c cs => simp
  · intro m hm
    split at hm
    · rw [← Option.some.inj hm, hval]
      rfl
    · cases hm

/-- **The decoders agree at every text**, and the width is the smallest that keeps the value
exactly when it can be rounded up to whole limbs in 32 bits. -/
theorem integerLiteral_exact_iff (text : List Char) (ns : Option IntegerStyle) (isSigned : Bool) :
    DecodedExactly text ns isSigned ↔
      neededBits isSigned (literalValue text ns) + 63 < 2 ^ 32 := by
  obtain ⟨hdigits, hval⟩ := decodeBigInteger_spec text ns
  obtain ⟨hb, hb'⟩ := normalize_base text ns
  have hdec : decodeInteger text ns = if literalValue text ns < 2 ^ 64 then
      some (BitVec.ofNat 64 (literalValue text ns)) else none :=
    decodeDigits_eq (by omega) hb' _ 0#64
  constructor
  · intro h
    by_contra hlarge
    cases hm : decodeBigInteger text ns with
    | none =>
      have h0 : literalValue text ns = 0 := by
        rw [literalValue, hdigits.1 hm]
        rfl
      rw [h0] at hlarge
      unfold neededBits at hlarge
      rw [Nat.size_zero] at hlarge
      split at hlarge <;> omega
    | some m =>
      rw [← hval m hm] at hlarge
      have hlt := fromLiteralMagnitude_lt (not_lt.1 hlarge)
      rw [h.kept m hm, hval m hm] at hlt
      exact lt_irrefl _ hlt
  · intro h
    have hwidth : ∀ m, decodeBigInteger text ns = some m →
        (fromLiteralMagnitude m isSigned).toInt = literalValue text ns ∧
          ∀ W, 1 ≤ W → W < (fromLiteralMagnitude m isSigned).width →
            ¬ Represents W isSigned (literalValue text ns) := by
      intro m hm
      rw [← hval m hm] at h ⊢
      exact fromLiteralMagnitude_exact h
    refine ⟨hdigits, hval, fun v => ?_, ?_, fun m hm => (hwidth m hm).1,
      fun m hm => (hwidth m hm).2⟩
    · rw [hdec]
      split_ifs with hfits
      · rw [Option.some.injEq, ← BitVec.toNat_inj, BitVec.toNat_ofNat, Nat.mod_eq_of_lt hfits]
      · refine iff_of_false (by simp) fun heq => hfits ?_
        rw [heq]
        exact v.isLt
    · rw [hdec]
      split_ifs with hfits
      · exact iff_of_false (by simp) (not_le.2 hfits)
      · exact iff_of_true rfl (not_lt.1 hfits)

theorem literalValue_power (n : ℕ) : literalValue ('1' :: List.replicate n '0') none = 10 ^ n := by
  have hvalid : ∀ n : ℕ,
      (List.replicate n '0').takeWhile (validDigit 10) = List.replicate n '0' := by
    intro n
    rw [List.takeWhile_eq_self_iff]
    intro c hc
    rw [List.eq_of_mem_replicate hc]
    decide
  have hzeros : ∀ n acc : ℕ, valueFrom 10 acc (List.replicate n '0') = acc * 10 ^ n := by
    intro n
    induction n with
    | zero =>
      intro acc
      exact (Nat.mul_one acc).symm
    | succ n ih =>
      intro acc
      rw [List.replicate_succ, valueFrom, List.foldl_cons, ← valueFrom, ih]
      have h0 : ((digitValue '0').getD 0#64).toNat = 0 := by decide
      rw [h0, pow_succ]
      ring
  have hbody : normalizeIntegerLiteral ('1' :: List.replicate n '0') none =
      ⟨'1' :: List.replicate n '0', 10, false⟩ := by
    unfold normalizeIntegerLiteral
    simp
  rw [literalValue, hbody]
  simp only [validDigits]
  rw [List.takeWhile_cons_of_pos (by decide), hvalid, valueFrom, List.foldl_cons, ← valueFrom,
    hzeros]
  have h1 : 0 * 10 + ((digitValue '1').getD 0#64).toNat = 1 := by decide
  rw [h1, Nat.one_mul]

theorem two_mul_lt_size (n : ℕ) : 2 * n < (10 ^ n).size := by
  rw [Nat.lt_size, pow_mul]
  exact Nat.pow_le_pow_left (by decide) n

theorem not_decodedExactly_power {n : ℕ} (hn : 2 ^ 31 ≤ n) :
    ¬ DecodedExactly ('1' :: List.replicate n '0') none false := by
  intro hex
  have hval := literalValue_power n
  generalize '1' :: List.replicate n '0' = text at hex hval
  have hbig := two_mul_lt_size n
  rw [← hval] at hbig
  cases hm : decodeBigInteger text none with
  | none =>
    rw [literalValue, (decodeBigInteger_spec text none).1.1 hm, valueFrom, List.foldl_nil,
      Nat.size_zero] at hbig
    omega
  | some m =>
    have hv := (decodeBigInteger_spec text none).2 m hm
    have hlt := fromLiteralMagnitude_lt (m := m) (S := false) (by
      rw [hv, neededBits]
      omega)
    rw [hex.kept m hm, hv] at hlt
    exact lt_irrefl _ hlt

theorem integerLiteral_too_wide :
    ¬ ∀ (text : List Char) (ns : Option IntegerStyle) (isSigned : Bool),
      DecodedExactly text ns isSigned := fun h =>
  not_decodedExactly_power (n := 2 ^ 31) le_rfl (h _ none false)

end DssPrime.NumberDecode
