import Mathlib
import DssPrime.Types.BitIntDivision
import DssPrime.Types.WideFloatRound

/-!
# The decoder's big integers

A float literal is decoded through an unsigned integer of as many 64-bit words as it needs.
-/

namespace DssPrime.NumberDecode

open Limbs (val)

/-- Little-endian 64-bit words, an unbounded unsigned integer. -/
abbrev FloatMag := List (BitVec 64)

def magBitLengthBelow (m : FloatMag) : ℕ → ℕ
  | 0 => 0
  | i + 1 =>
    if m.getD i 0#64 ≠ 0#64 then i * 64 + 64 - WideFloatValue.countlZero (m.getD i 0#64)
    else magBitLengthBelow m i

def magBitLength (m : FloatMag) : ℕ := magBitLengthBelow m m.length

def magIsZero (m : FloatMag) : Bool := WideFloatValue.isZeroReg m

def magGetBit (m : FloatMag) (bit : ℤ) : Bool :=
  if bit < 0 then false
  else if m.length ≤ bit.toNat / 64 then false
  else ((m.getD (bit.toNat / 64) 0#64 >>> (bit.toNat % 64)) &&& 1#64) != 0#64

def magAnyBitBelow (m : FloatMag) (pos : ℤ) : Bool :=
  if pos ≤ 0 then false
  else
    let fullWords := pos.toNat / 64
    let rem := pos.toNat % 64
    (m.take fullWords).any (· != 0#64) ||
      (decide (rem ≠ 0 ∧ fullWords < m.length) &&
        (m.getD fullWords 0#64 &&& ((1#64 <<< rem) - 1#64)) != 0#64)

def mulAddWord (w mul carry : BitVec 64) : BitVec 64 × BitVec 64 :=
  let p := Limbs.mul64 w mul
  let s := p.1 + carry
  (s, p.2 + if s < p.1 then 1#64 else 0#64)

def magMulAddSmall : FloatMag → BitVec 64 → BitVec 64 → FloatMag
  | [], _, carry => if carry ≠ 0#64 then [carry] else []
  | w :: m, mul, carry =>
    (mulAddWord w mul carry).1 :: magMulAddSmall m mul (mulAddWord w mul carry).2

def magShiftLeft (m : FloatMag) (k : ℤ) : FloatMag :=
  if k ≤ 0 then m
  else (List.range (m.length + k.toNat / 64 + 1)).map
    (Limbs.shlLimb (fun i => if i < m.length then m.getD i 0#64 else 0#64) k.toNat)

def magCompare (a b : FloatMag) : Ordering := Limbs.cmpBelow a b (max a.length b.length)

def magSubFrom (a b : FloatMag) : FloatMag := (Limbs.subBorrow a b 0#64).1

/-- One bit of the long division, from the quotient and remainder so far. -/
def magDivStep (N D : FloatMag) (QR : FloatMag × FloatMag) (i : ℕ) : FloatMag × FloatMag :=
  let R := Limbs.shl1 QR.2 (if magGetBit N i then 1#64 else 0#64)
  if magCompare R D ≠ .lt then
    (QR.1.modify (i / 64) (· ||| (1#64 <<< (i % 64))), magSubFrom R D)
  else (QR.1, R)

/-- Quotient and remainder, one bit of the dividend at a time. -/
def magDivMod (N D : FloatMag) : FloatMag × FloatMag :=
  (List.range (magBitLength N)).reverse.foldl (magDivStep N D)
    (List.replicate (N.length + 1) 0#64, List.replicate (D.length + 1) 0#64)

/-- The 256 bits from `lowBit` on; a bit outside the number reads as zero. -/
def magExtract256 (m : FloatMag) (lowBit : ℤ) : List (BitVec 64) :=
  (List.range 256).foldl
    (fun W (b : ℕ) => if magGetBit m (lowBit + b) then WideFloatValue.setBit W b else W)
    [0#64, 0#64, 0#64, 0#64]

def kPow10 : List (BitVec 64) :=
  [1#64, 10#64, 100#64, 1000#64, 10000#64, 100000#64, 1000000#64, 10000000#64, 100000000#64,
    1000000000#64, 10000000000#64, 100000000000#64, 1000000000000#64, 10000000000000#64,
    100000000000000#64, 1000000000000000#64, 10000000000000000#64, 100000000000000000#64,
    1000000000000000000#64, 10000000000000000000#64]

def kPow16 : List (BitVec 64) :=
  [1#64, 0x10#64, 0x100#64, 0x1000#64, 0x10000#64, 0x100000#64, 0x1000000#64, 0x10000000#64,
    0x100000000#64, 0x1000000000#64, 0x10000000000#64, 0x100000000000#64, 0x1000000000000#64,
    0x10000000000000#64, 0x100000000000000#64, 0x1000000000000000#64]

def magMulPow10 (m : FloatMag) (k : ℕ) : FloatMag :=
  if 19 ≤ k then magMulPow10 (magMulAddSmall m (kPow10.getD 19 0#64) 0#64) (k - 19)
  else if 0 < k then magMulAddSmall m (kPow10.getD k 0#64) 0#64
  else m
termination_by k

def digitValue (c : Char) : Option (BitVec 64) :=
  if '0' ≤ c ∧ c ≤ '9' then some (BitVec.ofNat 64 (c.toNat - '0'.toNat))
  else if 'a' ≤ c ∧ c ≤ 'z' then some (BitVec.ofNat 64 (10 + (c.toNat - 'a'.toNat)))
  else if 'A' ≤ c ∧ c ≤ 'Z' then some (BitVec.ofNat 64 (10 + (c.toNat - 'A'.toNat)))
  else none

def chunkValue (base : BitVec 64) (ds : List Char) : BitVec 64 :=
  ds.foldl (fun acc c => acc * base + (digitValue c).getD 0#64) 0#64

def digitsToMagFrom (base : BitVec 64) (m : FloatMag) (digits : List Char) : FloatMag :=
  let take := min (if base = 16#64 then 15 else 19) digits.length
  if digits = [] then m
  else digitsToMagFrom base
    (magMulAddSmall m (if base = 16#64 then kPow16.getD take 0#64 else kPow10.getD take 0#64)
      (chunkValue base (digits.take take)))
    (digits.drop take)
termination_by digits.length
decreasing_by
  have hpos : 0 < digits.length := List.length_pos_of_ne_nil ‹_›
  rw [List.length_drop]
  split_ifs <;> omega

def digitsToMag (digits : List Char) (base : BitVec 64) : FloatMag :=
  digitsToMagFrom base [0#64] digits

variable {m a b N D Q R : FloatMag}

theorem magBitLengthBelow_eq (m : FloatMag) (i : ℕ) :
    magBitLengthBelow m i = (val (m.take i)).size := by
  induction i with
  | zero => simp [magBitLengthBelow]
  | succ i ih =>
    have hlow : val (m.take i) < 2 ^ (64 * i) := by
      rw [Limbs.val_take]
      exact Nat.mod_lt _ (Nat.two_pow_pos _)
    have hsplit := Limbs.val_take_succ m i
    rw [show (0 : BitVec 64) = 0#64 from rfl] at hsplit
    rw [magBitLengthBelow, hsplit]
    by_cases h0 : m.getD i 0#64 = 0#64
    · rw [if_neg (not_not.2 h0), ih, h0]
      simp
    · rw [if_pos h0]
      have hne : (m.getD i 0#64).toNat ≠ 0 := fun hz => h0 (BitVec.eq_of_toNat_eq hz)
      have hlt := (m.getD i 0#64).isLt
      rw [WideFloatValue.countlZero]
      generalize (m.getD i 0#64).toNat = l at hne hlt ⊢
      have hsz64 : l.size ≤ 64 := Nat.size_le.mpr hlt
      have hsz := Nat.lt_size_self l
      have hpos : 0 < l.size := Nat.size_pos.mpr (Nat.pos_of_ne_zero hne)
      have hge : 2 ^ (l.size - 1) ≤ l := Nat.lt_size.mp (by omega)
      apply le_antisymm
      · -- the top word's leading bit is a bit of the number
        have hle : 2 ^ (64 * i) * 2 ^ (l.size - 1) ≤ 2 ^ (64 * i) * l := Nat.mul_le_mul_left _ hge
        rw [← pow_add] at hle
        have := Nat.lt_size.mpr (hle.trans (Nat.le_add_left _ (val (m.take i))))
        omega
      · rw [Nat.size_le]
        have hle : 2 ^ (64 * i) * (l + 1) ≤ 2 ^ (64 * i) * 2 ^ l.size := Nat.mul_le_mul_left _ hsz
        rw [← pow_add, Nat.mul_add, Nat.mul_one] at hle
        rw [show i * 64 + 64 - (64 - l.size) = 64 * i + l.size by omega]
        omega

theorem magBitLength_eq (m : FloatMag) : magBitLength m = (val m).size := by
  rw [magBitLength, magBitLengthBelow_eq, List.take_of_length_le le_rfl]

theorem magIsZero_eq (m : FloatMag) : magIsZero m = decide (val m = 0) :=
  WideFloatValue.isZeroReg_eq m

theorem magGetBit_natCast (m : FloatMag) (i : ℕ) : magGetBit m i = (val m).testBit i := by
  rw [magGetBit, if_neg (by omega), Int.toNat_natCast, Limbs.testBit_val]
  by_cases hi : m.length ≤ i / 64
  · rw [if_pos hi, List.getD_eq_default _ _ hi]
    simp
  · rw [if_neg hi, Limbs.getLsbD_eq_shiftRight_and]
    rfl

theorem magGetBit_of_neg {i : ℤ} (h : i < 0) : magGetBit m i = false := by
  rw [magGetBit, if_pos h]

theorem val_eq_zero_iff (m : FloatMag) : m.any (· != 0#64) = decide (val m ≠ 0) := by
  have h := WideFloatValue.isZeroReg_eq m
  rw [WideFloatValue.isZeroReg, List.all_eq_not_any_not] at h
  rw [decide_not, ← h, Bool.not_not]
  rfl

/-- **The sticky bits**: a bit is set below the position exactly when the number is no multiple. -/
theorem magAnyBitBelow_eq (m : FloatMag) (pos : ℕ) :
    magAnyBitBelow m pos = decide (val m % 2 ^ pos ≠ 0) := by
  rcases Nat.eq_zero_or_pos pos with rfl | hpos
  · simp [magAnyBitBelow, Nat.mod_one]
  have hd : 64 * (pos / 64) + pos % 64 = pos := Nat.div_add_mod pos 64
  have hlow : val (m.take (pos / 64)) < 2 ^ (64 * (pos / 64)) := by
    rw [Limbs.val_take]
    exact Nat.mod_lt _ (Nat.two_pow_pos _)
  -- the whole words, and what the mask keeps of the next one
  have hsplit : val m % 2 ^ pos = val (m.take (pos / 64)) +
      2 ^ (64 * (pos / 64)) * ((m.getD (pos / 64) 0#64).toNat % 2 ^ (pos % 64)) := by
    have h1 : val m % 2 ^ pos = val (m.take (pos / 64 + 1)) % 2 ^ pos := by
      rw [Limbs.val_take, Nat.mod_mod_of_dvd]
      exact pow_dvd_pow 2 (by omega)
    have hpow : 2 ^ pos = 2 ^ (64 * (pos / 64)) * 2 ^ (pos % 64) := by rw [← pow_add, hd]
    rw [h1, Limbs.val_take_succ, hpow, Nat.mod_mul, Nat.add_mul_mod_self_left,
      Nat.mod_eq_of_lt hlow, Nat.add_mul_div_left _ _ (Nat.two_pow_pos _), Nat.div_eq_of_lt hlow,
      Nat.zero_add]
    rfl
  have hmask : (m.getD (pos / 64) 0#64 &&& ((1#64 <<< (pos % 64)) - 1#64)).toNat =
      (m.getD (pos / 64) 0#64).toNat % 2 ^ (pos % 64) := by
    have hr : pos % 64 < 64 := Nat.mod_lt _ (by decide)
    have hone : (1#64 <<< (pos % 64)).toNat = 2 ^ (pos % 64) := by
      rw [BitVec.toNat_shiftLeft, Nat.shiftLeft_eq, show (1#64).toNat = 1 from rfl, Nat.one_mul]
      exact Nat.mod_eq_of_lt (Nat.pow_lt_pow_right (by decide) hr)
    have hsub : ((1#64 <<< (pos % 64)) - 1#64).toNat = 2 ^ (pos % 64) - 1 := by
      rw [BitVec.toNat_sub_of_le, hone]
      · rfl
      · rw [BitVec.le_def, hone]
        exact Nat.one_le_two_pow
    rw [BitVec.toNat_and, hsub, Nat.and_two_pow_sub_one_eq_mod]
  have hword : ((m.getD (pos / 64) 0#64 &&& ((1#64 <<< (pos % 64)) - 1#64)) != 0#64) =
      decide ((m.getD (pos / 64) 0#64).toNat % 2 ^ (pos % 64) ≠ 0) := by
    rw [← hmask, Bool.eq_iff_iff, bne_iff_ne, decide_eq_true_iff, ne_eq, ne_eq,
      ← BitVec.toNat_inj]
    rfl
  rw [magAnyBitBelow, if_neg (by omega), Int.toNat_natCast]
  simp only
  rw [hword, val_eq_zero_iff, hsplit, Bool.eq_iff_iff, Bool.or_eq_true, Bool.and_eq_true]
  simp only [decide_eq_true_eq]
  have hpow := Nat.two_pow_pos (64 * (pos / 64))
  constructor
  · intro h
    rcases h with h | ⟨-, h⟩
    · omega
    · have := Nat.mul_pos hpow (Nat.pos_of_ne_zero h)
      omega
  · intro h
    by_cases hw : (m.getD (pos / 64) 0#64).toNat % 2 ^ (pos % 64) = 0
    · rw [hw, Nat.mul_zero, Nat.add_zero] at h
      exact .inl h
    · refine .inr ⟨⟨?_, ?_⟩, hw⟩
      · intro hr
        rw [hr, pow_zero, Nat.mod_one] at hw
        exact hw rfl
      · by_contra hge
        rw [List.getD_eq_default _ _ (not_lt.1 hge)] at hw
        exact hw (by simp)

theorem magAnyBitBelow_of_nonpos {pos : ℤ} (h : pos ≤ 0) : magAnyBitBelow m pos = false := by
  rw [magAnyBitBelow, if_pos h]

theorem mulAddWord_val (w mul carry : BitVec 64) :
    (mulAddWord w mul carry).1.toNat + 2 ^ 64 * (mulAddWord w mul carry).2.toNat =
      w.toNat * mul.toNat + carry.toNat := by
  have hw := w.isLt
  have hmul := mul.isLt
  have hc := carry.isLt
  have hp := Limbs.mul64_val w mul
  have hlo := (Limbs.mul64 w mul).1.isLt
  have hprod : w.toNat * mul.toNat ≤ (2 ^ 64 - 1) * (2 ^ 64 - 1) :=
    Nat.mul_le_mul (by omega) (by omega)
  simp only [mulAddWord, BitVec.lt_def]
  generalize w.toNat * mul.toNat = p at *
  split <;> simp_all only [BitVec.toNat_add, BitVec.toNat_ofNat] <;> omega

/-- **Multiply and add**, exactly: the carry out of the top is kept. -/
theorem val_magMulAddSmall (m : FloatMag) (mul add : BitVec 64) :
    val (magMulAddSmall m mul add) = val m * mul.toNat + add.toNat := by
  induction m generalizing add with
  | nil =>
    rw [magMulAddSmall]
    split_ifs with h
    · simp
    · rw [not_not] at h
      simp [h]
  | cons w m ih =>
    have hw := mulAddWord_val w mul add
    rw [magMulAddSmall, Limbs.val_cons, Limbs.val_cons, ih]
    calc _ = (mulAddWord w mul add).1.toNat + 2 ^ 64 * (mulAddWord w mul add).2.toNat +
          2 ^ 64 * (val m * mul.toNat) := by ring
      _ = _ := by rw [hw]; ring

/-- **The left shift** multiplies by a power of two: the extra word takes what leaves the top. -/
theorem val_magShiftLeft (m : FloatMag) (k : ℕ) : val (magShiftLeft m k) = val m * 2 ^ k := by
  rcases Nat.eq_zero_or_pos k with rfl | hk
  · simp [magShiftLeft]
  rw [magShiftLeft, if_neg (by omega), Int.toNat_natCast]
  apply Nat.eq_of_testBit_eq
  intro i
  rw [mul_comm, Nat.testBit_two_pow_mul, Limbs.testBit_val]
  by_cases hi : i / 64 < m.length + k / 64 + 1
  · rw [show (0 : BitVec 64) = 0#64 from rfl, WideFloatValue.getD_map_range _ hi,
      Limbs.getLsbD_shlLimb _ _ _ (Nat.mod_lt _ (by decide)), Nat.div_add_mod]
    congr 1
    rw [Limbs.testBit_val]
    by_cases hin : (i - k) / 64 < m.length
    · rw [if_pos hin]
      rfl
    · rw [if_neg hin, List.getD_eq_default _ _ (not_lt.1 hin)]
      rfl
  · rw [List.getD_eq_default _ _ (by rw [List.length_map, List.length_range]; omega),
      Limbs.testBit_val_of_le (by omega)]
    simp

theorem magCompare_eq (a b : FloatMag) : magCompare a b = compare (val a) (val b) := by
  rw [magCompare, Limbs.cmpBelow_eq, List.take_of_length_le (le_max_left _ _),
    List.take_of_length_le (le_max_right _ _)]

theorem subBorrow_append_zeros (a b : FloatMag) (n : ℕ) (c : BitVec 64) :
    Limbs.subBorrow a (b ++ List.replicate n 0#64) c = Limbs.subBorrow a b c := by
  induction a generalizing b c n with
  | nil => simp [Limbs.subBorrow]
  | cons x a ih =>
    cases b with
    | nil =>
      cases n with
      | zero => rfl
      | succ n =>
        have h := ih [] n
        simp only [List.nil_append] at h
        simp [Limbs.subBorrow, List.replicate_succ, h]
    | cons y b => simp [Limbs.subBorrow, ih]

theorem val_magSubFrom (hlen : b.length ≤ a.length) (hle : val b ≤ val a) :
    val (magSubFrom a b) = val a - val b := by
  have hpad : a.length = (b ++ List.replicate (a.length - b.length) 0#64).length := by
    rw [List.length_append, List.length_replicate]
    omega
  have hval : val (b ++ List.replicate (a.length - b.length) 0#64) = val b := by
    rw [Limbs.val_append, Limbs.val_replicate_zero]
    rfl
  have h := BitIntValue.val_subBorrow hpad (by rw [hval]; exact hle)
  rwa [subBorrow_append_zeros, hval] at h

/-- What the long division has found after the bits of the dividend from `k` on. -/
structure DivMod (N D : FloatMag) (k : ℕ) (QR : FloatMag × FloatMag) : Prop where
  length_q : QR.1.length = N.length + 1
  length_r : QR.2.length = D.length + 1
  val_q : val QR.1 = val N / 2 ^ k / val D * 2 ^ k
  val_r : val QR.2 = val N / 2 ^ k % val D

theorem DivMod.step {k : ℕ} {QR : FloatMag × FloatMag} (hD : 0 < val D) (hk : k < 64 * N.length)
    (h : DivMod N D (k + 1) QR) : DivMod N D k (magDivStep N D QR k) := by
  have hbit := Limbs.div_two_pow_eq (val N) k
  have hb1 : ((val N).testBit k).toNat ≤ 1 := Bool.toNat_le _
  have hmodlt := Nat.mod_lt (val N / 2 ^ (k + 1)) hD
  -- the remainder doubled, with the next bit brought down: its extra word keeps the top
  have hcarry : (if magGetBit N k then 1#64 else 0#64).toNat = ((val N).testBit k).toNat := by
    rw [magGetBit_natCast]
    cases (val N).testBit k <;> rfl
  have hdown : val (Limbs.shl1 QR.2 (if magGetBit N k then 1#64 else 0#64)) =
      2 * (val N / 2 ^ (k + 1) % val D) + ((val N).testBit k).toNat := by
    have hmod := Limbs.val_shl1 QR.2 (c := if magGetBit N k then 1#64 else 0#64)
      (by rw [hcarry]; exact hb1)
    rw [hcarry, h.val_r] at hmod
    have hlt := Limbs.val_lt (Limbs.shl1 QR.2 (if magGetBit N k then 1#64 else 0#64))
    rw [Limbs.shl1_length] at hlt
    refine Nat.ModEq.eq_of_lt_of_lt hmod hlt ?_
    have hDlt := Limbs.val_lt D
    rw [h.length_r, Limbs.pow_succ_limb]
    omega
  have hlen : (Limbs.shl1 QR.2 (if magGetBit N k then 1#64 else 0#64)).length = D.length + 1 := by
    rw [Limbs.shl1_length, h.length_r]
  obtain ⟨hup, hlow⟩ := Limbs.divMod_bringDown hD hbit hb1
  have hq := h.val_q
  rw [← hdown] at hup hlow
  rw [magDivStep]
  generalize Limbs.shl1 QR.2 (if magGetBit N k then 1#64 else 0#64) = R at hlen hup hlow ⊢
  rw [magCompare_eq]
  by_cases hge : val D ≤ val R
  · have hcmp : compare (val R) (val D) ≠ .lt := by
      rw [ne_eq, Nat.compare_eq_lt]
      omega
    obtain ⟨hquot, hrem⟩ := hup hge
    rw [if_pos hcmp]
    refine ⟨?_, ?_, ?_, ?_⟩
    · rw [List.length_modify, h.length_q]
    · rw [magSubFrom, Limbs.subBorrow_length, hlen]
    · have hin : k / 64 < QR.1.length := by
        rw [h.length_q]
        omega
      have hset := BitIntValue.val_setBit (q := QR.1) (k := k) (by rw [h.length_q]; omega)
        (hq.trans (mul_comm _ _))
      rw [BitIntValue.setBit, if_pos hin] at hset
      simp only
      rw [hset, hq, hquot]
      ring
    · simp only
      rw [val_magSubFrom (by omega) hge, hrem]
  · have hcmp : ¬ compare (val R) (val D) ≠ .lt := by
      rw [not_not, Nat.compare_eq_lt]
      omega
    obtain ⟨hquot, hrem⟩ := hlow hge
    rw [if_neg hcmp]
    refine ⟨h.length_q, hlen, ?_, hrem.symm⟩
    simp only
    rw [hq, hquot]
    ring

theorem DivMod.finish (hD : 0 < val D) {k : ℕ} (hk : k ≤ 64 * N.length)
    {QR : FloatMag × FloatMag} (h : DivMod N D k QR) :
    DivMod N D 0 ((List.range k).reverse.foldl (magDivStep N D) QR) := by
  induction k generalizing QR with
  | zero => exact h
  | succ k ih =>
    rw [List.range_succ, List.reverse_append, List.reverse_singleton, List.singleton_append,
      List.foldl_cons]
    exact ih (by omega) (h.step hD (by omega))

/-- **The long division divides.** -/
theorem magDivMod_spec (N : FloatMag) (hD : 0 < val D) :
    val (magDivMod N D).1 = val N / val D ∧ val (magDivMod N D).2 = val N % val D := by
  have hzero : val N / 2 ^ magBitLength N = 0 := by
    rw [magBitLength_eq]
    exact Nat.div_eq_of_lt (Nat.lt_size_self _)
  have hbound : magBitLength N ≤ 64 * N.length := by
    rw [magBitLength_eq, Nat.size_le]
    exact Limbs.val_lt N
  have hstart : DivMod N D (magBitLength N)
      (List.replicate (N.length + 1) 0#64, List.replicate (D.length + 1) 0#64) := by
    refine ⟨List.length_replicate, List.length_replicate, ?_, ?_⟩
    · rw [hzero, Limbs.val_replicate_zero, Nat.zero_div, Nat.zero_mul]
    · rw [hzero, Limbs.val_replicate_zero, Nat.zero_mod]
  have hend := hstart.finish hD hbound
  rw [magDivMod]
  refine ⟨?_, ?_⟩
  · rw [hend.val_q, pow_zero, Nat.div_one, Nat.mul_one]
  · rw [hend.val_r, pow_zero, Nat.div_one]

theorem magExtract256_loop (m : FloatMag) (lowBit : ℤ) {n : ℕ} (hn : n ≤ 256) :
    WideFloatValue.Reg ((List.range n).foldl
      (fun W (b : ℕ) => if magGetBit m (lowBit + b) then WideFloatValue.setBit W b else W)
      [0#64, 0#64, 0#64, 0#64]) ∧
    ∀ i, (val ((List.range n).foldl
      (fun W (b : ℕ) => if magGetBit m (lowBit + b) then WideFloatValue.setBit W b else W)
      [0#64, 0#64, 0#64, 0#64])).testBit i = (decide (i < n) && magGetBit m (lowBit + i)) := by
  induction n with
  | zero => simp [WideFloatValue.Reg]
  | succ n ih =>
    obtain ⟨hreg, hbits⟩ := ih (by omega)
    rw [List.range_succ, List.foldl_append, List.foldl_cons, List.foldl_nil]
    generalize (List.range n).foldl
      (fun W (b : ℕ) => if magGetBit m (lowBit + b) then WideFloatValue.setBit W b else W)
      [0#64, 0#64, 0#64, 0#64] = W at hreg hbits ⊢
    cases hb : magGetBit m (lowBit + n) with
    | false =>
      refine ⟨by simpa using hreg, fun i => ?_⟩
      simp only [Bool.false_eq_true, if_false]
      rw [hbits]
      by_cases hi : i = n
      · subst hi
        simp [hb]
      · have : i < n ↔ i < n + 1 := by omega
        simp [this]
    | true =>
      refine ⟨by simpa using (WideFloatValue.setBit_length W n).trans hreg, fun i => ?_⟩
      simp only [if_true]
      rw [WideFloatValue.val_setBit hreg (by omega), Nat.testBit_or, Nat.testBit_two_pow, hbits]
      by_cases hi : n = i
      · subst hi
        simp [hb]
      · have : i < n ↔ i < n + 1 := by omega
        simp [this, hi]

theorem magExtract256_reg (m : FloatMag) (lowBit : ℤ) :
    WideFloatValue.Reg (magExtract256 m lowBit) :=
  (magExtract256_loop m lowBit le_rfl).1

theorem val_magExtract256_natCast (m : FloatMag) (l : ℕ) :
    val (magExtract256 m l) = val m / 2 ^ l % 2 ^ 256 := by
  apply Nat.eq_of_testBit_eq
  intro i
  rw [magExtract256, (magExtract256_loop m l le_rfl).2, Nat.testBit_mod_two_pow,
    Nat.testBit_div_two_pow, ← Nat.cast_add, magGetBit_natCast, Nat.add_comm]

theorem val_magExtract256_neg (m : FloatMag) (l : ℕ) :
    val (magExtract256 m (-(l : ℤ))) = val m * 2 ^ l % 2 ^ 256 := by
  apply Nat.eq_of_testBit_eq
  intro i
  rw [magExtract256, (magExtract256_loop m (-(l : ℤ)) le_rfl).2, Nat.testBit_mod_two_pow,
    mul_comm, Nat.testBit_two_pow_mul]
  by_cases hi : l ≤ i
  · rw [show -(l : ℤ) + i = ((i - l : ℕ) : ℤ) by omega, magGetBit_natCast]
    simp [hi]
  · rw [magGetBit_of_neg (by omega)]
    simp [hi]

/-- **The window**: a number, with a fraction `ρ` below it, scaled to its top 256 bits; the flags
say whether anything follows below them. -/
theorem magExtract256_spec (hpos : 0 < val m) {ρ : ℚ} (h0 : 0 ≤ ρ) (h1 : ρ < 1)
    (hρ : ρ ≠ 0 → 256 ≤ magBitLength m) :
    ∃ δ : ℚ, 0 ≤ δ ∧ δ < 1 ∧
      (magAnyBitBelow m ((magBitLength m : ℤ) - 256) || decide (ρ ≠ 0)) = decide (δ ≠ 0) ∧
      2 ^ 255 ≤ val (magExtract256 m ((magBitLength m : ℤ) - 256)) ∧
      (val m : ℚ) + ρ = (val (magExtract256 m ((magBitLength m : ℤ) - 256)) + δ) *
        2 ^ ((magBitLength m : ℤ) - 256) := by
  rw [magBitLength_eq] at hρ ⊢
  have hlt := Nat.lt_size_self (val m)
  have hsz : 0 < (val m).size := Nat.size_pos.mpr hpos
  have hge : 2 ^ ((val m).size - 1) ≤ val m := Nat.lt_size.mp (by omega)
  generalize (val m).size = h at hlt hsz hge hρ ⊢
  by_cases hle : 256 ≤ h
  · obtain ⟨l, rfl⟩ : ∃ l, h = 256 + l := ⟨h - 256, by omega⟩
    rw [show ((256 + l : ℕ) : ℤ) - 256 = (l : ℕ) by push_cast; ring, magAnyBitBelow_eq,
      val_magExtract256_natCast, zpow_natCast]
    have hdiv : val m / 2 ^ l < 2 ^ 256 :=
      Nat.div_lt_of_lt_mul (by rw [← pow_add, Nat.add_comm]; exact hlt)
    have hpow : (0 : ℚ) < 2 ^ l := by positivity
    have hmod : ((val m % 2 ^ l : ℕ) : ℚ) + 1 ≤ 2 ^ l := by
      exact_mod_cast Nat.mod_lt (val m) (Nat.two_pow_pos l)
    have hmod0 : (0 : ℚ) ≤ ((val m % 2 ^ l : ℕ) : ℚ) := Nat.cast_nonneg _
    rw [Nat.mod_eq_of_lt hdiv]
    refine ⟨(((val m % 2 ^ l : ℕ) : ℚ) + ρ) / 2 ^ l, by positivity, ?_, ?_, ?_, ?_⟩
    · rw [div_lt_one hpow]
      linarith
    · rw [Bool.eq_iff_iff, Bool.or_eq_true, decide_eq_true_iff, decide_eq_true_iff,
        decide_eq_true_iff, ne_eq (_ / _), div_eq_zero_iff, or_iff_left hpow.ne',
        add_eq_zero_iff_of_nonneg hmod0 h0, Nat.cast_eq_zero, not_and_or]
    · rw [Nat.le_div_iff_mul_le (Nat.two_pow_pos l), ← pow_add]
      rwa [show 256 + l - 1 = 255 + l by omega] at hge
    · rw [add_mul, div_mul_cancel₀ _ hpow.ne', ← add_assoc, add_left_inj]
      exact_mod_cast (Nat.div_add_mod' (val m) (2 ^ l)).symm
  · obtain ⟨l, hl⟩ : ∃ l, h + l = 256 := ⟨256 - h, by omega⟩
    have hcast : (h : ℤ) - 256 = -(l : ℤ) := by omega
    have hpow : (2 : ℕ) ^ h * 2 ^ l = 2 ^ 256 := by rw [← pow_add, hl]
    have hfit : val m * 2 ^ l < 2 ^ 256 := by
      rw [← hpow]
      exact Nat.mul_lt_mul_of_pos_right hlt (Nat.two_pow_pos l)
    have hz : ρ = 0 := by
      by_contra hne
      exact hle (hρ hne)
    rw [hcast, magAnyBitBelow_of_nonpos (by omega), val_magExtract256_neg, Nat.mod_eq_of_lt hfit]
    refine ⟨0, le_rfl, one_pos, by simp [hz], ?_, ?_⟩
    · calc 2 ^ 255 = 2 ^ (h - 1) * 2 ^ l := by rw [← pow_add]; congr 1; omega
        _ ≤ _ := Nat.mul_le_mul_right _ hge
    · rw [zpow_neg, zpow_natCast, hz]
      push_cast
      field_simp
      ring

theorem kPow10_eq : ∀ k < 20, (kPow10.getD k 0#64).toNat = 10 ^ k := by decide

theorem kPow16_eq : ∀ k < 16, (kPow16.getD k 0#64).toNat = 16 ^ k := by decide

/-- **The chunked power of ten.** -/
theorem val_magMulPow10 (m : FloatMag) (k : ℕ) : val (magMulPow10 m k) = val m * 10 ^ k := by
  fun_induction magMulPow10 m k with
  | case1 m k h ih =>
    rw [ih, val_magMulAddSmall, kPow10_eq 19 (by decide)]
    have hk : (10 : ℕ) ^ k = 10 ^ 19 * 10 ^ (k - 19) := by
      rw [← pow_add]
      congr 1
      omega
    rw [hk]
    simp [Nat.mul_assoc]
  | case2 m k h h0 =>
    rw [val_magMulAddSmall, kPow10_eq k (by omega)]
    rfl
  | case3 m k h h0 =>
    have : k = 0 := by omega
    simp [this]

end DssPrime.NumberDecode
