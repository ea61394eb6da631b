import Mathlib
import DssPrime.Types.WideFloatValue

/-!
# The working register of the wide floats

What each register operation does to the number in the register: shifts divide and
multiply by powers of two and report what they drop, clearing rounds down, the division
loop is a long division.  Registers have four limbs throughout (`Reg`).
-/

namespace DssPrime.WideFloatValue

abbrev Reg (W : List (BitVec 64)) : Prop := W.length = 4

variable {W : List (BitVec 64)}

theorem Reg.val_lt (hW : Reg W) : Limbs.val W < 2 ^ 256 := by
  have h := Limbs.val_lt W
  rw [hW] at h
  exact h

theorem getBit_eq (W : List (BitVec 64)) (i : ℕ) : getBit W i = (Limbs.val W).testBit i := by
  rw [getBit, Limbs.getLsbD_eq_shiftRight_and, Limbs.testBit_val]
  rfl

theorem getLsbD_one_shl {j k : ℕ} (hk : k < 64) : (1#64 <<< j).getLsbD k = decide (k = j) := by
  rw [BitVec.getLsbD_shiftLeft, BitVec.getLsbD_one]
  by_cases h : k = j
  · subst h
    simp [hk]
  · by_cases hlt : k < j
    · simp [hlt, h]
    · have hsub : ¬ k - j = 0 := by omega
      simp [h, hsub]

theorem testBit_modify (W : List (BitVec 64)) (f : BitVec 64 → BitVec 64) (d i : ℕ) :
    (Limbs.val (W.modify d f)).testBit i =
      if d = i / 64 ∧ d < W.length then (f (W.getD d 0#64)).getLsbD (i % 64)
      else (Limbs.val W).testBit i := by
  rw [Limbs.testBit_val, Limbs.testBit_val]
  simp only [List.getD_eq_getElem?_getD, List.getElem?_modify]
  by_cases hd : d = i / 64
  · subst hd
    by_cases hlen : i / 64 < W.length
    · simp [hlen]
    · simp [hlen]
  · simp [hd]

theorem val_setBit (hW : Reg W) {bit : ℕ} (hbit : bit < 256) :
    Limbs.val (setBit W bit) = Limbs.val W ||| 2 ^ bit := by
  apply Nat.eq_of_testBit_eq
  intro i
  rw [setBit, testBit_modify, Nat.testBit_or, Nat.testBit_two_pow]
  by_cases hd : bit / 64 = i / 64
  · rw [if_pos ⟨hd, by rw [hW]; omega⟩, BitVec.getLsbD_or,
      getLsbD_one_shl (Nat.mod_lt _ (by decide)), hd, Limbs.testBit_val]
    have hiff : i % 64 = bit % 64 ↔ bit = i := by omega
    simp only [hiff]
    rfl
  · have hne : ¬ bit = i := by
      rintro rfl
      exact hd rfl
    rw [if_neg (by tauto)]
    simp [hne]

theorem setBit_length (W : List (BitVec 64)) (bit : ℕ) : (setBit W bit).length = W.length :=
  List.length_modify _ _ _

theorem isZeroReg_eq (W : List (BitVec 64)) : isZeroReg W = decide (Limbs.val W = 0) := by
  unfold isZeroReg
  induction W with
  | nil => rfl
  | cons w ws ih =>
    rw [List.all_cons, ih]
    have hw : (w == 0#64) = decide (w.toNat = 0) := by
      rw [Bool.eq_iff_iff, beq_iff_eq, decide_eq_true_iff]
      exact BitVec.toNat_inj.symm
    rw [hw, Bool.eq_iff_iff, Bool.and_eq_true, decide_eq_true_iff, decide_eq_true_iff,
      decide_eq_true_iff, Limbs.val_cons]
    omega

theorem anyBitsBelow_eq (W : List (BitVec 64)) (pos : ℕ) :
    anyBitsBelow W pos = decide (Limbs.val W % 2 ^ pos ≠ 0) := by
  rw [Bool.eq_iff_iff, decide_eq_true_iff, anyBitsBelow, List.any_eq_true]
  constructor
  · rintro ⟨i, hi, hbit⟩ hz
    rw [getBit_eq] at hbit
    have hmod := Nat.testBit_mod_two_pow (Limbs.val W) pos i
    rw [hz, hbit, decide_eq_true (List.mem_range.mp hi), Nat.zero_testBit] at hmod
    exact absurd hmod (by decide)
  · intro hne
    obtain ⟨i, hi⟩ := Nat.exists_testBit_of_ne_zero hne
    rw [Nat.testBit_mod_two_pow, Bool.and_eq_true, decide_eq_true_iff] at hi
    exact ⟨i, List.mem_range.mpr hi.1, by rw [getBit_eq]; exact hi.2⟩

theorem clearBitsBelow_length (W : List (BitVec 64)) (pos : ℕ) :
    (clearBitsBelow W pos).length = W.length := by
  unfold clearBitsBelow
  induction pos with
  | zero => rfl
  | succ pos ih =>
    rw [List.range_succ, List.foldl_append, List.foldl_cons, List.foldl_nil, List.length_modify, ih]

theorem testBit_clearBitsBelow (W : List (BitVec 64)) (pos i : ℕ) :
    (Limbs.val (clearBitsBelow W pos)).testBit i =
      (decide (pos ≤ i) && (Limbs.val W).testBit i) := by
  induction pos with
  | zero => simp [clearBitsBelow]
  | succ pos ih =>
    have hstep : clearBitsBelow W (pos + 1) = (clearBitsBelow W pos).modify (pos / 64)
        (· &&& ~~~(1#64 <<< (pos % 64))) := by
      rw [clearBitsBelow, List.range_succ, List.foldl_append]
      rfl
    rw [hstep, testBit_modify]
    have hj : i % 64 < 64 := Nat.mod_lt _ (by decide)
    split
    · rename_i h
      have hlimb : ((clearBitsBelow W pos).getD (pos / 64) 0#64).getLsbD (i % 64) =
          (decide (pos ≤ i) && (Limbs.val W).testBit i) := by
        rw [← ih, Limbs.testBit_val, h.1]
        rfl
      rw [BitVec.getLsbD_and, BitVec.getLsbD_not, getLsbD_one_shl hj, hlimb]
      have hiff : (i % 64 = pos % 64) ↔ i = pos := by omega
      have hiff' : pos + 1 ≤ i ↔ pos ≤ i ∧ i ≠ pos := by omega
      simp only [hiff, hiff', decide_eq_true hj, Bool.true_and]
      by_cases hle : pos ≤ i <;> by_cases heq : i = pos <;> simp [hle, heq]
    · rename_i h
      rw [ih]
      by_cases hend : pos / 64 < W.length
      · have hne : i ≠ pos := by
          rintro rfl
          exact h ⟨rfl, by rw [clearBitsBelow_length]; exact hend⟩
        have hiff : pos ≤ i ↔ pos + 1 ≤ i := by omega
        simp only [hiff]
      · by_cases hle : pos ≤ i
        · rw [Limbs.testBit_val_of_le (by omega), Bool.and_false, Bool.and_false]
        · have hle' : ¬ pos + 1 ≤ i := by omega
          simp [hle, hle']

/-- **Clearing rounds down** to a multiple of a power of two. -/
theorem val_clearBitsBelow (W : List (BitVec 64)) (pos : ℕ) :
    Limbs.val (clearBitsBelow W pos) = 2 ^ pos * (Limbs.val W / 2 ^ pos) := by
  apply Nat.eq_of_testBit_eq
  intro i
  rw [testBit_clearBitsBelow, Nat.testBit_two_pow_mul, Nat.testBit_div_two_pow]
  by_cases h : pos ≤ i
  · rw [Nat.sub_add_cancel h]
  · simp [h]

theorem getD_map_range {n k : ℕ} (f : ℕ → BitVec 64) (hk : k < n) :
    ((List.range n).map f).getD k 0#64 = f k := by
  rw [List.getD_eq_getElem?_getD, List.getElem?_map, List.getElem?_range hk]
  rfl

theorem shr_length (hW : Reg W) (d : ℤ) : Reg (shr W d).1 := by
  unfold shr
  split
  · exact hW
  · split
    · rfl
    · rw [Reg, List.length_map, List.length_range]

/-- **A right shift divides**, and its flag says that the division is not exact. -/
theorem shr_val (hW : Reg W) {d : ℕ} :
    Limbs.val (shr W d).1 = Limbs.val W / 2 ^ d ∧
      (shr W d).2 = decide (Limbs.val W % 2 ^ d ≠ 0) := by
  have hlt := hW.val_lt
  unfold shr
  by_cases h0 : (d : ℤ) ≤ 0
  · have hd : d = 0 := by omega
    subst hd
    simp [Nat.mod_one]
  · rw [if_neg h0]
    by_cases hbig : (256 : ℤ) ≤ d
    · -- everything is shifted out
      rw [if_pos hbig]
      have hpow : 2 ^ 256 ≤ 2 ^ d := Nat.pow_le_pow_right (by decide) (by omega)
      refine ⟨?_, ?_⟩
      · rw [Nat.div_eq_of_lt (by omega)]
        rfl
      · rw [isZeroReg_eq, Nat.mod_eq_of_lt (by omega)]
        simp
    · rw [if_neg hbig]
      refine ⟨?_, ?_⟩
      · apply Nat.eq_of_testBit_eq
        intro i
        rw [Nat.testBit_div_two_pow]
        by_cases hi : i < 256
        · have hj : i % 64 < 64 := Nat.mod_lt _ (by decide)
          have hsplit : 64 * (i / 64) + i % 64 = i := Nat.div_add_mod i 64
          rw [Limbs.testBit_val]
          rw [show (0 : BitVec 64) = 0#64 from rfl, getD_map_range _ (by omega),
            Limbs.getLsbD_shrLimb _ _ _ hj, hsplit, Int.toNat_natCast]
          by_cases hend : (i + d) / 64 < 4
          · rw [if_pos hend, Limbs.testBit_val]
            rfl
          · rw [if_neg hend, Limbs.testBit_val_of_le (by rw [hW]; omega)]
            exact BitVec.getLsbD_zero
        · rw [Limbs.testBit_val_of_le (by rw [List.length_map, List.length_range]; omega),
            Limbs.testBit_val_of_le (by rw [hW]; omega)]
      · rw [anyBitsBelow_eq, Int.toNat_natCast]

theorem shl_length (hW : Reg W) (k : ℤ) : Reg (shl W k) := by
  unfold shl
  split
  · exact hW
  · split
    · rfl
    · rw [Reg, List.length_map, List.length_range]

/-- **A left shift multiplies**, up to what leaves the register. -/
theorem shl_val (hW : Reg W) (k : ℕ) :
    Limbs.val (shl W k) = 2 ^ k * Limbs.val W % 2 ^ 256 := by
  have hlt := hW.val_lt
  unfold shl
  by_cases h0 : (k : ℤ) ≤ 0
  · have hk : k = 0 := by omega
    subst hk
    rw [if_pos h0, pow_zero, Nat.one_mul, Nat.mod_eq_of_lt hlt]
  · rw [if_neg h0]
    by_cases hbig : (256 : ℤ) ≤ k
    · rw [if_pos hbig]
      have hdvd : 2 ^ 256 ∣ 2 ^ k * Limbs.val W :=
        Dvd.dvd.mul_right (Nat.pow_dvd_pow 2 (by omega)) _
      rw [Nat.mod_eq_zero_of_dvd hdvd]
      rfl
    · rw [if_neg hbig]
      apply Nat.eq_of_testBit_eq
      intro i
      rw [Nat.testBit_mod_two_pow, Nat.testBit_two_pow_mul]
      by_cases hi : i < 256
      · have hj : i % 64 < 64 := Nat.mod_lt _ (by decide)
        have hsplit : 64 * (i / 64) + i % 64 = i := Nat.div_add_mod i 64
        rw [Limbs.testBit_val]
        rw [show (0 : BitVec 64) = 0#64 from rfl, getD_map_range _ (by omega),
          Limbs.getLsbD_shlLimb _ _ _ hj, hsplit, Int.toNat_natCast, decide_eq_true hi,
          Bool.true_and, Limbs.testBit_val]
        rfl
      · rw [Limbs.testBit_val_of_le (by rw [List.length_map, List.length_range]; omega)]
        simp [hi]

theorem addAtFrom_val (ws : List (BitVec 64)) (c : BitVec 64) (h : ws ≠ [] ∨ c.toNat ≤ 1) :
    Limbs.val (addAtFrom ws c).1 + 2 ^ (64 * ws.length) * (addAtFrom ws c).2.toNat =
        Limbs.val ws + c.toNat ∧
      (addAtFrom ws c).1.length = ws.length := by
  induction ws generalizing c with
  | nil =>
    have hc : c.toNat ≤ 1 := by simpa using h
    have hbit : (c != 0#64).toNat = c.toNat := by
      rcases Nat.le_one_iff_eq_zero_or_eq_one.mp hc with h0 | h1
      · rw [BitVec.eq_of_toNat_eq (y := 0#64) h0]
        rfl
      · rw [BitVec.eq_of_toNat_eq (y := 1#64) h1]
        rfl
    simp [addAtFrom, hbit]
  | cons w ws ih =>
    unfold addAtFrom
    by_cases hc : c = 0#64
    · subst hc
      simp
    · rw [if_neg hc]
      have hlimb := Limbs.add_wrap_val w c
      obtain ⟨hval, hlen⟩ := ih (if w + c < w then 1#64 else 0#64) (.inr hlimb.2)
      refine ⟨?_, by simp only [List.length_cons, hlen]⟩
      simp only [Limbs.val_cons, List.length_cons, Limbs.pow_succ_limb]
      generalize addAtFrom ws (if w + c < w then 1#64 else 0#64) = r at hval
      calc _ = (w + c).toNat +
              2 ^ 64 * (Limbs.val r.1 + 2 ^ (64 * ws.length) * r.2.toNat) := by ring
        _ = (w + c).toNat + 2 ^ 64 * (if w + c < w then 1#64 else 0#64).toNat +
            2 ^ 64 * Limbs.val ws := by rw [hval]; ring
        _ = _ := by rw [hlimb.1]; ring

/-- **Adding one at a bit**, with the carry out of the register. -/
theorem addAt_val (hW : Reg W) {pos : ℕ} (hpos : pos < 256) :
    Limbs.val (addAt W pos).1 + 2 ^ 256 * (addAt W pos).2.toNat = Limbs.val W + 2 ^ pos ∧
      Reg (addAt W pos).1 := by
  have hlen : (W.drop (pos / 64)).length = 4 - pos / 64 := by rw [List.length_drop, hW]
  have htake : (W.take (pos / 64)).length = pos / 64 := by rw [List.length_take, hW]; omega
  have hne : W.drop (pos / 64) ≠ [] := by
    intro h
    rw [h, List.length_nil] at hlen
    omega
  obtain ⟨hval, hr⟩ := addAtFrom_val (W.drop (pos / 64)) (1#64 <<< (pos % 64)) (.inl hne)
  have hone : (1#64 <<< (pos % 64)).toNat = 2 ^ (pos % 64) := by
    have hlt : 2 ^ (pos % 64) < 2 ^ 64 :=
      Nat.pow_lt_pow_right (by decide) (Nat.mod_lt _ (by decide))
    rw [BitVec.toNat_shiftLeft, Nat.shiftLeft_eq, BitVec.toNat_ofNat,
      Nat.mod_eq_of_lt (by decide : 1 < 2 ^ 64), Nat.one_mul, Nat.mod_eq_of_lt hlt]
  rw [hone, hlen] at hval
  have hsplit : Limbs.val W = Limbs.val (W.take (pos / 64)) +
      2 ^ (64 * (pos / 64)) * Limbs.val (W.drop (pos / 64)) := by
    conv_lhs => rw [← List.take_append_drop (pos / 64) W]
    rw [Limbs.val_append, htake]
  have hpow : 2 ^ (64 * (pos / 64)) * 2 ^ (pos % 64) = 2 ^ pos := by
    rw [← pow_add, Nat.div_add_mod]
  have htop : 2 ^ (64 * (pos / 64)) * 2 ^ (64 * (4 - pos / 64)) = 2 ^ 256 := by
    rw [← pow_add]
    congr 1
    omega
  unfold addAt
  refine ⟨?_, ?_⟩
  · simp only [Limbs.val_append, htake]
    generalize addAtFrom (W.drop (pos / 64)) (1#64 <<< (pos % 64)) = r at hval
    calc _ = Limbs.val (W.take (pos / 64)) + 2 ^ (64 * (pos / 64)) *
            (Limbs.val r.1 + 2 ^ (64 * (4 - pos / 64)) * r.2.toNat) := by rw [← htop]; ring
      _ = Limbs.val (W.take (pos / 64)) + 2 ^ (64 * (pos / 64)) *
            Limbs.val (W.drop (pos / 64)) + 2 ^ (64 * (pos / 64)) * 2 ^ (pos % 64) := by
          rw [hval]; ring
      _ = _ := by rw [hpow, ← hsplit]
  · simp only [Reg, List.length_append, htake, hr, hlen]
    omega

theorem subOne_length (W : List (BitVec 64)) : (subOne W).length = W.length := by
  induction W with
  | nil => rfl
  | cons w ws ih =>
    unfold subOne
    split
    · rfl
    · rw [List.length_cons, List.length_cons, ih]

theorem subOne_val (W : List (BitVec 64)) (h : 0 < Limbs.val W) :
    Limbs.val (subOne W) + 1 = Limbs.val W := by
  induction W with
  | nil => cases h
  | cons w ws ih =>
    have hw := w.isLt
    unfold subOne
    by_cases h0 : w = 0#64
    · -- the borrow passes through a zero limb
      subst h0
      have hpos : 0 < Limbs.val ws := by
        rw [Limbs.val_cons, BitVec.toNat_ofNat] at h
        omega
      have hrest := ih hpos
      rw [if_neg (by simp), Limbs.val_cons, Limbs.val_cons]
      have hmax : (0#64 - 1#64).toNat = 2 ^ 64 - 1 := by decide
      rw [hmax, BitVec.toNat_ofNat]
      omega
    · have hne : w.toNat ≠ 0 := fun hz => h0 (BitVec.eq_of_toNat_eq hz)
      have hsub : (w - 1#64).toNat = w.toNat - 1 := by
        rw [BitVec.toNat_sub, BitVec.toNat_ofNat]
        omega
      rw [if_pos h0, Limbs.val_cons, Limbs.val_cons, hsub]
      omega

theorem highestSetBitBelow_spec (W : List (BitVec 64)) (i : ℕ) :
    (Limbs.val (W.take i) = 0 ∧ highestSetBitBelow W i = -1) ∨
      ∃ h : ℕ, highestSetBitBelow W i = h ∧ 2 ^ h ≤ Limbs.val (W.take i) ∧
        Limbs.val (W.take i) < 2 ^ (h + 1) := by
  induction i with
  | zero => exact .inl ⟨rfl, rfl⟩
  | succ i ih =>
    have hlow : Limbs.val (W.take i) < 2 ^ (64 * i) := by
      rw [Limbs.val_take]
      exact Nat.mod_lt _ (Nat.two_pow_pos _)
    rw [Limbs.val_take_succ]
    unfold highestSetBitBelow
    by_cases h0 : W.getD i 0#64 = 0#64
    · rw [if_neg (by simpa using h0)]
      have hz : (W.getD i 0).toNat = 0 := congrArg BitVec.toNat h0
      rw [hz, Nat.mul_zero, Nat.add_zero]
      exact ih
    · rw [if_pos h0]
      refine .inr ?_
      have hne : (W.getD i 0#64).toNat ≠ 0 := fun hz => h0 (BitVec.eq_of_toNat_eq hz)
      have hsz := Nat.lt_size_self (W.getD i 0#64).toNat
      have hsz64 : (W.getD i 0#64).toNat.size ≤ 64 := Nat.size_le.mpr (W.getD i 0#64).isLt
      have hsz0 : 0 < (W.getD i 0#64).toNat.size := Nat.size_pos.mpr (Nat.pos_of_ne_zero hne)
      obtain ⟨s, hs⟩ : ∃ s, (W.getD i 0#64).toNat.size = s + 1 := ⟨_, (Nat.succ_pred hsz0.ne').symm⟩
      have hle : 2 ^ s ≤ (W.getD i 0#64).toNat := Nat.lt_size.mp (by omega)
      rw [hs] at hsz hsz64
      refine ⟨64 * i + s, ?_, ?_, ?_⟩
      · rw [countlZero, hs]
        push_cast
        omega
      · calc 2 ^ (64 * i + s) = 2 ^ (64 * i) * 2 ^ s := pow_add _ _ _
          _ ≤ 2 ^ (64 * i) * (W.getD i 0#64).toNat := Nat.mul_le_mul_left _ hle
          _ ≤ _ := Nat.le_add_left _ _
      · have hmul : 2 ^ (64 * i) * ((W.getD i 0#64).toNat + 1) ≤ 2 ^ (64 * i) * 2 ^ (s + 1) :=
          Nat.mul_le_mul_left _ hsz
        rw [← pow_add, ← Nat.add_assoc, Nat.mul_add, Nat.mul_one] at hmul
        have heq : (W.getD i 0).toNat = (W.getD i 0#64).toNat := rfl
        rw [heq]
        omega

/-- **The position of the leading bit.** -/
theorem highestSetBit_spec (hW : Reg W) (hne : Limbs.val W ≠ 0) :
    ∃ h : ℕ, highestSetBit W = h ∧ 2 ^ h ≤ Limbs.val W ∧ Limbs.val W < 2 ^ (h + 1) := by
  have htake : W.take 4 = W := List.take_of_length_le (le_of_eq hW)
  rcases highestSetBitBelow_spec W 4 with ⟨h0, -⟩ | hspec
  · rw [htake] at h0
    exact absurd h0 hne
  · rw [htake] at hspec
    exact hspec

theorem geq_eq {a b : List (BitVec 64)} (ha : Reg a) (hb : Reg b) :
    geq a b = decide (Limbs.val b ≤ Limbs.val a) := by
  rw [geq, Limbs.cmpBelow_eq, List.take_of_length_le (le_of_eq ha),
    List.take_of_length_le (le_of_eq hb), Bool.eq_iff_iff, decide_eq_true_iff, bne_iff_ne, Ne,
    Nat.compare_eq_lt, not_lt]

def sig (v : WideFloatValue) : ℕ := v.sigLo.toNat + 2 ^ 64 * v.sigHi.toNat

theorem val_load (v : WideFloatValue) : Limbs.val (load v) = 2 ^ 128 * v.sig := by
  simp only [load, sig, Limbs.val_cons, Limbs.val_nil, BitVec.toNat_ofNat]
  omega

theorem mul128_length (aHi aLo bHi bLo : BitVec 64) : Reg (mul128 aHi aLo bHi bLo) := rfl

/-- **The 256-bit product is exact.** -/
theorem mul128_val (a b : WideFloatValue) :
    Limbs.val (mul128 a.sigHi a.sigLo b.sigHi b.sigLo) = a.sig * b.sig := by
  have hll := Limbs.mul64_val a.sigLo b.sigLo
  have hlh := Limbs.mul64_val a.sigLo b.sigHi
  have hhl := Limbs.mul64_val a.sigHi b.sigLo
  have hhh := Limbs.mul64_val a.sigHi b.sigHi
  have hprod : a.sig * b.sig = a.sigLo.toNat * b.sigLo.toNat +
      2 ^ 64 * (a.sigLo.toNat * b.sigHi.toNat) + 2 ^ 64 * (a.sigHi.toNat * b.sigLo.toNat) +
      2 ^ 128 * (a.sigHi.toNat * b.sigHi.toNat) := by
    unfold sig
    ring
  have hbound : ∀ x y : BitVec 64, x.toNat * y.toNat ≤ (2 ^ 64 - 1) * (2 ^ 64 - 1) := by
    intro x y
    exact Nat.mul_le_mul (by have := x.isLt; omega) (by have := y.isLt; omega)
  have bll := hbound a.sigLo b.sigLo
  have blh := hbound a.sigLo b.sigHi
  have bhl := hbound a.sigHi b.sigLo
  have bhh := hbound a.sigHi b.sigHi
  rw [hprod]
  generalize a.sigLo.toNat * b.sigLo.toNat = ll at *
  generalize a.sigLo.toNat * b.sigHi.toNat = lh at *
  generalize a.sigHi.toNat * b.sigLo.toNat = hl at *
  generalize a.sigHi.toNat * b.sigHi.toNat = hh at *
  unfold mul128
  generalize Limbs.mul64 a.sigLo b.sigLo = mll at *
  generalize Limbs.mul64 a.sigLo b.sigHi = mlh at *
  generalize Limbs.mul64 a.sigHi b.sigLo = mhl at *
  generalize Limbs.mul64 a.sigHi b.sigHi = mhh at *
  simp only [Limbs.val_cons, Limbs.val_nil]
  -- the five wrapped sums of the two middle columns, each with its carry
  obtain ⟨e1, l1⟩ := Limbs.add_wrap_val mll.2 mlh.1
  generalize (if mll.2 + mlh.1 < mll.2 then 1#64 else 0#64) = k1 at *
  generalize mll.2 + mlh.1 = s1 at *
  obtain ⟨e2, l2⟩ := Limbs.add_wrap_val s1 mhl.1
  generalize (if s1 + mhl.1 < s1 then 1#64 else 0#64) = k2 at *
  generalize s1 + mhl.1 = p1 at *
  obtain ⟨e3, l3⟩ := Limbs.add_wrap_val mlh.2 mhl.2
  generalize (if mlh.2 + mhl.2 < mlh.2 then 1#64 else 0#64) = k3 at *
  generalize mlh.2 + mhl.2 = s2 at *
  obtain ⟨e4, l4⟩ := Limbs.add_wrap_val s2 mhh.1
  generalize (if s2 + mhh.1 < s2 then 1#64 else 0#64) = k4 at *
  generalize s2 + mhh.1 = s3 at *
  obtain ⟨e5, l5⟩ := Limbs.add_wrap_val s3 (k1 + k2)
  generalize (if s3 + (k1 + k2) < s3 then 1#64 else 0#64) = k5 at *
  generalize s3 + (k1 + k2) = p2 at *
  have hk12 : (k1 + k2).toNat = k1.toNat + k2.toNat := by
    rw [BitVec.toNat_add, Nat.mod_eq_of_lt (by omega)]
  have hk345 : (k3 + k4 + k5).toNat = k3.toNat + k4.toNat + k5.toNat := by
    rw [BitVec.toNat_add, BitVec.toNat_add,
      Nat.mod_eq_of_lt (by omega : k3.toNat + k4.toNat < 2 ^ 64),
      Nat.mod_eq_of_lt (by omega)]
  rw [hk12] at e5
  -- the columns add up, and the product leaves no room for a carry out of the last one
  have hsum : mll.1.toNat + 2 ^ 64 * p1.toNat + 2 ^ 128 * p2.toNat +
      2 ^ 192 * (mhh.2.toNat + (k3.toNat + k4.toNat + k5.toNat)) =
      ll + 2 ^ 64 * lh + 2 ^ 64 * hl + 2 ^ 128 * hh := by
    linarith
  have htop : (mhh.2 + (k3 + k4 + k5)).toNat = mhh.2.toNat + (k3.toNat + k4.toNat + k5.toNat) := by
    rw [BitVec.toNat_add, hk345, Nat.mod_eq_of_lt (by omega)]
  rw [htop]
  linarith

theorem divStep_spec {N D Q R : List (BitVec 64)} (hD : Reg D) (hQ : Reg Q) (hR : Reg R)
    {i : ℕ} (hi : i < 256) (hD0 : 0 < Limbs.val D) (hDs : Limbs.val D ≤ 2 ^ 255)
    (hRv : Limbs.val R = Limbs.val N / 2 ^ (i + 1) % Limbs.val D)
    (hQv : Limbs.val Q = 2 ^ (i + 1) * (Limbs.val N / 2 ^ (i + 1) / Limbs.val D)) :
    Reg (divStep N D i Q R).1 ∧ Reg (divStep N D i Q R).2 ∧
      Limbs.val (divStep N D i Q R).2 = Limbs.val N / 2 ^ i % Limbs.val D ∧
      Limbs.val (divStep N D i Q R).1 = 2 ^ i * (Limbs.val N / 2 ^ i / Limbs.val D) := by
  have hRlt : Limbs.val R < Limbs.val D := by rw [hRv]; exact Nat.mod_lt _ hD0
  -- the dividend one bit further down
  have hbit : Limbs.val N / 2 ^ i = 2 * (Limbs.val N / 2 ^ (i + 1)) + (getBit N i).toNat := by
    rw [getBit_eq, Limbs.div_two_pow_eq]
  have hshl : Limbs.val (Limbs.shl1 R 0#64) = 2 * Limbs.val R := by
    have hmod := Limbs.val_shl1 R (c := 0#64) (Nat.zero_le 1)
    have hlen := Limbs.shl1_length R 0#64
    have hlt : Limbs.val (Limbs.shl1 R 0#64) < 2 ^ 256 := Reg.val_lt (hlen.trans hR)
    rw [hR, BitVec.toNat_ofNat] at hmod
    exact hmod.eq_of_lt_of_lt hlt (by omega)
  -- the remainder with the bit brought down
  have hdown : ∃ R', (if getBit N i then (Limbs.shl1 R 0#64).modify 0 (· ||| 1#64)
      else Limbs.shl1 R 0#64) = R' ∧ Reg R' ∧
      Limbs.val R' = 2 * Limbs.val R + (getBit N i).toNat := by
    refine ⟨_, rfl, ?_⟩
    have hreg : Reg (Limbs.shl1 R 0#64) := (Limbs.shl1_length R 0#64).trans hR
    cases getBit N i with
    | false => exact ⟨hreg, by simpa using hshl⟩
    | true =>
      have hset := val_setBit hreg (show 0 < 256 by decide)
      have hor : 2 * Limbs.val R ||| 1 = 2 * Limbs.val R + 1 :=
        (Nat.two_pow_add_eq_or_of_lt (i := 1) (by decide) (Limbs.val R)).symm
      rw [hshl, pow_zero, hor] at hset
      exact ⟨(setBit_length _ 0).trans hreg, hset⟩
  obtain ⟨R', hR', hreg', hval'⟩ := hdown
  obtain ⟨hup, hlow⟩ := Limbs.divMod_bringDown hD0 hbit (Bool.toNat_le _)
  rw [← hRv, ← hval'] at hup hlow
  unfold divStep
  simp only [hR', geq_eq hreg' hD]
  by_cases hge : Limbs.val D ≤ Limbs.val R'
  · obtain ⟨hdivq, hmodq⟩ := hup hge
    obtain ⟨hsub, hsub1⟩ := Limbs.subBorrow_val (hreg'.trans hD.symm) (c := 0#64) (Nat.zero_le 1)
    have hslen : Reg (subFrom R' D) := (Limbs.subBorrow_length R' D 0#64).trans hreg'
    have hslt := hslen.val_lt
    have hsval : Limbs.val (subFrom R' D) = Limbs.val R' - Limbs.val D := by
      rw [hreg', BitVec.toNat_ofNat] at hsub
      unfold subFrom at hslt ⊢
      omega
    rw [decide_eq_true hge, if_pos rfl]
    refine ⟨(setBit_length Q i).trans hQ, hslen, by rw [hsval, hmodq], ?_⟩
    rw [val_setBit hQ hi, hdivq, hQv, pow_succ, Nat.mul_assoc]
    have hor := Nat.two_pow_add_eq_or_of_lt (i := i + 1)
      (Nat.pow_lt_pow_right (by decide) (Nat.lt_succ_self i) : 2 ^ i < 2 ^ (i + 1))
      (Limbs.val N / 2 ^ (i + 1) / Limbs.val D)
    rw [pow_succ, Nat.mul_assoc] at hor
    rw [← hor]
    ring
  · obtain ⟨hdivq, hmodq⟩ := hlow hge
    rw [decide_eq_false hge, if_neg (by decide)]
    refine ⟨hQ, hreg', hmodq.symm, ?_⟩
    rw [hQv, hdivq, pow_succ, Nat.mul_assoc]

/-- **The division loop is the long division.** -/
theorem divLoop_spec {N D : List (BitVec 64)} (hD : Reg D) (hD0 : 0 < Limbs.val D)
    (hDs : Limbs.val D ≤ 2 ^ 255) {i : ℕ} (hi : i ≤ 256) {Q R : List (BitVec 64)} (hQ : Reg Q)
    (hR : Reg R)
    (hRv : Limbs.val R = Limbs.val N / 2 ^ i % Limbs.val D)
    (hQv : Limbs.val Q = 2 ^ i * (Limbs.val N / 2 ^ i / Limbs.val D)) :
    Reg (divLoop N D i Q R).1 ∧
      Limbs.val (divLoop N D i Q R).2 = Limbs.val N % Limbs.val D ∧
      Limbs.val (divLoop N D i Q R).1 = Limbs.val N / Limbs.val D := by
  induction i generalizing Q R with
  | zero =>
    rw [pow_zero, Nat.div_one] at hRv hQv
    exact ⟨hQ, hRv, by rw [Nat.one_mul] at hQv; exact hQv⟩
  | succ i ih =>
    obtain ⟨hQ', hR', hRv', hQv'⟩ :=
      divStep_spec hD hQ hR (Nat.lt_of_succ_le hi) hD0 hDs hRv hQv
    exact ih (Nat.le_of_succ_le hi) hQ' hR' hRv' hQv'

end DssPrime.WideFloatValue
