import Mathlib

/-!
# Little-endian limb arithmetic

A multi-word unsigned integer is a list of 64-bit limbs, least significant first, and `val` is the
number it denotes. The loops here are the usual schoolbook ones: a carry or a borrow is recovered by
comparing a wrapped sum with one of its operands, a `64 × 64` product is put together from its
32-bit halves, and a comparison runs from the top limb down.

Everything bitwise goes through `testBit_val`, which reads a bit of the denoted number off the limb
that holds it.
-/

namespace DssPrime.Limbs

/-- The number a little-endian list of limbs denotes. -/
def val : List (BitVec 64) → ℕ
  | [] => 0
  | l :: ls => l.toNat + 2 ^ 64 * val ls

@[simp] theorem val_nil : val [] = 0 := rfl

@[simp] theorem val_cons (l : BitVec 64) (ls : List (BitVec 64)) :
    val (l :: ls) = l.toNat + 2 ^ 64 * val ls := rfl

theorem pow_succ_limb (n : ℕ) : (2 : ℕ) ^ (64 * (n + 1)) = 2 ^ 64 * 2 ^ (64 * n) := by
  rw [← pow_add]
  congr 1
  ring

theorem val_lt (ls : List (BitVec 64)) : val ls < 2 ^ (64 * ls.length) := by
  induction ls with
  | nil => simp
  | cons l ls ih =>
    have hl := l.isLt
    rw [val_cons, List.length_cons, pow_succ_limb]
    have : 2 ^ 64 * (val ls + 1) ≤ 2 ^ 64 * 2 ^ (64 * ls.length) := Nat.mul_le_mul_left _ ih
    omega

theorem val_append (xs ys : List (BitVec 64)) :
    val (xs ++ ys) = val xs + 2 ^ (64 * xs.length) * val ys := by
  induction xs with
  | nil => simp
  | cons x xs ih =>
    rw [List.cons_append, val_cons, val_cons, ih, List.length_cons, pow_succ_limb]
    ring

@[simp] theorem val_replicate_zero (n : ℕ) : val (List.replicate n 0#64) = 0 := by
  induction n with
  | zero => rfl
  | succ n ih => rw [List.replicate_succ, val_cons, ih]; rfl

/-- A bit of the denoted number is a bit of the limb that holds it. -/
theorem testBit_val (ls : List (BitVec 64)) (i : ℕ) :
    (val ls).testBit i = (ls.getD (i / 64) 0).getLsbD (i % 64) := by
  induction ls generalizing i with
  | nil => simp
  | cons l ls ih =>
    rw [val_cons, Nat.add_comm, Nat.testBit_two_pow_mul_add _ l.isLt]
    by_cases hi : i < 64
    · rw [if_pos hi, Nat.div_eq_of_lt hi, Nat.mod_eq_of_lt hi]
      rfl
    · rw [if_neg hi, ih]
      have hd : i / 64 = (i - 64) / 64 + 1 := by omega
      have hm : i % 64 = (i - 64) % 64 := by omega
      rw [hd, hm, List.getD_cons_succ]

theorem testBit_val_of_le {ls : List (BitVec 64)} {i : ℕ} (h : 64 * ls.length ≤ i) :
    (val ls).testBit i = false :=
  Nat.testBit_lt_two_pow (lt_of_lt_of_le (val_lt ls) (Nat.pow_le_pow_right (by decide) h))

theorem val_take (ls : List (BitVec 64)) (n : ℕ) :
    val (ls.take n) = val ls % 2 ^ (64 * n) := by
  apply Nat.eq_of_testBit_eq
  intro i
  rw [testBit_val, Nat.testBit_mod_two_pow, testBit_val]
  by_cases hi : i < 64 * n
  · have hd : i / 64 < n := by omega
    simp [hi, List.getD_eq_getElem?_getD, hd]
  · have hd : ¬ i / 64 < n := by omega
    simp [hi, List.getD_eq_getElem?_getD, hd]

def addLimb (a b carry : BitVec 64) : BitVec 64 × BitVec 64 :=
  let s1 := a + b
  let c1 : BitVec 64 := if s1 < a then 1#64 else 0#64
  let s2 := s1 + carry
  let c2 : BitVec 64 := if s2 < s1 then 1#64 else 0#64
  (s2, c1 + c2)

def subLimb (a b borrow : BitVec 64) : BitVec 64 × BitVec 64 :=
  let d1 := a - b
  let b1 : BitVec 64 := if a < b then 1#64 else 0#64
  let d2 := d1 - borrow
  let b2 : BitVec 64 := if d1 < borrow then 1#64 else 0#64
  (d2, b1 + b2)

def addCarry : List (BitVec 64) → List (BitVec 64) → BitVec 64 → List (BitVec 64) × BitVec 64
  | a :: as, b :: bs, carry =>
    let s := addLimb a b carry
    let r := addCarry as bs s.2
    (s.1 :: r.1, r.2)
  | _, _, carry => ([], carry)

/-- The limbs of `as - bs - borrow` and the borrow out of the top; a missing limb of the
subtrahend reads as zero. -/
def subBorrow : List (BitVec 64) → List (BitVec 64) → BitVec 64 → List (BitVec 64) × BitVec 64
  | a :: as, bs, borrow =>
    let d := subLimb a (bs.headD 0) borrow
    let r := subBorrow as bs.tail d.2
    (d.1 :: r.1, r.2)
  | [], _, borrow => ([], borrow)

/-- A wrapped sum is below its operands exactly when it lost a carry. -/
theorem add_wrap_val (x y : BitVec 64) :
    (x + y).toNat + 2 ^ 64 * (if x + y < x then 1#64 else 0#64).toNat = x.toNat + y.toNat ∧
      (if x + y < x then 1#64 else 0#64).toNat ≤ 1 := by
  have hx := x.isLt
  have hy := y.isLt
  simp only [BitVec.lt_def]
  split <;> simp_all only [BitVec.toNat_add, BitVec.toNat_ofNat] <;> omega

theorem addLimb_val {a b c : BitVec 64} (hc : c.toNat ≤ 1) :
    (addLimb a b c).1.toNat + 2 ^ 64 * (addLimb a b c).2.toNat = a.toNat + b.toNat + c.toNat ∧
      (addLimb a b c).2.toNat ≤ 1 := by
  have ha := a.isLt
  have hb := b.isLt
  simp only [addLimb, BitVec.lt_def]
  split <;> split <;> simp_all only [BitVec.toNat_add, BitVec.toNat_ofNat] <;> omega

theorem subLimb_val {a b c : BitVec 64} (hc : c.toNat ≤ 1) :
    (subLimb a b c).1.toNat + b.toNat + c.toNat = a.toNat + 2 ^ 64 * (subLimb a b c).2.toNat ∧
      (subLimb a b c).2.toNat ≤ 1 := by
  have ha := a.isLt
  have hb := b.isLt
  simp only [subLimb, BitVec.lt_def]
  split <;> split <;>
    simp_all only [BitVec.toNat_add, BitVec.toNat_sub, BitVec.toNat_ofNat] <;> omega

theorem addCarry_length {as bs : List (BitVec 64)} (h : as.length = bs.length) (c : BitVec 64) :
    (addCarry as bs c).1.length = as.length := by
  induction as generalizing bs c with
  | nil => cases bs <;> rfl
  | cons a as ih =>
    cases bs with
    | nil => cases h
    | cons b bs => simp only [addCarry, List.length_cons, ih (Nat.succ.inj h)]

theorem subBorrow_length (as bs : List (BitVec 64)) (c : BitVec 64) :
    (subBorrow as bs c).1.length = as.length := by
  induction as generalizing bs c with
  | nil => rfl
  | cons a as ih => simp only [subBorrow, List.length_cons, ih]

/-- **The carry chain adds**: nothing is lost but the carry out of the top limb. -/
theorem addCarry_val {as bs : List (BitVec 64)} (h : as.length = bs.length) {c : BitVec 64}
    (hc : c.toNat ≤ 1) :
    val (addCarry as bs c).1 + 2 ^ (64 * as.length) * (addCarry as bs c).2.toNat =
        val as + val bs + c.toNat ∧
      (addCarry as bs c).2.toNat ≤ 1 := by
  induction as generalizing bs c with
  | nil => cases bs with
    | nil => simp [addCarry, hc]
    | cons b bs => cases h
  | cons a as ih =>
    cases bs with
    | nil => cases h
    | cons b bs =>
      obtain ⟨hs, hs1⟩ := addLimb_val (a := a) (b := b) hc
      obtain ⟨hr, hr1⟩ := ih (Nat.succ.inj h) hs1
      refine ⟨?_, hr1⟩
      simp only [addCarry, val_cons, List.length_cons, pow_succ_limb]
      calc _ = (addLimb a b c).1.toNat + 2 ^ 64 * (val (addCarry as bs (addLimb a b c).2).1 +
            2 ^ (64 * as.length) * (addCarry as bs (addLimb a b c).2).2.toNat) := by ring
        _ = (addLimb a b c).1.toNat + 2 ^ 64 * (addLimb a b c).2.toNat +
            2 ^ 64 * (val as + val bs) := by rw [hr]; ring
        _ = _ := by rw [hs]; ring

/-- **The borrow chain subtracts**: nothing is lost but the borrow out of the top limb. -/
theorem subBorrow_val {as bs : List (BitVec 64)} (h : as.length = bs.length) {c : BitVec 64}
    (hc : c.toNat ≤ 1) :
    val (subBorrow as bs c).1 + val bs + c.toNat =
        val as + 2 ^ (64 * as.length) * (subBorrow as bs c).2.toNat ∧
      (subBorrow as bs c).2.toNat ≤ 1 := by
  induction as generalizing bs c with
  | nil => cases bs with
    | nil => simp [subBorrow, hc]
    | cons b bs => cases h
  | cons a as ih =>
    cases bs with
    | nil => cases h
    | cons b bs =>
      obtain ⟨hs, hs1⟩ := subLimb_val (a := a) (b := b) hc
      obtain ⟨hr, hr1⟩ := ih (Nat.succ.inj h) hs1
      refine ⟨?_, hr1⟩
      simp only [subBorrow, val_cons, List.length_cons, pow_succ_limb, List.headD_cons,
        List.tail_cons]
      calc _ = (subLimb a b c).1.toNat + b.toNat + c.toNat +
            2 ^ 64 * (val (subBorrow as bs (subLimb a b c).2).1 + val bs) := by ring
        _ = a.toNat + 2 ^ 64 * (val (subBorrow as bs (subLimb a b c).2).1 + val bs +
            (subLimb a b c).2.toNat) := by rw [hs]; ring
        _ = _ := by rw [hr]; ring

def mul64 (a b : BitVec 64) : BitVec 64 × BitVec 64 :=
  let aL := a &&& 0xFFFFFFFF#64
  let aH := a >>> 32
  let bL := b &&& 0xFFFFFFFF#64
  let bH := b >>> 32
  let ll := aL * bL
  let lh := aL * bH
  let hl := aH * bL
  let hh := aH * bH
  let cross := (ll >>> 32) + (lh &&& 0xFFFFFFFF#64) + (hl &&& 0xFFFFFFFF#64)
  ((ll &&& 0xFFFFFFFF#64) ||| (cross <<< 32), hh + (lh >>> 32) + (hl >>> 32) + (cross >>> 32))

theorem toNat_and_low (x : BitVec 64) : (x &&& 0xFFFFFFFF#64).toNat = x.toNat % 2 ^ 32 := by
  rw [BitVec.toNat_and]
  exact Nat.and_two_pow_sub_one_eq_mod x.toNat 32

theorem toNat_shiftRight_half (x : BitVec 64) : (x >>> 32).toNat = x.toNat / 2 ^ 32 := by
  rw [BitVec.toNat_ushiftRight, Nat.shiftRight_eq_div_pow]

theorem toNat_low_or_shl (x y : BitVec 64) :
    ((x &&& 0xFFFFFFFF#64) ||| (y <<< 32)).toNat =
      x.toNat % 2 ^ 32 + 2 ^ 32 * (y.toNat % 2 ^ 32) := by
  have hlow : x.toNat % 2 ^ 32 < 2 ^ 32 := Nat.mod_lt _ (by decide)
  have hsh : (y <<< 32).toNat = 2 ^ 32 * (y.toNat % 2 ^ 32) := by
    rw [BitVec.toNat_shiftLeft, Nat.shiftLeft_eq]
    omega
  rw [BitVec.toNat_or, toNat_and_low, hsh, Nat.or_comm, ← Nat.two_pow_add_eq_or_of_lt hlow]
  ring

theorem half_mul_le {x y : ℕ} (hx : x < 2 ^ 32) (hy : y < 2 ^ 32) :
    x * y ≤ (2 ^ 32 - 1) * (2 ^ 32 - 1) :=
  Nat.mul_le_mul (by omega) (by omega)

/-- **The product by halves is exact.** -/
theorem mul64_val (a b : BitVec 64) :
    (mul64 a b).1.toNat + 2 ^ 64 * (mul64 a b).2.toNat = a.toNat * b.toNat := by
  have hal : a.toNat % 2 ^ 32 < 2 ^ 32 := Nat.mod_lt _ (by decide)
  have hbl : b.toNat % 2 ^ 32 < 2 ^ 32 := Nat.mod_lt _ (by decide)
  have hah : a.toNat / 2 ^ 32 < 2 ^ 32 := by have := a.isLt; omega
  have hbh : b.toNat / 2 ^ 32 < 2 ^ 32 := by have := b.isLt; omega
  -- the four partial products, and that none of them leaves its limb
  have hll := half_mul_le hal hbl
  have hlh := half_mul_le hal hbh
  have hhl := half_mul_le hah hbl
  have hhh := half_mul_le hah hbh
  have hsplit : a.toNat * b.toNat =
      a.toNat % 2 ^ 32 * (b.toNat % 2 ^ 32) +
        2 ^ 32 * (a.toNat % 2 ^ 32 * (b.toNat / 2 ^ 32)) +
        2 ^ 32 * (a.toNat / 2 ^ 32 * (b.toNat % 2 ^ 32)) +
        2 ^ 64 * (a.toNat / 2 ^ 32 * (b.toNat / 2 ^ 32)) := by
    conv_lhs => rw [← Nat.mod_add_div a.toNat (2 ^ 32), ← Nat.mod_add_div b.toNat (2 ^ 32)]
    ring
  rw [hsplit]
  simp only [mul64, toNat_low_or_shl, BitVec.toNat_add, BitVec.toNat_mul, toNat_and_low,
    toNat_shiftRight_half]
  generalize a.toNat % 2 ^ 32 * (b.toNat % 2 ^ 32) = ll at *
  generalize a.toNat % 2 ^ 32 * (b.toNat / 2 ^ 32) = lh at *
  generalize a.toNat / 2 ^ 32 * (b.toNat % 2 ^ 32) = hl at *
  generalize a.toNat / 2 ^ 32 * (b.toNat / 2 ^ 32) = hh at *
  omega

/-- One step of a row: the limb `p` of the running product plus `x * y` plus the carry,
with the carry into the next limb. -/
def mulLimb (x y p carry : BitVec 64) : BitVec 64 × BitVec 64 :=
  let m := mul64 x y
  let s := p + m.1
  let c := if s < p then 1#64 else 0#64
  let s2 := s + carry
  let c := c + (if s2 < s then 1#64 else 0#64)
  (s2, m.2 + c)

/-- One row of a schoolbook product: adds `x * ys` into the running product `ps`; the last
carry goes into the limb after the row. -/
def mulRow (x : BitVec 64) : List (BitVec 64) → List (BitVec 64) → BitVec 64 → List (BitVec 64)
  | y :: ys, p :: ps, carry =>
    let s := mulLimb x y p carry
    s.1 :: mulRow x ys ps s.2
  | [], p :: ps, carry => (p + carry) :: ps
  | _, [], _ => []

def mulRows : List (BitVec 64) → List (BitVec 64) → List (BitVec 64) → List (BitVec 64)
  | [], _, ps => ps
  | x :: xs, ys, ps =>
    (mulRow x ys ps 0#64).take 1 ++ mulRows xs ys ((mulRow x ys ps 0#64).drop 1)

theorem mulLimb_val (x y p c : BitVec 64) :
    (mulLimb x y p c).1.toNat + 2 ^ 64 * (mulLimb x y p c).2.toNat =
      p.toNat + x.toNat * y.toNat + c.toNat := by
  have hx := x.isLt
  have hy := y.isLt
  have hp := p.isLt
  have hc := c.isLt
  have hm := mul64_val x y
  have hlo := (mul64 x y).1.isLt
  have hxy : x.toNat * y.toNat ≤ (2 ^ 64 - 1) * (2 ^ 64 - 1) :=
    Nat.mul_le_mul (by omega) (by omega)
  simp only [mulLimb, BitVec.lt_def]
  generalize x.toNat * y.toNat = xy at *
  split <;> split <;> simp_all only [BitVec.toNat_add, BitVec.toNat_ofNat] <;> omega

theorem mulRow_length (x : BitVec 64) (ys ps : List (BitVec 64)) (c : BitVec 64) :
    (mulRow x ys ps c).length = ps.length := by
  induction ps generalizing ys c with
  | nil => cases ys <;> rfl
  | cons p ps ih =>
    cases ys with
    | nil => rfl
    | cons y ys => simp only [mulRow, List.length_cons, ih]

theorem mulRows_length (xs ys ps : List (BitVec 64)) : (mulRows xs ys ps).length = ps.length := by
  induction xs generalizing ps with
  | nil => rfl
  | cons x xs ih =>
    rw [mulRows, List.length_append, ih, List.length_take, List.length_drop, mulRow_length]
    omega

/-- **A row adds its product**, up to what leaves the limbs of the row. -/
theorem mulRow_val (x : BitVec 64) (ys ps : List (BitVec 64)) (c : BitVec 64)
    (h : ys.length ≤ ps.length) :
    val (mulRow x ys ps c) ≡ val ps + x.toNat * val ys + c.toNat
      [MOD 2 ^ (64 * ys.length)] := by
  induction ys generalizing ps c with
  | nil => exact Nat.modEq_one
  | cons y ys ih =>
    cases ps with
    | nil => cases h
    | cons p ps =>
      have hs := mulLimb_val x y p c
      have hrest := ih ps (mulLimb x y p c).2 (Nat.le_of_succ_le_succ h)
      simp only [mulRow, val_cons, List.length_cons, pow_succ_limb]
      have hmul := (hrest.mul_left' (2 ^ 64)).add_left (mulLimb x y p c).1.toNat
      have heq : (mulLimb x y p c).1.toNat +
          2 ^ 64 * (val ps + x.toNat * val ys + (mulLimb x y p c).2.toNat) =
          p.toNat + 2 ^ 64 * val ps + x.toNat * (y.toNat + 2 ^ 64 * val ys) + c.toNat := by
        calc _ = (mulLimb x y p c).1.toNat + 2 ^ 64 * (mulLimb x y p c).2.toNat +
              2 ^ 64 * (val ps + x.toNat * val ys) := by ring
          _ = _ := by rw [hs]; ring
      rwa [heq] at hmul

/-- **The rows add up to the product** modulo the length of the second factor. -/
theorem mulRows_val (xs ys ps : List (BitVec 64)) (h : xs.length + ys.length ≤ ps.length + 1) :
    val (mulRows xs ys ps) ≡ val ps + val xs * val ys [MOD 2 ^ (64 * ys.length)] := by
  induction xs generalizing ps with
  | nil => simp only [mulRows, val_nil, Nat.zero_mul, Nat.add_zero]; rfl
  | cons x xs ih =>
    have hlen : ys.length ≤ ps.length := by rw [List.length_cons] at h; omega
    have hrow := mulRow_val x ys ps 0#64 hlen
    have hrl := mulRow_length x ys ps 0#64
    simp only [mulRows]
    generalize mulRow x ys ps 0#64 = r at *
    cases r with
    | nil =>
      -- an empty running product leaves room for no factor
      have hys : ys = [] := List.length_eq_zero_iff.mp (by rw [List.length_nil] at hrl; omega)
      subst hys
      exact Nat.modEq_one
    | cons q qs =>
      have hq := ih qs (by simp only [List.length_cons] at h hrl; omega)
      simp only [List.take_succ_cons, List.take_zero, List.drop_succ_cons, List.drop_zero,
        List.singleton_append, val_cons] at hrow ⊢
      have hup : q.toNat + 2 ^ 64 * val (mulRows xs ys qs) ≡
          q.toNat + 2 ^ 64 * (val qs + val xs * val ys) [MOD 2 ^ (64 * ys.length)] :=
        (hq.mul_left (2 ^ 64)).add_left q.toNat
      have hsum := hrow.add_right (2 ^ 64 * (val xs * val ys))
      calc q.toNat + 2 ^ 64 * val (mulRows xs ys qs)
          ≡ q.toNat + 2 ^ 64 * (val qs + val xs * val ys) [MOD 2 ^ (64 * ys.length)] := hup
        _ = q.toNat + 2 ^ 64 * val qs + 2 ^ 64 * (val xs * val ys) := by ring
        _ ≡ val ps + x.toNat * val ys + 0 + 2 ^ 64 * (val xs * val ys)
            [MOD 2 ^ (64 * ys.length)] := hsum
        _ = val ps + (x.toNat + 2 ^ 64 * val xs) * val ys := by ring

/-- Compares the low `n` limbs, from the top one down; a missing limb reads as zero. -/
def cmpBelow (as bs : List (BitVec 64)) : ℕ → Ordering
  | 0 => .eq
  | i + 1 =>
    if as.getD i 0 ≠ bs.getD i 0 then
      if as.getD i 0 < bs.getD i 0 then .lt else .gt
    else cmpBelow as bs i

theorem val_take_succ (ls : List (BitVec 64)) (i : ℕ) :
    val (ls.take (i + 1)) = val (ls.take i) + 2 ^ (64 * i) * (ls.getD i 0).toNat := by
  by_cases hi : i < ls.length
  · rw [List.take_succ_eq_append_getElem hi, val_append, List.length_take,
      Nat.min_eq_left (Nat.le_of_lt hi)]
    simp [hi]
  · rw [List.take_of_length_le (by omega), List.take_of_length_le (by omega)]
    rw [List.getD_eq_default ls 0 (Nat.le_of_not_lt hi)]
    rfl

/-- **The comparison decides the order of the numbers.** -/
theorem cmpBelow_eq (as bs : List (BitVec 64)) (n : ℕ) :
    cmpBelow as bs n = compare (val (as.take n)) (val (bs.take n)) := by
  induction n with
  | zero => simp [cmpBelow]
  | succ i ih =>
    have ha : val (as.take i) < 2 ^ (64 * i) := by
      rw [val_take]; exact Nat.mod_lt _ (Nat.two_pow_pos _)
    have hb : val (bs.take i) < 2 ^ (64 * i) := by
      rw [val_take]; exact Nat.mod_lt _ (Nat.two_pow_pos _)
    rw [cmpBelow, val_take_succ, val_take_succ]
    by_cases heq : as.getD i 0 = bs.getD i 0
    · rw [if_neg (by simpa using heq), ih, heq]
      simp only [compare, compareOfLessAndEq, Nat.add_lt_add_iff_right, Nat.add_right_cancel_iff]
    · rw [if_pos heq]
      by_cases hlt : as.getD i 0 < bs.getD i 0
      · have hmul : 2 ^ (64 * i) * ((as.getD i 0).toNat + 1) ≤
            2 ^ (64 * i) * (bs.getD i 0).toNat := Nat.mul_le_mul_left _ hlt
        rw [if_pos hlt, eq_comm, Nat.compare_eq_lt]
        rw [Nat.mul_add] at hmul
        omega
      · have hne : (as.getD i 0).toNat ≠ (bs.getD i 0).toNat :=
          fun h => heq (BitVec.eq_of_toNat_eq h)
        have hgt : (bs.getD i 0).toNat + 1 ≤ (as.getD i 0).toNat := by
          rw [BitVec.lt_def] at hlt; omega
        have hmul := Nat.mul_le_mul_left (2 ^ (64 * i)) hgt
        rw [if_neg hlt, eq_comm, Nat.compare_eq_gt]
        rw [Nat.mul_add] at hmul
        omega

def shl1 : List (BitVec 64) → BitVec 64 → List (BitVec 64)
  | [], _ => []
  | l :: ls, carry => ((l <<< 1) ||| carry) :: shl1 ls (l >>> 63)

theorem shl1_length (ls : List (BitVec 64)) (c : BitVec 64) : (shl1 ls c).length = ls.length := by
  induction ls generalizing c with
  | nil => rfl
  | cons l ls ih => simp only [shl1, List.length_cons, ih]

theorem shl1_limb_val (l : BitVec 64) {c : BitVec 64} (hc : c.toNat ≤ 1) :
    ((l <<< 1) ||| c).toNat + 2 ^ 64 * (l >>> 63).toNat = 2 * l.toNat + c.toNat ∧
      (l >>> 63).toNat ≤ 1 := by
  have hl := l.isLt
  have hhi : (l >>> 63).toNat = l.toNat / 2 ^ 63 := by
    rw [BitVec.toNat_ushiftRight, Nat.shiftRight_eq_div_pow]
  have hlo : (l <<< 1).toNat = 2 ^ 1 * (l.toNat % 2 ^ 63) := by
    rw [BitVec.toNat_shiftLeft, Nat.shiftLeft_eq]
    omega
  have hor : ((l <<< 1) ||| c).toNat = 2 ^ 1 * (l.toNat % 2 ^ 63) + c.toNat := by
    rw [BitVec.toNat_or, hlo, ← Nat.two_pow_add_eq_or_of_lt (by omega)]
  rw [hor, hhi]
  omega

/-- **Doubling a limb list**, up to the bit that leaves the top. -/
theorem val_shl1 (ls : List (BitVec 64)) {c : BitVec 64} (hc : c.toNat ≤ 1) :
    val (shl1 ls c) ≡ 2 * val ls + c.toNat [MOD 2 ^ (64 * ls.length)] := by
  induction ls generalizing c with
  | nil => exact Nat.modEq_one
  | cons l ls ih =>
    obtain ⟨hval, hc'⟩ := shl1_limb_val l hc
    have hup := ((ih hc').mul_left' (2 ^ 64)).add_left ((l <<< 1) ||| c).toNat
    have heq : ((l <<< 1) ||| c).toNat + 2 ^ 64 * (2 * val ls + (l >>> 63).toNat) =
        2 * (l.toNat + 2 ^ 64 * val ls) + c.toNat := by
      rw [Nat.mul_add, ← Nat.add_assoc, Nat.add_right_comm, hval]
      ring
    rw [heq] at hup
    simpa only [shl1, val_cons, List.length_cons, pow_succ_limb] using hup

/-!
A shift by `c` bits moves limbs by `c / 64` and funnels two neighbouring limbs into one by
`c % 64`.  Both directions are stated for one limb of the result. -/

theorem getLsbD_eq_shiftRight_and (x : BitVec 64) (j : ℕ) :
    ((x >>> j &&& 1#64) != 0#64) = x.getLsbD j := by
  have hbit : (x >>> j &&& 1#64) = BitVec.ofNat 64 (x.getLsbD j).toNat := by
    apply BitVec.eq_of_getLsbD_eq
    intro i hi
    rw [BitVec.getLsbD_and, BitVec.getLsbD_ushiftRight]
    rcases Nat.eq_zero_or_pos i with rfl | hpos
    · cases x.getLsbD j <;> simp
    · have h1 : (1#64).getLsbD i = false := by
        rw [BitVec.getLsbD_one]
        simp [hpos.ne']
      rw [h1, Bool.and_false]
      cases x.getLsbD j <;> simp [h1]
  rw [hbit]
  cases x.getLsbD j <;> rfl

def shrLimb (src : ℕ → BitVec 64) (c k : ℕ) : BitVec 64 :=
  if c % 64 = 0 then src (k + c / 64)
  else (src (k + c / 64) >>> (c % 64)) ||| (src (k + c / 64 + 1) <<< (64 - c % 64))

/-- The limb at position `k` of a left shift by `c`, with zeros shifted in. -/
def shlLimb (src : ℕ → BitVec 64) (c k : ℕ) : BitVec 64 :=
  let lo := if c / 64 ≤ k then src (k - c / 64) else 0#64
  let hi := if c / 64 + 1 ≤ k then src (k - c / 64 - 1) else 0#64
  if c % 64 = 0 then lo else (lo <<< (c % 64)) ||| (hi >>> (64 - c % 64))

theorem getLsbD_shrLimb (src : ℕ → BitVec 64) (c k : ℕ) {j : ℕ} (hj : j < 64) :
    (shrLimb src c k).getLsbD j =
      (src ((64 * k + j + c) / 64)).getLsbD ((64 * k + j + c) % 64) := by
  unfold shrLimb
  split
  · rename_i h0
    have hd : (64 * k + j + c) / 64 = k + c / 64 := by omega
    have hm : (64 * k + j + c) % 64 = j := by omega
    rw [hd, hm]
  · rename_i h0
    rw [BitVec.getLsbD_or, BitVec.getLsbD_ushiftRight, BitVec.getLsbD_shiftLeft]
    by_cases hlow : j + c % 64 < 64
    · -- the bit comes from the lower of the two limbs
      have hd : (64 * k + j + c) / 64 = k + c / 64 := by omega
      have hm : (64 * k + j + c) % 64 = c % 64 + j := by omega
      have hz : j < 64 - c % 64 := by omega
      simp [hd, hm, hz]
    · have hd : (64 * k + j + c) / 64 = k + c / 64 + 1 := by omega
      have hm : (64 * k + j + c) % 64 = j - (64 - c % 64) := by omega
      have hz : ¬ j < 64 - c % 64 := by omega
      have hge : 64 ≤ c % 64 + j := by omega
      simp [hd, hm, hz, hj, BitVec.getLsbD_of_ge _ _ hge]

theorem getLsbD_shlLimb (src : ℕ → BitVec 64) (c k : ℕ) {j : ℕ} (hj : j < 64) :
    (shlLimb src c k).getLsbD j =
      (decide (c ≤ 64 * k + j) &&
        (src ((64 * k + j - c) / 64)).getLsbD ((64 * k + j - c) % 64)) := by
  unfold shlLimb
  by_cases h0 : c % 64 = 0
  · simp only [h0, if_true]
    by_cases hk : c / 64 ≤ k
    · have hle : c ≤ 64 * k + j := by omega
      have hd : (64 * k + j - c) / 64 = k - c / 64 := by omega
      have hm : (64 * k + j - c) % 64 = j := by omega
      simp [hk, hle, hd, hm]
    · have hle : ¬ c ≤ 64 * k + j := by omega
      simp [hk, hle]
  · simp only [h0, if_false]
    rw [BitVec.getLsbD_or, BitVec.getLsbD_shiftLeft, BitVec.getLsbD_ushiftRight]
    by_cases hlow : c % 64 ≤ j
    · -- the bit comes from the upper of the two limbs
      have hz : ¬ j < c % 64 := by omega
      have hge : 64 ≤ 64 - c % 64 + j := by omega
      rw [BitVec.getLsbD_of_ge _ _ hge]
      by_cases hk : c / 64 ≤ k
      · have hle : c ≤ 64 * k + j := by omega
        have hd : (64 * k + j - c) / 64 = k - c / 64 := by omega
        have hm : (64 * k + j - c) % 64 = j - c % 64 := by omega
        simp [hk, hle, hd, hm, hz, hj]
      · have hle : ¬ c ≤ 64 * k + j := by omega
        simp [hk, hle]
    · have hz : j < c % 64 := by omega
      by_cases hk : c / 64 + 1 ≤ k
      · have hle : c ≤ 64 * k + j := by omega
        have hd : (64 * k + j - c) / 64 = k - c / 64 - 1 := by omega
        have hm : (64 * k + j - c) % 64 = 64 - c % 64 + j := by omega
        simp [hk, hle, hd, hm, hz]
      · have hle : ¬ c ≤ 64 * k + j := by omega
        simp [hk, hle, hz]

theorem div_two_pow_eq (n k : ℕ) :
    n / 2 ^ k = 2 * (n / 2 ^ (k + 1)) + (n.testBit k).toNat := by
  rw [Nat.toNat_testBit, pow_succ, ← Nat.div_div_eq_div_mul]
  omega

/-- **Bringing down a bit**: the doubled remainder with the bit decides the quotient's bit. -/
theorem divMod_bringDown {n n' d b : ℕ} (hd : 0 < d) (hn : n = 2 * n' + b) (hb : b ≤ 1) :
    (d ≤ 2 * (n' % d) + b → n / d = 2 * (n' / d) + 1 ∧ n % d = 2 * (n' % d) + b - d) ∧
      (¬ d ≤ 2 * (n' % d) + b → n / d = 2 * (n' / d) ∧ n % d = 2 * (n' % d) + b) := by
  have hdm := Nat.div_add_mod n' d
  have hlt := Nat.mod_lt n' hd
  have heven : d * (2 * (n' / d)) = 2 * (d * (n' / d)) := by ring
  have hodd : d * (2 * (n' / d) + 1) = 2 * (d * (n' / d)) + d := by ring
  refine ⟨fun hge => ?_, fun hlow => ?_⟩
  · exact (Nat.div_mod_unique hd).mpr ⟨by rw [hodd]; omega, by omega⟩
  · exact (Nat.div_mod_unique hd).mpr ⟨by rw [heven]; omega, by omega⟩

end DssPrime.Limbs
