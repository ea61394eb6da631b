import Mathlib

/-!
# A byte image as a sequence of bits

Bit `i` of an image is bit `i % 8` of its byte `i / 8`.  Everything a program stores into an image
or reads out of it in little-endian order is a statement about these bits: `store_bitAt` says which
bits a store of consecutive bytes changes, and `bits` reads any run of them as a bit vector.
-/

namespace DssPrime

namespace ByteImage

def bitAt (image : List UInt8) (i : ℕ) : Bool :=
  (image.getD (i / 8) 0).toBitVec.getLsbD (i % 8)

def bits (image : List UInt8) (start width : ℕ) : BitVec width :=
  BitVec.ofFnLE fun j : Fin width => bitAt image (start + j)

def store (image : List UInt8) (off n : ℕ) (f : ℕ → UInt8) : List UInt8 :=
  (List.range n).foldl (fun im b => im.set (off + b) (f b)) image

def byteOf {w : ℕ} (v : BitVec w) (b : ℕ) : UInt8 := UInt8.ofBitVec ((v >>> (8 * b)).setWidth 8)

variable {image : List UInt8} {off n i : ℕ} {f : ℕ → UInt8}

@[simp]
theorem getLsbD_bits (image : List UInt8) (start width j : ℕ) :
    (bits image start width).getLsbD j = (decide (j < width) && bitAt image (start + j)) := by
  rw [bits, BitVec.getLsbD_ofFnLE]
  split_ifs with h <;> simp [h]

theorem store_succ :
    store image off (n + 1) f = (store image off n f).set (off + n) (f n) := by
  simp [store, List.range_succ, List.foldl_append]

@[simp]
theorem length_store : (store image off n f).length = image.length := by
  induction n with
  | zero => rfl
  | succ n ih => rw [store_succ, List.length_set, ih]

theorem store_getD (h : off + n ≤ image.length) :
    (store image off n f).getD i 0 =
      if off ≤ i ∧ i < off + n then f (i - off) else image.getD i 0 := by
  induction n with
  | zero => simp [store]
  | succ n ih =>
    rw [store_succ]
    by_cases hi : i = off + n
    · subst hi
      have hlt : off + n < (store image off n f).length := by rw [length_store]; omega
      simp [List.getD_eq_getElem?_getD, List.getElem?_set_self hlt]
    · have hne : ((store image off n f).set (off + n) (f n)).getD i 0 =
          (store image off n f).getD i 0 := by
        simp only [List.getD_eq_getElem?_getD]
        rw [List.getElem?_set_ne (Ne.symm hi)]
      rw [hne, ih (by omega)]
      refine if_congr ⟨fun h => ⟨h.1, by omega⟩, fun h => ⟨h.1, by omega⟩⟩ rfl rfl

theorem getLsbD_byteOf {w : ℕ} (v : BitVec w) (b i : ℕ) (h : i < 8) :
    (byteOf v b).toBitVec.getLsbD i = v.getLsbD (8 * b + i) := by
  simp [byteOf, h]

theorem store_bitAt {w : ℕ} (v : BitVec w) (h : off + n ≤ image.length) :
    bitAt (store image off n (byteOf v)) i =
      if 8 * off ≤ i ∧ i < 8 * (off + n) then v.getLsbD (i - 8 * off) else bitAt image i := by
  rw [bitAt, store_getD h]
  by_cases hi : 8 * off ≤ i ∧ i < 8 * (off + n)
  · rw [if_pos (by omega), if_pos hi, getLsbD_byteOf _ _ _ (Nat.mod_lt _ (by decide))]
    congr 1
    omega
  · rw [if_neg (by omega), if_neg hi, bitAt]

end ByteImage

theorem setWidth_ofInt {v w : ℕ} (h : w ≤ v) (x : ℤ) :
    (BitVec.ofInt v x).setWidth w = BitVec.ofInt w x := by
  apply BitVec.eq_of_toNat_eq
  rw [BitVec.toNat_setWidth, BitVec.toNat_ofInt, BitVec.toNat_ofInt]
  have hd : ((2 ^ w : ℕ) : ℤ) ∣ ((2 ^ v : ℕ) : ℤ) := by
    exact_mod_cast pow_dvd_pow 2 h
  have hpos : (0 : ℤ) < ((2 ^ v : ℕ) : ℤ) := by positivity
  have hnn : 0 ≤ x % ((2 ^ v : ℕ) : ℤ) := Int.emod_nonneg _ hpos.ne'
  apply Int.natCast_inj.mp
  rw [Int.natCast_mod, Int.toNat_of_nonneg hnn, Int.emod_emod_of_dvd _ hd,
    Int.toNat_of_nonneg (Int.emod_nonneg _ (by positivity))]

theorem getLsbD_ofInt_of_le {v w : ℕ} (h : w ≤ v) (x : ℤ) {j : ℕ} (hj : j < w) :
    (BitVec.ofInt w x).getLsbD j = (BitVec.ofInt v x).getLsbD j := by
  rw [← setWidth_ofInt h, BitVec.getLsbD_setWidth]
  simp [hj]

theorem getLsbD_lowMask (w n i : ℕ) :
    (BitVec.ofNat w (2 ^ n - 1)).getLsbD i = decide (i < w ∧ i < n) := by
  rw [BitVec.getLsbD_ofNat, Nat.testBit_two_pow_sub_one]
  simp

end DssPrime
