import DssPrime.Link.ExecReloc
import DssPrime.Link.VeneerLayout

/-!
# A patched field reads back as its formula's value

A relocation's field is a set of bits of the text, given by where bit `j` of its value lies
(`fieldBit`). Over a whole module whose fields do not overlap, each field keeps what its own patch
stored.
-/

namespace DssPrime

open ByteImage

theorem getLsbD_readU32LEAt (text : List UInt8) (off : ℕ) {i : ℕ} (h : i < 32) :
    (readU32LEAt text off).getLsbD i = bitAt text (8 * off + i) := by
  have hbyte : ∀ k, i / 8 = k →
      bitAt text (8 * off + i) = (text.getD (off + k) 0).toBitVec.getLsbD (i - 8 * k) := by
    intro k hk
    rw [bitAt, show (8 * off + i) / 8 = off + k by omega,
      show (8 * off + i) % 8 = i - 8 * k by omega]
  -- Of the four bytes only the one the bit lies in can contribute.
  have hk : i / 8 = 0 ∨ i / 8 = 1 ∨ i / 8 = 2 ∨ i / 8 = 3 := by omega
  rcases hk with hk | hk | hk | hk <;> rw [hbyte _ hk] <;>
    simp only [readU32LEAt, BitVec.getLsbD_or, BitVec.getLsbD_shiftLeft, BitVec.getLsbD_setWidth]
  · rw [decide_eq_true (show i < 8 by omega), decide_eq_true (show i < 16 by omega),
      decide_eq_true (show i < 24 by omega)]
    simp [h]
  · rw [decide_eq_false (show ¬ i < 8 by omega), decide_eq_true (show i < 16 by omega),
      decide_eq_true (show i < 24 by omega), BitVec.getLsbD_of_ge _ i (by omega)]
    simp [h, show i - 8 < 32 by omega]
  · rw [decide_eq_false (show ¬ i < 16 by omega), decide_eq_true (show i < 24 by omega),
      BitVec.getLsbD_of_ge _ i (by omega), BitVec.getLsbD_of_ge _ (i - 8) (by omega)]
    simp [h, show i - 16 < 32 by omega]
  · rw [decide_eq_false (show ¬ i < 24 by omega), BitVec.getLsbD_of_ge _ i (by omega),
      BitVec.getLsbD_of_ge _ (i - 8) (by omega), BitVec.getLsbD_of_ge _ (i - 16) (by omega)]
    simp [h, show i - 24 < 32 by omega]

/-- An immediate lies in a word at the given places: the mask covers them and nothing else, and the
immediate has the value's bits there. -/
structure WordField (mask imm : BitVec 32) (w : ℕ) (place : ℕ → ℕ) (value : ℤ) : Prop where
  place_lt : ∀ j < w, place j < 32
  mask_iff : ∀ i < 32, mask.getLsbD i = true ↔ ∃ j < w, place j = i
  imm_place : ∀ j < w, imm.getLsbD (place j) = (BitVec.ofInt 64 value).getLsbD j
  imm_else : ∀ i < 32, (∀ j < w, place j ≠ i) → imm.getLsbD i = false

section WordField

variable {text text' : List UInt8} {off w : ℕ} {mask imm : BitVec 32} {place : ℕ → ℕ} {value : ℤ}

theorem inst_clear_iff (hf : WordField mask imm w place value) :
    readU32LEAt text off &&& mask = 0 ↔ ∀ j < w, bitAt text (8 * off + place j) = false := by
  constructor
  · intro h j hj
    have hlt := hf.place_lt j hj
    have hbit := congrArg (fun v => BitVec.getLsbD v (place j)) h
    simp only [BitVec.getLsbD_and, (hf.mask_iff _ hlt).mpr ⟨j, hj, rfl⟩, Bool.and_true] at hbit
    rw [← getLsbD_readU32LEAt _ _ hlt, hbit]
    simp
  · intro h
    refine BitVec.eq_of_getLsbD_eq fun i hi => ?_
    rw [BitVec.getLsbD_and]
    by_cases hm : mask.getLsbD i = true
    · obtain ⟨j, hj, rfl⟩ := (hf.mask_iff i hi).mp hm
      rw [getLsbD_readU32LEAt _ _ hi, h j hj]
      simp
    · simp [hm]

theorem patchInst32_eq_ok (h : patchInst32 text off mask imm = .ok text') :
    readU32LEAt text off &&& mask = 0 ∧
      text' = writeU32LEAt text off (readU32LEAt text off ||| imm) := by
  rw [patchInst32] at h
  split_ifs at h with hd
  exact ⟨not_not.mp hd, (Except.ok.inj h).symm⟩

theorem patchInst32_of_clear (hf : WordField mask imm w place value)
    (hclear : ∀ j < w, bitAt text (8 * off + place j) = false) :
    ∃ text', patchInst32 text off mask imm = .ok text' :=
  ⟨_, if_neg (not_not.mpr ((inst_clear_iff hf).mpr hclear))⟩

theorem patchInst32_bits (hf : WordField mask imm w place value) (hlen : off + 4 ≤ text.length)
    (h : patchInst32 text off mask imm = .ok text') :
    text'.length = text.length ∧
      (∀ j < w, bitAt text' (8 * off + place j) = (BitVec.ofInt 64 value).getLsbD j) ∧
      ∀ i, (∀ j < w, i ≠ 8 * off + place j) → bitAt text' i = bitAt text i := by
  obtain ⟨hclear, rfl⟩ := patchInst32_eq_ok h
  rw [inst_clear_iff hf] at hclear
  refine ⟨by simp [writeU32LEAt], fun j hj => ?_, fun i hi => ?_⟩
  · have hlt := hf.place_lt j hj
    rw [writeU32LEAt, store_bitAt _ hlen, if_pos (by omega), Nat.add_sub_cancel_left,
      BitVec.getLsbD_or, getLsbD_readU32LEAt _ _ hlt, hclear j hj, hf.imm_place j hj]
    rfl
  · rw [writeU32LEAt, store_bitAt _ hlen]
    split_ifs with hin
    · have hlt : i - 8 * off < 32 := by omega
      have hoff : ∀ j < w, place j ≠ i - 8 * off := by
        intro j hj he
        exact hi j hj (by omega)
      rw [BitVec.getLsbD_or, getLsbD_readU32LEAt _ _ hlt, hf.imm_else _ hlt hoff]
      simp [show 8 * off + (i - 8 * off) = i by omega]
    · rfl

end WordField

def adrPlace (j : ℕ) : ℕ := if j < 2 then 29 + j else 3 + j

theorem wordField_call26 (value : ℤ) :
    WordField (branchMask (branchRelocGeometry .aarch64Call26))
      (BitVec.ofInt 32 value <<< (branchRelocGeometry .aarch64Call26).lsb &&&
        branchMask (branchRelocGeometry .aarch64Call26)) 26 id value := by
  have hmask : ∀ i, (branchMask (branchRelocGeometry .aarch64Call26)).getLsbD i =
      decide (i < 26) := by
    intro i
    rw [branchMask, branchRelocGeometry, if_neg (by decide), BitVec.getLsbD_shiftLeft,
      getLsbD_lowMask]
    by_cases h : i < 26 <;> simp [h]
    omega
  refine ⟨fun j hj => by simp only [id]; omega, fun i _ => ?_, fun j hj => ?_, fun i _ h => ?_⟩
  · rw [hmask]
    simp
  · rw [BitVec.getLsbD_and, hmask, branchRelocGeometry, BitVec.getLsbD_shiftLeft,
      Nat.sub_zero, id, getLsbD_ofInt_of_le (by decide : 32 ≤ 64) _ (by omega)]
    simp [hj]
    omega
  · have hi : ¬ i < 26 := fun hi => h i hi rfl
    rw [BitVec.getLsbD_and, hmask]
    simp [hi]

theorem getLsbD_adrMask (i : ℕ) (h : i < 32) :
    adrMask.getLsbD i = decide ((5 ≤ i ∧ i < 24) ∨ (29 ≤ i ∧ i < 31)) := by
  revert i
  decide

theorem getLsbD_adrImm (value : ℤ) (i : ℕ) (h : i < 32) :
    (adrImm value).getLsbD i =
      if 29 ≤ i ∧ i < 31 then (BitVec.ofInt 64 value).getLsbD (i - 29)
      else if 5 ≤ i ∧ i < 24 then (BitVec.ofInt 64 value).getLsbD (i - 3) else false := by
  have hlo : (0x3 : BitVec 32) = BitVec.ofNat 32 (2 ^ 2 - 1) := rfl
  have hhi : (0x7FFFF : BitVec 32) = BitVec.ofNat 32 (2 ^ 19 - 1) := rfl
  have hv : (0x1FFFFF : BitVec 32) = BitVec.ofNat 32 (2 ^ 21 - 1) := rfl
  simp only [adrImm, hlo, hhi, hv, BitVec.getLsbD_or, BitVec.getLsbD_shiftLeft, BitVec.getLsbD_and,
    BitVec.getLsbD_ushiftRight, getLsbD_lowMask]
  split_ifs with h1 h2
  · rw [getLsbD_ofInt_of_le (by decide : 32 ≤ 64) _ (by omega : i - 29 < 32)]
    have : ¬ i - 5 < 19 := by omega
    simp [this, show i - 29 < 2 by omega, show i - 29 < 32 by omega, show i - 29 < 21 by omega, h]
    omega
  · rw [show 2 + (i - 5) = i - 3 by omega,
      getLsbD_ofInt_of_le (by decide : 32 ≤ 64) _ (by omega : i - 3 < 32)]
    simp [show i < 29 by omega, show ¬ i < 5 by omega, h, show i - 3 < 32 by omega,
      show i - 3 < 21 by omega, show i - 5 < 19 by omega]
    omega
  · by_cases h5 : i < 5
    · simp [h5, show i < 29 by omega]
    · by_cases h29 : i < 29
      · simp [h29, show ¬ i - 5 < 19 by omega]
      · simp [h29, show ¬ i - 29 < 2 by omega, show ¬ i - 5 < 19 by omega]

theorem wordField_adr (value : ℤ) : WordField adrMask (adrImm value) 21 adrPlace value := by
  refine ⟨fun j hj => ?_, fun i hi => ?_, fun j hj => ?_, fun i hi h => ?_⟩
  · rw [adrPlace]
    split_ifs <;> omega
  · rw [getLsbD_adrMask i hi, decide_eq_true_iff]
    constructor
    · rintro (h | h)
      · exact ⟨i - 3, by omega, by rw [adrPlace, if_neg (by omega)]; omega⟩
      · exact ⟨i - 29, by omega, by rw [adrPlace, if_pos (by omega)]; omega⟩
    · rintro ⟨j, hj, rfl⟩
      rw [adrPlace]
      split_ifs <;> omega
  · by_cases h2 : j < 2
    · rw [adrPlace, if_pos h2, getLsbD_adrImm _ _ (by omega), if_pos (by omega),
        Nat.add_sub_cancel_left]
    · rw [adrPlace, if_neg h2, getLsbD_adrImm _ _ (by omega), if_neg (by omega),
        if_pos (by omega), Nat.add_sub_cancel_left]
  · rw [getLsbD_adrImm _ _ hi, if_neg, if_neg]
    · intro hin
      exact h (i - 3) (by omega) (by rw [adrPlace, if_neg (by omega)]; omega)
    · intro hin
      exact h (i - 29) (by omega) (by rw [adrPlace, if_pos (by omega)]; omega)

theorem wordField_imm12 {v : BitVec 32} {value : ℤ}
    (hv : ∀ j < 12, v.getLsbD j = (BitVec.ofInt 64 value).getLsbD j)
    (hhigh : ∀ j, 12 ≤ j → v.getLsbD j = false) :
    WordField imm12Mask (v <<< 10) 12 (10 + ·) value := by
  have hmask : ∀ i < 32, imm12Mask.getLsbD i = decide (10 ≤ i ∧ i < 22) := by decide
  refine ⟨fun j hj => by omega, fun i hi => ?_, fun j hj => ?_, fun i hi h => ?_⟩
  · rw [hmask i hi, decide_eq_true_iff]
    exact ⟨fun h => ⟨i - 10, by omega, by omega⟩, fun ⟨j, _, _⟩ => by omega⟩
  · rw [BitVec.getLsbD_shiftLeft, Nat.add_sub_cancel_left, hv j hj]
    simp [show 10 + j < 32 by omega]
  · rw [BitVec.getLsbD_shiftLeft]
    by_cases h10 : i < 10
    · simp [h10]
    · have h22 : 12 ≤ i - 10 := by
        by_contra hc
        exact h (i - 10) (by omega) (by omega)
      simp [hhigh _ h22]

theorem getLsbD_of_toNat {v : BitVec 32} {x : ℤ} (hx : 0 ≤ x) (hv : v.toNat = x.toNat)
    (hlt : x < 4096) :
    (∀ j < 12, v.getLsbD j = (BitVec.ofInt 64 x).getLsbD j) ∧
      ∀ j, 12 ≤ j → v.getLsbD j = false := by
  obtain ⟨n, rfl⟩ := Int.eq_ofNat_of_zero_le hx
  have hvn : v.toNat = n := by simpa using hv
  have hn : n < 2 ^ 12 := by norm_num; omega
  constructor
  · intro j hj
    rw [BitVec.ofInt_natCast, BitVec.getLsbD_ofNat, ← BitVec.testBit_toNat,
      hvn]
    simp [show j < 64 by omega]
  · intro j hj
    rw [← BitVec.testBit_toNat, hvn]
    exact Nat.testBit_eq_false_of_lt (lt_of_lt_of_le hn (Nat.pow_le_pow_right (by decide) hj))

theorem toNat_and_lowMask12 {w : ℕ} (hw : 12 ≤ w) (v : BitVec w) :
    (v &&& BitVec.ofNat w 0xFFF).toNat = v.toNat % 4096 := by
  have hlt : 4095 < 2 ^ w := lt_of_lt_of_le (by norm_num) (Nat.pow_le_pow_right (by decide) hw)
  rw [BitVec.toNat_and, BitVec.toNat_ofNat, Nat.mod_eq_of_lt hlt]
  exact Nat.and_two_pow_sub_one_eq_mod v.toNat 12

namespace PatchSite

/-- The address aimed at, read as a signed word: an offset from the thread pointer is no address
and may be negative. -/
def aim (site : PatchSite) : ℤ := int64 (site.S + site.A)

/-- The addresses are far from the ends of the address space. -/
def Addressable (site : PatchSite) : Prop :=
  -2 ^ 61 ≤ site.aim ∧ site.aim < 2 ^ 62 ∧ site.P < 2 ^ 62

def fieldBits (site : PatchSite) : ℕ :=
  match site.row.formulaKind with
  | .linear => 8 * site.row.widthBytes
  | .aarch64Call26 => 26
  | .aarch64AdrPrelPgHi21 | .aarch64AdrPrelLo21 => 21
  | .aarch64AddAbsLo12 | .aarch64LdstAbsLo12 | .aarch64TprelAddHi12 => 12
  | .aarch64AdrGotPage | .aarch64Ld64GotLo12 | .x86_64GotPcRel => 0

/-- Where bit `j` of a field's value lies, counted from the field's first byte. -/
def fieldPlace (site : PatchSite) (j : ℕ) : ℕ :=
  match site.row.formulaKind with
  | .aarch64AdrPrelPgHi21 | .aarch64AdrPrelLo21 => adrPlace j
  | .aarch64AddAbsLo12 | .aarch64LdstAbsLo12 | .aarch64TprelAddHi12 => 10 + j
  | _ => j

def fieldBit (site : PatchSite) (j : ℕ) : ℕ := 8 * site.patchOff + site.fieldPlace j

def delta (site : PatchSite) : ℤ := site.aim - site.P

def linearValue (site : PatchSite) : ℤ :=
  site.aim - (if site.row.pcRelative then (site.P : ℤ) else 0) + site.row.addendBias

def pageDelta (site : PatchSite) : ℤ := site.aim / 4096 - site.P / 4096

def fieldValue (site : PatchSite) : ℤ :=
  match site.row.formulaKind with
  | .linear => site.linearValue
  | .aarch64Call26 => site.delta / 4
  | .aarch64AdrPrelPgHi21 => site.pageDelta
  | .aarch64AdrPrelLo21 => site.delta
  | .aarch64AddAbsLo12 => site.aim % 4096
  | .aarch64LdstAbsLo12 => site.aim % 4096 / 2 ^ site.row.scaleLog2
  | .aarch64TprelAddHi12 => site.aim / 4096
  | .aarch64AdrGotPage | .aarch64Ld64GotLo12 | .x86_64GotPcRel => 0

def InRange (site : PatchSite) : Prop :=
  match site.row.formulaKind with
  | .linear => site.row.widthBytes < 8 → fitsSignedNBits site.linearValue (8 * site.row.widthBytes)
  | .aarch64Call26 => site.delta % 4 = 0 ∧ fitsSignedNBits (site.delta / 4) 26
  | .aarch64AdrPrelPgHi21 => fitsSignedNBits site.pageDelta 21
  | .aarch64AdrPrelLo21 => fitsSignedNBits site.delta 21
  | .aarch64AddAbsLo12 => 0 ≤ site.aim
  | .aarch64LdstAbsLo12 => 0 ≤ site.aim ∧ site.aim % 4096 % 2 ^ site.row.scaleLog2 = 0
  | .aarch64TprelAddHi12 => 0 ≤ site.aim ∧ site.aim ≤ 0xFFFFFF
  | .aarch64AdrGotPage | .aarch64Ld64GotLo12 | .x86_64GotPcRel => False

def Clear (site : PatchSite) (text : List UInt8) : Prop :=
  site.row.formulaKind ≠ .linear → ∀ j < site.fieldBits, bitAt text (site.fieldBit j) = false

def Stored (site : PatchSite) (text : List UInt8) : Prop :=
  ∀ j < site.fieldBits,
    bitAt text (site.fieldBit j) = (BitVec.ofInt 64 site.fieldValue).getLsbD j

/-- The field holds its value, and no other bit changed. -/
structure Patched (site : PatchSite) (text text' : List UInt8) : Prop where
  length_eq : text'.length = text.length
  stored : site.Stored text'
  frame : ∀ i, (∀ j < site.fieldBits, i ≠ site.fieldBit j) → bitAt text' i = bitAt text i

variable {site : PatchSite} {text text' : List UInt8}

theorem int64_aim (site : PatchSite) : int64 (site.S + site.A) = site.aim := by
  rw [aim]

theorem int64_aim_add (site : PatchSite) (x : ℤ) :
    int64 (site.S + site.A + x) = int64 (site.aim + x) :=
  Int.bmod_add_bmod.symm

theorem int64_delta (h : site.Addressable) : int64 (site.S + site.A - site.P) = site.delta := by
  obtain ⟨hl, hu, hp⟩ := h
  rw [sub_eq_add_neg, int64_aim_add, ← sub_eq_add_neg]
  exact int64_of_mem (by unfold int64Min; omega) (by unfold int64Max; omega)

theorem linearValue_mem (h : site.Addressable) :
    int64Min ≤ site.linearValue ∧ site.linearValue ≤ int64Max := by
  obtain ⟨hl, hu, hp⟩ := h
  have hb := site.row.bias_bound
  unfold linearValue int64Min int64Max
  split_ifs <;> omega

theorem int64_linearValue (h : site.Addressable) :
    int64 (site.S + site.A + (if site.row.pcRelative then -(site.P : ℤ) else 0) +
      site.row.addendBias) = site.linearValue := by
  have hv : site.aim + ((if site.row.pcRelative then -(site.P : ℤ) else 0) +
      site.row.addendBias) = site.linearValue := by
    unfold linearValue
    split_ifs <;> ring
  rw [add_assoc, int64_aim_add, hv]
  exact int64_of_mem (linearValue_mem h).1 (linearValue_mem h).2

def PatchesWord (site : PatchSite) (text : List UInt8) : Prop :=
  (site.InRange → ∃ mask imm,
    WordField mask imm site.fieldBits site.fieldPlace site.fieldValue ∧
      site.patch text = patchInst32 text site.patchOff mask imm) ∧
  (¬ site.InRange → ∃ e, site.patch text = .error e)

theorem patchesWord_call26 (h : site.Addressable) (hkind : site.row.formulaKind = .aarch64Call26) :
    site.PatchesWord text := by
  have hplace : site.fieldPlace = id := by
    funext j
    simp [fieldPlace, hkind]
  simp only [PatchesWord, InRange, fieldBits, hplace, fieldValue, patch, patchCall26, hkind,
    int64_delta h]
  constructor
  · rintro ⟨hmod, hfits⟩
    refine ⟨_, _, wordField_call26 _, ?_⟩
    simp [branchRelocGeometry, hmod, hfits]
  · intro hnot
    by_cases hmod : site.delta % 4 = 0
    · have hfits : fitsSignedNBits (site.delta / 4) 26 = false :=
        Bool.eq_false_iff.mpr fun hf => hnot ⟨hmod, hf⟩
      simp [branchRelocGeometry, hmod, hfits]
    · simp [branchRelocGeometry, hmod]

theorem patchesWord_adr (value : ℤ) (hplace : site.fieldPlace = adrPlace)
    (hbits : site.fieldBits = 21) (hvalue : site.fieldValue = value)
    (hrange : site.InRange ↔ fitsSignedNBits value 21 = true)
    (hpatch : site.patch text = if !fitsSignedNBits value 21 then .error (.doesNotFit value 21)
      else patchInst32 text site.patchOff adrMask (adrImm value)) :
    site.PatchesWord text := by
  rw [PatchesWord, hrange, hplace, hbits, hvalue, hpatch]
  refine ⟨fun hfits => ⟨_, _, wordField_adr value, ?_⟩, fun hnot => ?_⟩
  · rw [hfits]
    rfl
  · rw [Bool.eq_false_iff.mpr hnot]
    exact ⟨_, rfl⟩

theorem patchesWord_adrPrelPgHi21 (h : site.Addressable)
    (hkind : site.row.formulaKind = .aarch64AdrPrelPgHi21) : site.PatchesWord text := by
  have hP : int64 (site.P : ℤ) = site.P := int64_natCast (by have := h.2.2; omega)
  refine patchesWord_adr site.pageDelta (funext fun j => ?_) ?_ ?_ ?_ ?_
  · simp only [fieldPlace, hkind]
  · simp only [fieldBits, hkind]
  · simp only [fieldValue, hkind]
  · simp only [InRange, hkind]
  · simp only [patch, hkind, patchAdrPrelPgHi21, int64_aim, hP]
    rfl

theorem patchesWord_adrPrelLo21 (h : site.Addressable)
    (hkind : site.row.formulaKind = .aarch64AdrPrelLo21) : site.PatchesWord text := by
  refine patchesWord_adr site.delta (funext fun j => ?_) ?_ ?_ ?_ ?_
  · simp only [fieldPlace, hkind]
  · simp only [fieldBits, hkind]
  · simp only [fieldValue, hkind]
  · simp only [InRange, hkind]
  · simp only [patch, hkind, patchAdrPrelLo21, int64_delta h]

theorem patchesWord_imm12 {v : BitVec 32} (hplace : site.fieldPlace = (10 + ·))
    (hbits : site.fieldBits = 12)
    (hvalue : site.InRange → 0 ≤ site.fieldValue ∧ site.fieldValue < 4096 ∧
      v.toNat = site.fieldValue.toNat)
    (hpatch : site.InRange → site.patch text = patchInst32 text site.patchOff imm12Mask (v <<< 10))
    (herror : ¬ site.InRange → ∃ e, site.patch text = .error e) :
    site.PatchesWord text := by
  refine ⟨fun hr => ?_, herror⟩
  obtain ⟨hnn, hlt, hv⟩ := hvalue hr
  obtain ⟨hlow, hhigh⟩ := getLsbD_of_toNat hnn hv hlt
  rw [hplace, hbits]
  exact ⟨_, _, wordField_imm12 hlow hhigh, hpatch hr⟩

theorem toNat_aim (site : PatchSite) {w : ℕ} (hw : 12 ≤ w) :
    (BitVec.ofInt w site.aim).toNat % 4096 = (site.aim % 4096).toNat := by
  have hd : ((2 ^ 12 : ℕ) : ℤ) ∣ ((2 ^ w : ℕ) : ℤ) := by exact_mod_cast pow_dvd_pow 2 hw
  apply Int.natCast_inj.mp
  rw [BitVec.toNat_ofInt, Int.natCast_mod, Int.toNat_of_nonneg (Int.emod_nonneg _ (by positivity)),
    Int.toNat_of_nonneg (Int.emod_nonneg _ (by decide))]
  exact Int.emod_emod_of_dvd _ hd

theorem patchesWord_addAbsLo12 (hkind : site.row.formulaKind = .aarch64AddAbsLo12) :
    site.PatchesWord text := by
  refine patchesWord_imm12 (v := BitVec.ofInt 32 site.aim &&& 0xFFF)
    (funext fun j => ?_) ?_ ?_ ?_ ?_
  · simp only [fieldPlace, hkind]
  · simp only [fieldBits, hkind]
  · simp only [InRange, fieldValue, hkind]
    intro _
    refine ⟨Int.emod_nonneg _ (by decide), Int.emod_lt_of_pos _ (by decide), ?_⟩
    exact (toNat_and_lowMask12 (by decide) _).trans (site.toNat_aim (by decide))
  · simp only [InRange, patch, patchAddAbsLo12, hkind, int64_aim]
    exact fun hnn => if_neg (not_lt.mpr hnn)
  · simp only [InRange, patch, patchAddAbsLo12, hkind, int64_aim]
    exact fun hnot => ⟨_, if_pos (not_le.mp hnot)⟩

theorem toNat_lo12 (site : PatchSite) :
    ((BitVec.ofInt 64 site.aim &&& 0xFFF).setWidth 32).toNat = (site.aim % 4096).toNat := by
  have hlo : (BitVec.ofInt 64 site.aim &&& 0xFFF).toNat = (site.aim % 4096).toNat :=
    (toNat_and_lowMask12 (by decide) _).trans (site.toNat_aim (by decide))
  rw [BitVec.toNat_setWidth, hlo]
  omega

theorem patchesWord_ldstAbsLo12 (hkind : site.row.formulaKind = .aarch64LdstAbsLo12) :
    site.PatchesWord text := by
  have hmod : (site.aim % 4096).toNat % 2 ^ site.row.scaleLog2 = 0 ↔
      site.aim % 4096 % 2 ^ site.row.scaleLog2 = 0 := by
    obtain ⟨n, hn⟩ :=
      Int.eq_ofNat_of_zero_le (Int.emod_nonneg site.aim (by decide : (4096 : ℤ) ≠ 0))
    rw [hn, Int.toNat_natCast]
    exact_mod_cast Iff.rfl
  refine patchesWord_imm12
    (v := (BitVec.ofInt 64 site.aim &&& 0xFFF).setWidth 32 >>> site.row.scaleLog2)
    (funext fun j => ?_) ?_ ?_ ?_ ?_
  · simp only [fieldPlace, hkind]
  · simp only [fieldBits, hkind]
  · simp only [InRange, fieldValue, hkind]
    intro _
    obtain ⟨n, hn⟩ :=
      Int.eq_ofNat_of_zero_le (Int.emod_nonneg site.aim (by decide : (4096 : ℤ) ≠ 0))
    have hlt : n < 4096 := by
      have := Int.emod_lt_of_pos site.aim (by decide : (0 : ℤ) < 4096)
      omega
    have hdiv : (n : ℤ) / 2 ^ site.row.scaleLog2 = ((n / 2 ^ site.row.scaleLog2 : ℕ) : ℤ) := by
      push_cast
      rfl
    have hle := Nat.div_le_self n (2 ^ site.row.scaleLog2)
    rw [BitVec.toNat_ushiftRight, site.toNat_lo12, hn, hdiv, Nat.shiftRight_eq_div_pow]
    exact ⟨by positivity, by omega, rfl⟩
  · simp only [InRange, patch, patchLdstAbsLo12, hkind, int64_aim]
    rintro ⟨hnn, hz⟩
    rw [if_neg (not_lt.mpr hnn), site.toNat_lo12, if_neg (not_not.mpr (hmod.mpr hz))]
  · simp only [InRange, patch, patchLdstAbsLo12, hkind, int64_aim]
    intro hnot
    by_cases hnn : 0 ≤ site.aim
    · rw [if_neg (not_lt.mpr hnn), site.toNat_lo12,
        if_pos fun hz => hnot ⟨hnn, hmod.mp hz⟩]
      exact ⟨_, rfl⟩
    · exact ⟨_, if_pos (not_le.mp hnn)⟩

theorem patchesWord_tprelAddHi12 (hkind : site.row.formulaKind = .aarch64TprelAddHi12) :
    site.PatchesWord text := by
  refine patchesWord_imm12 (v := (BitVec.ofInt 32 site.aim >>> 12) &&& 0xFFF)
    (funext fun j => ?_) ?_ ?_ ?_ ?_
  · simp only [fieldPlace, hkind]
  · simp only [fieldBits, hkind]
  · simp only [InRange, fieldValue, hkind]
    rintro ⟨hnn, hle⟩
    obtain ⟨n, hn⟩ := Int.eq_ofNat_of_zero_le hnn
    refine ⟨by omega, by omega, ?_⟩
    rw [hn] at hle ⊢
    have hto : (BitVec.ofInt 32 ((n : ℕ) : ℤ)).toNat = n := by
      rw [BitVec.ofInt_natCast, BitVec.toNat_ofNat]
      omega
    refine (toNat_and_lowMask12 (by decide) _).trans ?_
    rw [BitVec.toNat_ushiftRight, hto, Nat.shiftRight_eq_div_pow]
    omega
  · simp only [InRange, patch, patchTprelAddHi12, hkind, int64_aim]
    exact fun hr => if_neg (by omega)
  · simp only [InRange, patch, patchTprelAddHi12, hkind, int64_aim]
    exact fun hnot => ⟨_, if_pos (by omega)⟩

theorem patchesWord_of_ne_linear (h : site.Addressable) (hk : site.row.formulaKind ≠ .linear) :
    site.PatchesWord text := by
  cases hkind : site.row.formulaKind with
  | linear => exact absurd hkind hk
  | aarch64Call26 => exact patchesWord_call26 h hkind
  | aarch64AdrPrelPgHi21 => exact patchesWord_adrPrelPgHi21 h hkind
  | aarch64AdrPrelLo21 => exact patchesWord_adrPrelLo21 h hkind
  | aarch64AddAbsLo12 => exact patchesWord_addAbsLo12 hkind
  | aarch64LdstAbsLo12 => exact patchesWord_ldstAbsLo12 hkind
  | aarch64TprelAddHi12 => exact patchesWord_tprelAddHi12 hkind
  | aarch64AdrGotPage | aarch64Ld64GotLo12 | x86_64GotPcRel =>
    refine ⟨fun hr => ?_, fun _ => ⟨_, by rw [patch, hkind]⟩⟩
    simp [InRange, hkind] at hr

theorem patched_linear (h : site.Addressable) (hkind : site.row.formulaKind = .linear)
    (hlen : site.patchOff + site.row.widthBytes ≤ text.length)
    (hok : site.patch text = .ok text') : site.InRange ∧ site.Patched text text' := by
  simp only [patch, patchLinear, hkind, int64_linearValue h] at hok
  split_ifs at hok with hfit
  refine ⟨?_, ?_⟩
  · simp only [InRange, hkind]
    intro hw
    by_contra hnot
    exact hfit ⟨hw, by simpa using hnot⟩
  · obtain rfl := Except.ok.inj hok
    have hw := site.row.width_le
    refine ⟨by simp, fun j hj => ?_, fun i hi => ?_⟩
    · simp only [fieldBits, hkind] at hj
      simp only [fieldBit, fieldPlace, fieldValue, hkind]
      rw [store_bitAt _ hlen, if_pos (by omega), Nat.add_sub_cancel_left]
    · rw [store_bitAt _ hlen]
      split_ifs with hin
      · simp only [fieldBits, fieldBit, fieldPlace, hkind] at hi
        exact absurd (show i = 8 * site.patchOff + (i - 8 * site.patchOff) by omega)
          (hi _ (by omega))
      · rfl

theorem patched_of_ok (h : site.Addressable)
    (hlen : site.patchOff + site.row.widthBytes ≤ text.length)
    (hok : site.patch text = .ok text') : site.InRange ∧ site.Patched text text' := by
  by_cases hk : site.row.formulaKind = .linear
  · exact patched_linear h hk hlen hok
  · obtain ⟨hword, herror⟩ : site.PatchesWord text := patchesWord_of_ne_linear h hk
    by_cases hr : site.InRange
    · obtain ⟨mask, imm, hf, hpatch⟩ := hword hr
      rw [site.row.width_word hk] at hlen
      rw [hpatch] at hok
      obtain ⟨hl, hs, hfr⟩ := patchInst32_bits hf hlen hok
      exact ⟨hr, hl, hs, hfr⟩
    · obtain ⟨e, he⟩ := herror hr
      rw [he] at hok
      cases hok

theorem patch_of_inRange (h : site.Addressable) (hr : site.InRange) (hc : site.Clear text) :
    ∃ text', site.patch text = .ok text' := by
  by_cases hk : site.row.formulaKind = .linear
  · simp only [patch, patchLinear, hk, int64_linearValue h]
    simp only [InRange, hk] at hr
    refine ⟨_, if_neg ?_⟩
    rintro ⟨hw, hnot⟩
    rw [hr hw] at hnot
    cases hnot
  · obtain ⟨mask, imm, hf, hpatch⟩ := (patchesWord_of_ne_linear h hk).1 hr
    rw [hpatch]
    exact patchInst32_of_clear hf (hc hk)

def unit (site : PatchSite) : ℤ := 2 ^ (branchRelocGeometry site.row.formulaKind).scaleLog2

def InWindow (site : PatchSite) (w : RelocReach) : Prop :=
  w.minDelta ≤ site.delta ∧ site.delta ≤ w.maxDelta

theorem fitsSignedNBits_iff {v : ℤ} {n : ℕ} :
    fitsSignedNBits v n = true ↔ -2 ^ (n - 1) ≤ v ∧ v ≤ 2 ^ (n - 1) - 1 := by
  simp [fitsSignedNBits]

theorem inRange_of_inWindow {w : RelocReach}
    (hw : relocFieldReach site.row.toTargetRelocationInfo = some w) (hin : site.InWindow w)
    (hunit : site.unit ∣ site.delta) : site.InRange := by
  obtain ⟨hl, hu⟩ := hin
  cases hkind : site.row.formulaKind with
  | aarch64Call26 =>
    simp only [relocFieldReach, hkind, branchRelocGeometry, Option.some.injEq] at hw
    subst hw
    simp only [unit, hkind, branchRelocGeometry] at hunit
    simp only [branchRelocFieldMin, branchRelocFieldMax] at hl hu
    simp only [InRange, hkind, fitsSignedNBits_iff]
    norm_num at hl hu hunit ⊢
    omega
  | aarch64AdrPrelPgHi21 =>
    simp only [relocFieldReach, hkind, Option.some.injEq] at hw
    subst hw
    simp only [InRange, hkind, fitsSignedNBits_iff, pageDelta]
    simp only [delta] at hl hu
    norm_num at hl hu ⊢
    omega
  | aarch64AdrPrelLo21 =>
    simp only [relocFieldReach, hkind, Option.some.injEq] at hw
    subst hw
    simp only [InRange, hkind, fitsSignedNBits_iff]
    exact ⟨hl, hu⟩
  | linear =>
    simp only [relocFieldReach, hkind] at hw
    split_ifs at hw with hc
    obtain rfl := Option.some.inj hw
    push Not at hc
    simp only [InRange, hkind, fitsSignedNBits_iff, linearValue, delta] at hl hu ⊢
    intro _
    rw [if_pos (by simpa using hc.1)]
    omega
  | _ => simp [relocFieldReach, hkind] at hw

theorem inWindow_of_inRange {w : RelocReach}
    (hw : relocFieldReach site.row.toTargetRelocationInfo = some w)
    (hk : site.row.formulaKind ≠ .aarch64AdrPrelPgHi21) (hr : site.InRange) :
    site.InWindow w ∧ site.unit ∣ site.delta := by
  cases hkind : site.row.formulaKind with
  | aarch64Call26 =>
    simp only [relocFieldReach, hkind, branchRelocGeometry, Option.some.injEq] at hw
    subst hw
    simp only [InRange, hkind, fitsSignedNBits_iff] at hr
    simp only [InWindow, unit, hkind, branchRelocGeometry, branchRelocFieldMin,
      branchRelocFieldMax]
    norm_num at hr ⊢
    omega
  | aarch64AdrPrelPgHi21 => exact absurd hkind hk
  | aarch64AdrPrelLo21 =>
    simp only [relocFieldReach, hkind, Option.some.injEq] at hw
    subst hw
    simp only [InRange, hkind, fitsSignedNBits_iff] at hr
    exact ⟨hr, by simp [unit, hkind, branchRelocGeometry]⟩
  | linear =>
    simp only [relocFieldReach, hkind] at hw
    split_ifs at hw with hc
    obtain rfl := Option.some.inj hw
    push Not at hc
    simp only [InRange, hkind, fitsSignedNBits_iff, linearValue] at hr
    rw [if_pos (by simpa using hc.1)] at hr
    have hval := hr hc.2.2
    refine ⟨?_, by simp [unit, hkind, branchRelocGeometry]⟩
    simp only [InWindow, delta]
    omega
  | _ => simp [relocFieldReach, hkind] at hw

/-- A field as the processor or the loader reads it: a plain field is a signed number, a branch
counts words, the split immediate is put together and sign-extended, a page offset is unsigned and
counts accesses. -/
def decode (site : PatchSite) (text : List UInt8) : ℤ :=
  let inst := readU32LEAt text site.patchOff
  match site.row.formulaKind with
  | .linear => (bits text (8 * site.patchOff) (8 * site.row.widthBytes)).toInt
  | .aarch64Call26 => 4 * (inst.extractLsb' 0 26).toInt
  | .aarch64AdrPrelPgHi21 | .aarch64AdrPrelLo21 =>
    (inst.extractLsb' 5 19 ++ inst.extractLsb' 29 2).toInt
  | .aarch64AddAbsLo12 | .aarch64TprelAddHi12 => (inst.extractLsb' 10 12).toNat
  | .aarch64LdstAbsLo12 => 2 ^ site.row.scaleLog2 * (inst.extractLsb' 10 12).toNat
  | .aarch64AdrGotPage | .aarch64Ld64GotLo12 | .x86_64GotPcRel => 0

def formulaValue (site : PatchSite) : ℤ :=
  match site.row.formulaKind with
  | .linear => site.linearValue
  | .aarch64Call26 | .aarch64AdrPrelLo21 => site.delta
  | .aarch64AdrPrelPgHi21 => site.pageDelta
  | .aarch64AddAbsLo12 | .aarch64LdstAbsLo12 => site.aim % 4096
  | .aarch64TprelAddHi12 => site.aim / 4096
  | .aarch64AdrGotPage | .aarch64Ld64GotLo12 | .x86_64GotPcRel => 0

theorem toInt_of_bits {n : ℕ} {x : BitVec n} {v : ℤ} (hn : 0 < n) (hle : n ≤ 64)
    (hfit : -2 ^ (n - 1) ≤ v ∧ v ≤ 2 ^ (n - 1) - 1)
    (hbits : ∀ j < n, x.getLsbD j = (BitVec.ofInt 64 v).getLsbD j) : x.toInt = v := by
  have hx : x = BitVec.ofInt n v :=
    BitVec.eq_of_getLsbD_eq fun j hj => by rw [hbits j hj, getLsbD_ofInt_of_le hle v hj]
  rw [hx]
  exact BitVec.toInt_ofInt_eq_self hn hfit.1 (by omega)

theorem toNat_of_bits {n : ℕ} {x : BitVec n} {v : ℤ} (hle : n ≤ 64) (hfit : 0 ≤ v ∧ v < 2 ^ n)
    (hbits : ∀ j < n, x.getLsbD j = (BitVec.ofInt 64 v).getLsbD j) : (x.toNat : ℤ) = v := by
  have hx : x = BitVec.ofInt n v :=
    BitVec.eq_of_getLsbD_eq fun j hj => by rw [hbits j hj, getLsbD_ofInt_of_le hle v hj]
  rw [hx, BitVec.toNat_ofInt, Int.toNat_of_nonneg (Int.emod_nonneg _ (by positivity))]
  exact Int.emod_eq_of_lt hfit.1 (by push_cast; exact hfit.2)

theorem imm12_of_stored (hplace : site.fieldPlace = (10 + ·)) (hbits : site.fieldBits = 12)
    (hfit : 0 ≤ site.fieldValue ∧ site.fieldValue < 4096) (hs : site.Stored text) :
    (((readU32LEAt text site.patchOff).extractLsb' 10 12).toNat : ℤ) = site.fieldValue := by
  refine toNat_of_bits (by decide) (by norm_num; exact hfit) fun j hj => ?_
  have hbit := hs j (by omega)
  rw [fieldBit, hplace] at hbit
  rw [BitVec.getLsbD_extractLsb', getLsbD_readU32LEAt _ _ (by omega), hbit]
  simp [hj]

theorem adr_of_stored (hplace : site.fieldPlace = adrPlace) (hbits : site.fieldBits = 21)
    (hfit : fitsSignedNBits site.fieldValue 21 = true) (hs : site.Stored text) :
    ((readU32LEAt text site.patchOff).extractLsb' 5 19 ++
      (readU32LEAt text site.patchOff).extractLsb' 29 2).toInt = site.fieldValue := by
  refine toInt_of_bits (by decide) (by decide) (fitsSignedNBits_iff.mp hfit) fun j hj => ?_
  have hbit := hs j (by omega)
  rw [fieldBit, hplace, adrPlace] at hbit
  rw [BitVec.getLsbD_append]
  split_ifs at hbit ⊢ with h2
  · rw [BitVec.getLsbD_extractLsb', getLsbD_readU32LEAt _ _ (by omega), hbit]
    simp [h2]
  · rw [BitVec.getLsbD_extractLsb', getLsbD_readU32LEAt _ _ (by omega),
      show 5 + (j - 2) = 3 + j by omega, hbit]
    simp [show j - 2 < 19 by omega]

theorem decode_of_stored (h : site.Addressable) (hwidth : site.row.widthBytes ≠ 0)
    (hr : site.InRange) (hs : site.Stored text) : site.decode text = site.formulaValue := by
  cases hkind : site.row.formulaKind with
  | linear =>
    have hw := site.row.width_le
    have hmem := linearValue_mem h
    simp only [InRange, hkind, fitsSignedNBits_iff] at hr
    simp only [Stored, fieldBits, fieldBit, fieldPlace, fieldValue, hkind] at hs
    simp only [decode, formulaValue, hkind]
    refine toInt_of_bits (by omega) (by omega) ?_ fun j hj => ?_
    · rcases lt_or_eq_of_le hw with hlt | heq
      · exact hr hlt
      · rw [heq]
        exact hmem
    · rw [getLsbD_bits, hs j hj]
      simp [hj]
  | aarch64Call26 =>
    simp only [InRange, hkind, fitsSignedNBits_iff] at hr
    simp only [Stored, fieldBits, fieldBit, fieldPlace, fieldValue, hkind] at hs
    simp only [decode, formulaValue, hkind]
    have hfield : ((readU32LEAt text site.patchOff).extractLsb' 0 26).toInt = site.delta / 4 := by
      refine toInt_of_bits (by decide) (by decide) hr.2 fun j hj => ?_
      rw [BitVec.getLsbD_extractLsb', getLsbD_readU32LEAt _ _ (by omega), Nat.zero_add, hs j hj]
      simp [hj]
    rw [hfield]
    have := hr.1
    omega
  | aarch64AdrPrelPgHi21 =>
    simp only [InRange, hkind] at hr
    have hv : site.fieldValue = site.pageDelta := by simp only [fieldValue, hkind]
    have hadr := adr_of_stored (funext fun j => by simp only [fieldPlace, hkind])
      (by simp only [fieldBits, hkind]) (by rw [hv]; exact hr) hs
    simp only [decode, formulaValue, hkind]
    rw [hadr, hv]
  | aarch64AdrPrelLo21 =>
    simp only [InRange, hkind] at hr
    have hv : site.fieldValue = site.delta := by simp only [fieldValue, hkind]
    have hadr := adr_of_stored (funext fun j => by simp only [fieldPlace, hkind])
      (by simp only [fieldBits, hkind]) (by rw [hv]; exact hr) hs
    simp only [decode, formulaValue, hkind]
    rw [hadr, hv]
  | aarch64AddAbsLo12 =>
    have hv : site.fieldValue = site.aim % 4096 := by simp only [fieldValue, hkind]
    have himm := imm12_of_stored (funext fun j => by simp only [fieldPlace, hkind])
      (by simp only [fieldBits, hkind]) (by rw [hv]; omega) hs
    simp only [decode, formulaValue, hkind]
    rw [himm, hv]
  | aarch64LdstAbsLo12 =>
    simp only [InRange, hkind] at hr
    have hv : site.fieldValue = site.aim % 4096 / 2 ^ site.row.scaleLog2 := by
      simp only [fieldValue, hkind]
    have hle : site.aim % 4096 / 2 ^ site.row.scaleLog2 ≤ site.aim % 4096 :=
      Int.ediv_le_self _ (Int.emod_nonneg _ (by decide))
    have hnn : 0 ≤ site.aim % 4096 / 2 ^ site.row.scaleLog2 :=
      Int.ediv_nonneg (Int.emod_nonneg _ (by decide)) (by positivity)
    have himm := imm12_of_stored (funext fun j => by simp only [fieldPlace, hkind])
      (by simp only [fieldBits, hkind]) (by rw [hv]; omega) hs
    simp only [decode, formulaValue, hkind]
    rw [himm, hv]
    exact Int.mul_ediv_cancel_of_emod_eq_zero hr.2
  | aarch64TprelAddHi12 =>
    simp only [InRange, hkind] at hr
    have hv : site.fieldValue = site.aim / 4096 := by simp only [fieldValue, hkind]
    have himm := imm12_of_stored (funext fun j => by simp only [fieldPlace, hkind])
      (by simp only [fieldBits, hkind]) (by rw [hv]; omega) hs
    simp only [decode, formulaValue, hkind]
    rw [himm, hv]
  | _ => simp [InRange, hkind] at hr

def Disjoint (site site' : PatchSite) : Prop :=
  ∀ j < site.fieldBits, ∀ k < site'.fieldBits, site.fieldBit j ≠ site'.fieldBit k

instance : DecidableRel Disjoint := fun site site' =>
  inferInstanceAs (Decidable
    (∀ j < site.fieldBits, ∀ k < site'.fieldBits, site.fieldBit j ≠ site'.fieldBit k))

def Inside (site : PatchSite) (length : ℕ) : Prop :=
  site.row.widthBytes ≠ 0 ∧ site.patchOff + site.row.widthBytes ≤ length

def patchAll (sites : List PatchSite) (text : List UInt8) : Except ExecRelocRefusal (List UInt8) :=
  sites.foldlM (fun text site => site.patch text) text

theorem patchAll_cons_eq_ok {sites : List PatchSite}
    (h : patchAll (site :: sites) text = .ok text') :
    ∃ mid, site.patch text = .ok mid ∧ patchAll sites mid = .ok text' := by
  rw [patchAll, List.foldlM_cons] at h
  cases hp : site.patch text with
  | error e =>
    rw [hp] at h
    cases h
  | ok mid =>
    rw [hp] at h
    exact ⟨mid, rfl, h⟩

theorem patchAll_frame {sites : List PatchSite} {text : List UInt8}
    (haddr : ∀ s ∈ sites, s.Addressable) (hin : ∀ s ∈ sites, s.Inside text.length)
    (hok : patchAll sites text = .ok text') :
    text'.length = text.length ∧ (∀ s ∈ sites, s.InRange) ∧
      ∀ i, (∀ s ∈ sites, ∀ j < s.fieldBits, i ≠ s.fieldBit j) → bitAt text' i = bitAt text i := by
  induction sites generalizing text with
  | nil =>
    obtain rfl := Except.ok.inj hok
    simp
  | cons s rest ih =>
    obtain ⟨mid, hp, hrest⟩ := patchAll_cons_eq_ok hok
    have hs : s.Addressable := haddr s List.mem_cons_self
    obtain ⟨hr, hlen, -, hframe⟩ := patched_of_ok hs (hin s List.mem_cons_self).2 hp
    obtain ⟨hlen', hr', hframe'⟩ := ih (fun s' h => haddr s' (List.mem_cons_of_mem _ h))
      (fun s' h => hlen ▸ hin s' (List.mem_cons_of_mem _ h)) hrest
    refine ⟨hlen'.trans hlen, ?_, fun i hi => ?_⟩
    · intro s' hs'
      rcases List.mem_cons.mp hs' with rfl | hmem
      · exact hr
      · exact hr' s' hmem
    · rw [hframe' i fun s' h => hi s' (List.mem_cons_of_mem _ h),
        hframe i (hi s List.mem_cons_self)]

theorem patchAll_stored {sites : List PatchSite} {text : List UInt8}
    (haddr : ∀ s ∈ sites, s.Addressable) (hin : ∀ s ∈ sites, s.Inside text.length)
    (hdisj : sites.Pairwise Disjoint) (hok : patchAll sites text = .ok text') :
    ∀ s ∈ sites, s.Stored text' := by
  induction sites generalizing text with
  | nil => simp
  | cons s rest ih =>
    obtain ⟨mid, hp, hrest⟩ := patchAll_cons_eq_ok hok
    obtain ⟨hhead, htail⟩ := List.pairwise_cons.mp hdisj
    obtain ⟨-, hlen, hstored, -⟩ :=
      patched_of_ok (haddr s List.mem_cons_self) (hin s List.mem_cons_self).2 hp
    have haddr' : ∀ s' ∈ rest, s'.Addressable := fun s' h => haddr s' (List.mem_cons_of_mem _ h)
    have hin' : ∀ s' ∈ rest, s'.Inside mid.length :=
      fun s' h => hlen ▸ hin s' (List.mem_cons_of_mem _ h)
    obtain ⟨-, -, hframe⟩ := patchAll_frame haddr' hin' hrest
    intro s' hs'
    rcases List.mem_cons.mp hs' with rfl | hmem
    · intro j hj
      rw [hframe _ fun s' h k hk => hhead s' h j hj k hk]
      exact hstored j hj
    · exact ih haddr' hin' htail hrest s' hmem

theorem patchAll_isOk {sites : List PatchSite} {text : List UInt8}
    (haddr : ∀ s ∈ sites, s.Addressable) (hin : ∀ s ∈ sites, s.Inside text.length)
    (hdisj : sites.Pairwise Disjoint) (hr : ∀ s ∈ sites, s.InRange)
    (hc : ∀ s ∈ sites, s.Clear text) : ∃ text', patchAll sites text = .ok text' := by
  induction sites generalizing text with
  | nil => exact ⟨text, rfl⟩
  | cons s rest ih =>
    obtain ⟨hhead, htail⟩ := List.pairwise_cons.mp hdisj
    have hs : s.Addressable := haddr s List.mem_cons_self
    obtain ⟨mid, hp⟩ := patch_of_inRange hs (hr s List.mem_cons_self) (hc s List.mem_cons_self)
    obtain ⟨-, hlen, -, hframe⟩ := patched_of_ok hs (hin s List.mem_cons_self).2 hp
    -- The first patch leaves the other fields clear: it has no bit in common with them.
    have hclear : ∀ s' ∈ rest, s'.Clear mid := by
      intro s' hs' hk j hj
      rw [hframe _ fun k hk' => (hhead s' hs' k hk' j hj).symm]
      exact hc s' (List.mem_cons_of_mem _ hs') hk j hj
    obtain ⟨text', hrest⟩ := ih (fun s' h => haddr s' (List.mem_cons_of_mem _ h))
      (fun s' h => hlen ▸ hin s' (List.mem_cons_of_mem _ h)) htail
      (fun s' h => hr s' (List.mem_cons_of_mem _ h)) hclear
    refine ⟨text', ?_⟩
    rw [patchAll, List.foldlM_cons, hp]
    exact hrest

end PatchSite

namespace ExecImage

/-- The relocations of a module in the order they are applied, each with its function and where
that lies in the text. -/
def placedRelocations (functions : List AssembledFunction) (funcTextStart : List ℕ) :
    List (AssembledFunction × ℕ × Relocation) :=
  (functions.zip funcTextStart).flatMap fun f => f.1.relocations.map fun rel => (f.1, f.2, rel)

def patchSites (im : ExecImage) (functions : List AssembledFunction) (funcTextStart : List ℕ) :
    List PatchSite :=
  (placedRelocations functions funcTextStart).filterMap fun r =>
    (im.resolve r.1 r.2.1 r.2.2).toOption

def Resolves (im : ExecImage) (functions : List AssembledFunction) (funcTextStart : List ℕ) :
    Prop :=
  ∀ r ∈ placedRelocations functions funcTextStart, ∃ site, im.resolve r.1 r.2.1 r.2.2 = .ok site

def Placed (functions : List AssembledFunction) (funcTextStart : List ℕ) (text : List UInt8) :
    Prop :=
  functions.length = funcTextStart.length ∧
    ∀ f ∈ functions.zip funcTextStart, f.2 + f.1.bytes.length ≤ text.length

variable {im : ExecImage} {functions : List AssembledFunction} {funcTextStart : List ℕ}
  {text text' : List UInt8}

theorem foldlM_map_eq {fn : AssembledFunction} {start : ℕ} (rels : List Relocation)
    (text : List UInt8) :
    rels.foldlM (im.applyOne fn start) text =
      (rels.map fun rel => (fn, start, rel)).foldlM
        (fun text r => im.applyOne r.1 r.2.1 text r.2.2) text := by
  rw [List.foldlM_map]

theorem applyExecRelocations_eq (h : text ≠ []) :
    im.applyExecRelocations functions funcTextStart text =
      (placedRelocations functions funcTextStart).foldlM
        (fun text r => im.applyOne r.1 r.2.1 text r.2.2) text := by
  rw [applyExecRelocations, if_neg (by simpa using h), placedRelocations]
  generalize functions.zip funcTextStart = fs
  clear h
  induction fs generalizing text with
  | nil => rfl
  | cons f rest ih =>
    rw [List.foldlM_cons, List.flatMap_cons, List.foldlM_append, ← foldlM_map_eq]
    exact bind_congr fun mid => ih

theorem foldlM_applyOne_eq_ok {rs : List (AssembledFunction × ℕ × Relocation)} :
    rs.foldlM (fun text r => im.applyOne r.1 r.2.1 text r.2.2) text = .ok text' ↔
      (∀ r ∈ rs, ∃ site, im.resolve r.1 r.2.1 r.2.2 = .ok site) ∧
        PatchSite.patchAll (rs.filterMap fun r => (im.resolve r.1 r.2.1 r.2.2).toOption) text =
          .ok text' := by
  induction rs generalizing text with
  | nil => simp [PatchSite.patchAll]
  | cons r rest ih =>
    rw [List.foldlM_cons]
    cases hres : im.resolve r.1 r.2.1 r.2.2 with
    | error e =>
      constructor
      · intro h
        rw [applyOne, hres] at h
        cases h
      · rintro ⟨hall, -⟩
        obtain ⟨site, hsite⟩ := hall r List.mem_cons_self
        rw [hres] at hsite
        cases hsite
    | ok site =>
      have hone : im.applyOne r.1 r.2.1 text r.2.2 = site.patch text := by
        rw [applyOne, hres]
        rfl
      rw [List.filterMap_cons_some (by rw [hres]; rfl), PatchSite.patchAll, List.foldlM_cons, hone]
      simp only [List.forall_mem_cons, hres, Except.ok.injEq, exists_eq', true_and]
      cases hp : site.patch text with
      | error e =>
        constructor
        · intro h
          cases h
        · rintro ⟨-, h⟩
          cases h
      | ok mid => exact ih

theorem resolve_eq_ok {fn : AssembledFunction} {start : ℕ} {rel : Relocation} {site : PatchSite}
    (h : im.resolve fn start rel = .ok site) :
    site.Inside (start + fn.bytes.length) := by
  simp only [resolve] at h
  split at h
  · cases h
  · split at h
    · cases h
    · split_ifs at h with hw ho
      obtain rfl := Except.ok.inj h
      refine ⟨hw, ?_⟩
      simp only
      omega

theorem inside_of_placed (hplaced : Placed functions funcTextStart text) :
    ∀ s ∈ im.patchSites functions funcTextStart, s.Inside text.length := by
  intro s hs
  obtain ⟨r, hr, hopt⟩ := List.mem_filterMap.mp hs
  obtain ⟨f, hf, hmap⟩ := List.mem_flatMap.mp hr
  obtain ⟨rel, -, rfl⟩ := List.mem_map.mp hmap
  cases hres : im.resolve f.1 f.2 rel with
  | error e =>
    simp only [hres] at hopt
    cases hopt
  | ok site =>
    simp only [hres] at hopt
    obtain rfl := Option.some.inj hopt
    obtain ⟨hw, hend⟩ := resolve_eq_ok hres
    exact ⟨hw, hend.trans (hplaced.2 f hf)⟩

/-- The value of a field can be encoded: where the row has a window the distance lies in it, on a
unit of the field; elsewhere the formula's own condition holds. -/
def Encodable (site : PatchSite) : Prop :=
  match relocFieldReach site.row.toTargetRelocationInfo with
  | some w => site.InWindow w ∧ site.unit ∣ site.delta
  | none => site.InRange

theorem inRange_of_encodable {site : PatchSite} (h : Encodable site) : site.InRange := by
  unfold Encodable at h
  split at h
  · next w hw => exact PatchSite.inRange_of_inWindow hw h.1 h.2
  · exact h

/-- The windows and the applier agree. -/
theorem applyExecRelocations_spec (im : ExecImage) (functions : List AssembledFunction)
    (funcTextStart : List ℕ) (text : List UInt8) (hplaced : Placed functions funcTextStart text)
    (haddr : ∀ s ∈ im.patchSites functions funcTextStart, s.Addressable) :
    (text ≠ [] → im.Resolves functions funcTextStart →
      (im.patchSites functions funcTextStart).Pairwise PatchSite.Disjoint →
      (∀ s ∈ im.patchSites functions funcTextStart, Encodable s ∧ s.Clear text) →
      ∃ text', im.applyExecRelocations functions funcTextStart text = .ok text') ∧
    ∀ text', im.applyExecRelocations functions funcTextStart text = .ok text' →
      (∀ s ∈ im.patchSites functions funcTextStart, ∀ w,
        relocFieldReach s.row.toTargetRelocationInfo = some w →
        s.row.formulaKind ≠ .aarch64AdrPrelPgHi21 → s.InWindow w) ∧
      text'.length = text.length ∧
      (∀ i, (∀ s ∈ im.patchSites functions funcTextStart, ∀ j < s.fieldBits, i ≠ s.fieldBit j) →
        bitAt text' i = bitAt text i) ∧
      ((im.patchSites functions funcTextStart).Pairwise PatchSite.Disjoint →
        ∀ s ∈ im.patchSites functions funcTextStart, s.decode text' = s.formulaValue) := by
  have hin : ∀ s ∈ im.patchSites functions funcTextStart, s.Inside text.length :=
    inside_of_placed hplaced
  refine ⟨fun hne hres hdisj henc => ?_, fun text' hok => ?_⟩
  · obtain ⟨text', hrun⟩ := PatchSite.patchAll_isOk haddr hin hdisj
      (fun s hs => inRange_of_encodable (henc s hs).1) fun s hs => (henc s hs).2
    exact ⟨text', (applyExecRelocations_eq hne).trans (foldlM_applyOne_eq_ok.mpr ⟨hres, hrun⟩)⟩
  · have hne : text ≠ [] := by
      rintro rfl
      cases hok
    rw [applyExecRelocations_eq hne, foldlM_applyOne_eq_ok] at hok
    obtain ⟨hlen, hrange, hframe⟩ := PatchSite.patchAll_frame haddr hin hok.2
    refine ⟨fun s hs w hw hk => (PatchSite.inWindow_of_inRange hw hk (hrange s hs)).1, hlen, hframe,
      fun hdisj s hs => ?_⟩
    exact PatchSite.decode_of_stored (haddr s hs) (hin s hs).1 (hrange s hs)
      (PatchSite.patchAll_stored haddr hin hdisj hok.2 s hs)

def demoCallRow : ExecRelocationInfo :=
  ⟨⟨.aarch64Call26, false, 4, 0⟩, 0, by decide, by decide, by decide, by decide⟩

def demoDataRow : ExecRelocationInfo :=
  ⟨⟨.linear, true, 4, -4⟩, 0, by decide, by decide, by decide, by decide⟩

def demoImage : ExecImage where
  relocationInfo := fun kind =>
    if kind = 1 then some demoCallRow else if kind = 2 then some demoDataRow else none
  symbolVa := fun symbol => if symbol = 7 then some 0x401000 else none
  patchSectionVa := 0x400000

/-- A call of the symbol, and after it the distance to the symbol as data. -/
def demoFunction : AssembledFunction where
  bytes := [0, 0, 0, 0x94, 0, 0, 0, 0]
  relocations := [{ offset := 0, target := 7, kind := 1 }, { offset := 4, target := 7, kind := 2 }]

theorem applyExecRelocations_demo :
    ∃ text', demoImage.applyExecRelocations [demoFunction] [0] demoFunction.bytes = .ok text' ∧
      ∀ s ∈ demoImage.patchSites [demoFunction] [0], s.decode text' = s.formulaValue := by
  have hlist : demoImage.patchSites [demoFunction] [0] =
      [⟨demoCallRow, 0, 0x401000, 0, 0x400000, 7⟩,
        ⟨demoDataRow, 4, 0x401000, 0, 0x400004, 7⟩] := rfl
  have hdisj : (demoImage.patchSites [demoFunction] [0]).Pairwise PatchSite.Disjoint := by
    decide
  have haddr : ∀ s ∈ demoImage.patchSites [demoFunction] [0], s.Addressable := by
    rw [hlist]
    simp [PatchSite.Addressable, PatchSite.aim, int64]
  have henc : ∀ s ∈ demoImage.patchSites [demoFunction] [0],
      Encodable s ∧ s.Clear demoFunction.bytes := by
    rw [hlist]
    simp only [List.forall_mem_cons, List.not_mem_nil, false_implies, implies_true, and_true]
    refine ⟨⟨⟨⟨by decide, by decide⟩, by decide⟩, fun _ => by decide⟩,
      ⟨⟨⟨by decide, by decide⟩, by decide⟩, fun h => absurd rfl h⟩⟩
  obtain ⟨haccept, hsound⟩ := applyExecRelocations_spec demoImage [demoFunction] [0]
    demoFunction.bytes ⟨rfl, by decide⟩ haddr
  have hres : demoImage.Resolves [demoFunction] [0] := by
    intro r hr
    have hr' : r = (demoFunction, 0, { offset := 0, target := 7, kind := 1 }) ∨
        r = (demoFunction, 0, { offset := 4, target := 7, kind := 2 }) := by
      simpa [placedRelocations, demoFunction] using hr
    rcases hr' with rfl | rfl
    · exact ⟨_, rfl⟩
    · exact ⟨_, rfl⟩
  obtain ⟨text', hok⟩ := haccept (by decide) hres hdisj henc
  exact ⟨text', hok, (hsound text' hok).2.2.2 hdisj⟩

end ExecImage

end DssPrime
