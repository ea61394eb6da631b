import DssPrime.Bits.ByteImage
import DssPrime.Link.VeneerBodies

/-!
# Applying relocations to an executable's text

The model of `applyExecRelocations` (`link/format/exec_reloc_apply.hpp`), which patches every
relocation of a module into the text of its image, and of how a loader reads a patched field back.

A refusal keeps what the diagnostic reports.  The source patches in place and leaves the text half
patched when it refuses; its callers drop the image, so a refusal here carries no text.  An address
is a 64-bit word and the arithmetic on it is the signed one: `int64` wraps a sum to its signed
reading, which is the sum itself as long as no step overflows.
-/

namespace DssPrime

/-- A relocation row with the bounds the schema keeps. -/
structure ExecRelocationInfo extends TargetRelocationInfo where
  /-- The binary logarithm of the unit a scaled page offset counts in. -/
  scaleLog2 : ℕ
  width_word : formulaKind ≠ .linear → widthBytes = 4
  width_le : widthBytes ≤ 8
  bias_bound : -2 ^ 31 ≤ addendBias ∧ addendBias < 2 ^ 31
  scale_le : scaleLog2 ≤ 4

inductive ExecRelocRefusal where
  | emptyText
  | symbolUndefined (target : ℕ)
  | kindUnregistered (kind : ℕ)
  | noWidth (kind : ℕ)
  | overrun (offset width size : ℕ)
  | doesNotFit (value : ℤ) (bits : ℕ)
  | misaligned (value : ℤ) (unit : ℕ)
  | fieldDirty
  | negativeAddress (value : ℤ)
  | outsideThreadBlock (value : ℤ)
  | gotSlot (target : ℕ)

def ExecRelocRefusal.code : ExecRelocRefusal → String
  | .symbolUndefined _ => "K_SymbolUndefined"
  | _ => "K_RelocationKindMismatch"

def fitsSignedNBits (v : ℤ) (bits : ℕ) : Bool :=
  decide (-2 ^ (bits - 1) ≤ v ∧ v ≤ 2 ^ (bits - 1) - 1)

def readU32LEAt (text : List UInt8) (off : ℕ) : BitVec 32 :=
  (text.getD off 0).toBitVec.setWidth 32 |||
  (text.getD (off + 1) 0).toBitVec.setWidth 32 <<< 8 |||
  (text.getD (off + 2) 0).toBitVec.setWidth 32 <<< 16 |||
  (text.getD (off + 3) 0).toBitVec.setWidth 32 <<< 24

def writeU32LEAt (text : List UInt8) (off : ℕ) (v : BitVec 32) : List UInt8 :=
  ByteImage.store text off 4 (ByteImage.byteOf v)

/-- The bits of an immediate put into the instruction at an offset.  The instruction must come with
that field clear. -/
def patchInst32 (text : List UInt8) (off : ℕ) (mask imm : BitVec 32) :
    Except ExecRelocRefusal (List UInt8) :=
  let inst := readU32LEAt text off
  if inst &&& mask ≠ 0 then .error .fieldDirty
  else .ok (writeU32LEAt text off (inst ||| imm))

def branchMask (g : BranchRelocGeometry) : BitVec 32 :=
  if g.fieldBits ≥ 32 then 0xFFFFFFFF
  else BitVec.ofNat 32 (2 ^ g.fieldBits - 1) <<< g.lsb

def adrMask : BitVec 32 := (0x3 : BitVec 32) <<< 29 ||| (0x7FFFF : BitVec 32) <<< 5

def adrImm (value : ℤ) : BitVec 32 :=
  let v := BitVec.ofInt 32 value &&& 0x1FFFFF
  (v &&& 0x3) <<< 29 ||| ((v >>> 2) &&& 0x7FFFF) <<< 5

def imm12Mask : BitVec 32 := (0xFFF : BitVec 32) <<< 10

/-- A field and the numbers of its formula. -/
structure PatchSite where
  row : ExecRelocationInfo
  patchOff : ℕ
  S : ℕ
  A : ℤ
  P : ℕ
  target : ℕ

namespace PatchSite

def patchLinear (site : PatchSite) (text : List UInt8) : Except ExecRelocRefusal (List UInt8) :=
  let value := int64 (site.S + site.A + (if site.row.pcRelative then -(site.P : ℤ) else 0) +
    site.row.addendBias)
  if site.row.widthBytes < 8 ∧ !fitsSignedNBits value (8 * site.row.widthBytes) then
    .error (.doesNotFit value (8 * site.row.widthBytes))
  else
    .ok (ByteImage.store text site.patchOff site.row.widthBytes
      (ByteImage.byteOf (BitVec.ofInt 64 value)))

def patchCall26 (site : PatchSite) (text : List UInt8) : Except ExecRelocRefusal (List UInt8) :=
  let bg := branchRelocGeometry site.row.formulaKind
  let delta := int64 (site.S + site.A - site.P)
  if delta % 2 ^ bg.scaleLog2 ≠ 0 then .error (.misaligned delta (2 ^ bg.scaleLog2))
  else
    let value := delta / 2 ^ bg.scaleLog2
    if !fitsSignedNBits value bg.fieldBits then .error (.doesNotFit value bg.fieldBits)
    else
      patchInst32 text site.patchOff (branchMask bg)
        (BitVec.ofInt 32 value <<< bg.lsb &&& branchMask bg)

def patchAdrPrelPgHi21 (site : PatchSite) (text : List UInt8) :
    Except ExecRelocRefusal (List UInt8) :=
  let value := int64 (site.S + site.A) / 4096 - int64 site.P / 4096
  if !fitsSignedNBits value 21 then .error (.doesNotFit value 21)
  else patchInst32 text site.patchOff adrMask (adrImm value)

def patchAddAbsLo12 (site : PatchSite) (text : List UInt8) :
    Except ExecRelocRefusal (List UInt8) :=
  let SA := int64 (site.S + site.A)
  if SA < 0 then .error (.negativeAddress SA)
  else patchInst32 text site.patchOff imm12Mask ((BitVec.ofInt 32 SA &&& 0xFFF) <<< 10)

def patchLdstAbsLo12 (site : PatchSite) (text : List UInt8) :
    Except ExecRelocRefusal (List UInt8) :=
  let SA := int64 (site.S + site.A)
  if SA < 0 then .error (.negativeAddress SA)
  else
    let lo := (BitVec.ofInt 64 SA &&& 0xFFF).setWidth 32
    if lo.toNat % 2 ^ site.row.scaleLog2 ≠ 0 then
      .error (.misaligned lo.toNat (2 ^ site.row.scaleLog2))
    else patchInst32 text site.patchOff imm12Mask ((lo >>> site.row.scaleLog2) <<< 10)

def patchAdrPrelLo21 (site : PatchSite) (text : List UInt8) :
    Except ExecRelocRefusal (List UInt8) :=
  let value := int64 (site.S + site.A - site.P)
  if !fitsSignedNBits value 21 then .error (.doesNotFit value 21)
  else patchInst32 text site.patchOff adrMask (adrImm value)

/-- The upper 12 bits of a thread-pointer offset. -/
def patchTprelAddHi12 (site : PatchSite) (text : List UInt8) :
    Except ExecRelocRefusal (List UInt8) :=
  let SA := int64 (site.S + site.A)
  if SA < 0 ∨ SA > 0xFFFFFF then .error (.outsideThreadBlock SA)
  else
    patchInst32 text site.patchOff imm12Mask (((BitVec.ofInt 32 SA >>> 12) &&& 0xFFF) <<< 10)

def patch (site : PatchSite) (text : List UInt8) : Except ExecRelocRefusal (List UInt8) :=
  match site.row.formulaKind with
  | .linear => site.patchLinear text
  | .aarch64Call26 => site.patchCall26 text
  | .aarch64AdrPrelPgHi21 => site.patchAdrPrelPgHi21 text
  | .aarch64AddAbsLo12 => site.patchAddAbsLo12 text
  | .aarch64LdstAbsLo12 => site.patchLdstAbsLo12 text
  | .aarch64AdrPrelLo21 => site.patchAdrPrelLo21 text
  | .aarch64TprelAddHi12 => site.patchTprelAddHi12 text
  -- A slot of the global offset table is made before any writer runs.
  | .aarch64AdrGotPage | .aarch64Ld64GotLo12 | .x86_64GotPcRel => .error (.gotSlot site.target)

end PatchSite

/-- The image a module is placed in: what the applier is told besides the module. -/
structure ExecImage where
  relocationInfo : ℕ → Option ExecRelocationInfo
  symbolVa : ℕ → Option ℕ
  patchSectionVa : ℕ

namespace ExecImage

def resolve (im : ExecImage) (fn : AssembledFunction) (fnStart : ℕ) (rel : Relocation) :
    Except ExecRelocRefusal PatchSite :=
  match im.symbolVa rel.target with
  | none => .error (.symbolUndefined rel.target)
  | some S =>
    match im.relocationInfo rel.kind with
    | none => .error (.kindUnregistered rel.kind)
    | some row =>
      if row.widthBytes = 0 then .error (.noWidth rel.kind)
      else if rel.offset + row.widthBytes > fn.bytes.length then
        .error (.overrun rel.offset row.widthBytes fn.bytes.length)
      else
        let patchOff := fnStart + rel.offset
        .ok { row, patchOff, S, A := rel.addend, P := im.patchSectionVa + patchOff,
              target := rel.target }

def applyOne (im : ExecImage) (fn : AssembledFunction) (fnStart : ℕ) (text : List UInt8)
    (rel : Relocation) : Except ExecRelocRefusal (List UInt8) := do
  let site ← im.resolve fn fnStart rel
  site.patch text

def applyExecRelocations (im : ExecImage) (functions : List AssembledFunction)
    (funcTextStart : List ℕ) (text : List UInt8) : Except ExecRelocRefusal (List UInt8) :=
  if text.isEmpty then .error .emptyText
  else
    (functions.zip funcTextStart).foldlM
      (fun text f => f.1.relocations.foldlM (im.applyOne f.1 f.2) text) text

end ExecImage

end DssPrime
