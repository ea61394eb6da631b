import DssPrime.Lir.RegConstraints
import Mathlib

/-!
# The layout of a frame

The model of `computeFrameLayout` of `lir_callconv.cpp`: from the stack pointer up a frame holds the
outgoing arguments, the saved registers, the spill slots, the local allocas and the register-save
area of a variadic function.

Sizes are natural numbers: a frame of less than two gigabytes keeps every sum of the source, whose
numbers have 32 bits, exact.
-/

namespace DssPrime

def widthForClass (registers : List (LirRegClass × ℕ)) (cls : LirRegClass) : ℕ :=
  (registers.filter fun r => r.1 = cls).foldl (fun maxWidth r => max maxWidth r.2) 0

/-- The stride of the slots: the widest general or floating-point register, or what the classes
that occupy slots need beyond it. -/
def frameSlotStride (registers : List (LirRegClass × ℕ)) (occupants : List LirRegClass) : ℕ :=
  occupants.foldl (fun stride cls => max stride (widthForClass registers cls))
    (max (widthForClass registers .gpr) (widthForClass registers .fpr))

def alignUp (n align : ℕ) : ℕ := if align = 0 then n else (n + align - 1) / align * align

def alignedSizeWithBias (rawBytes stackAlignment entryBias : ℕ) : ℕ :=
  if stackAlignment = 0 then rawBytes
  else if rawBytes % stackAlignment = entryBias then rawBytes
  else rawBytes + (entryBias + stackAlignment - rawBytes % stackAlignment) % stackAlignment

def frameSlotPlacementAlign (allocaAlign frameAlign : ℕ) : ℕ :=
  if allocaAlign = 0 then 1 else if frameAlign < allocaAlign then frameAlign else allocaAlign

def frameSlotAlignHeadroom (allocaAlign frameAlign : ℕ) : ℕ :=
  if frameAlign < allocaAlign then allocaAlign - frameAlign else 0

def allocaSlotCount (payload slotWidth : ℕ) : ℕ :=
  if payload = 0 then 1 else (payload + slotWidth - 1) / slotWidth

structure FrameConvention where
  stackAlignment : ℕ
  shadowSpaceBytes : ℕ
  callPushBytes : ℕ
  stackProbePageBytes : ℕ

structure FrameRequest where
  savedRegs : List LirReg
  spilled : List LirRegClass
  numSpillSlots : ℕ
  hasCalls : Bool
  outgoingArgSlots : ℕ
  allocaPayloads : List ℕ
  perAllocaAligns : List ℕ
  vaRegSaveAreaBytes : ℕ
  maxLocalAlign : ℕ

def FrameRequest.allocas (req : FrameRequest) : List (ℕ × ℕ) :=
  req.allocaPayloads.zipIdx.map fun x => (x.1, req.perAllocaAligns.getD x.2 0)

def FrameRequest.occupants (req : FrameRequest) : List LirRegClass :=
  req.savedRegs.map (·.regClass) ++ req.spilled

/-- The zones of a frame. -/
structure FrameLayout where
  outgoingArgAreaSize : ℕ
  savedRegAreaSize : ℕ
  spillAreaSize : ℕ
  localAreaAlignPad : ℕ
  localAreaSize : ℕ
  vaRegSaveAreaSize : ℕ
  totalFrameSize : ℕ
  slotSize : ℕ
  outgoingSlotSize : ℕ
  stackProbePageBytes : ℕ
  allocaSlotOffsets : List ℕ
  savedRegs : List LirReg
  hasCalls : Bool

namespace FrameLayout

variable (l : FrameLayout)

def savedRegAreaOffset : ℕ := l.outgoingArgAreaSize

def spillAreaOffset : ℕ := l.outgoingArgAreaSize + l.savedRegAreaSize

def localAreaOffset : ℕ :=
  l.outgoingArgAreaSize + l.savedRegAreaSize + l.spillAreaSize + l.localAreaAlignPad

def vaRegSaveAreaOffset : ℕ := l.localAreaOffset + l.localAreaSize

end FrameLayout

def localOffsets (slotWidth frameAlign : ℕ) : ℕ → List (ℕ × ℕ) → List ℕ × ℕ
  | localRunning, [] => ([], localRunning)
  | localRunning, (payload, declared) :: rest =>
    let offset := alignUp localRunning (frameSlotPlacementAlign declared frameAlign)
    let span := allocaSlotCount payload slotWidth * slotWidth
    let r := localOffsets slotWidth frameAlign
      (offset + span + frameSlotAlignHeadroom declared frameAlign) rest
    (offset :: r.1, r.2)

def localAreaPad (rawLocalBase maxLocalAlign frameAlign : ℕ) : ℕ :=
  if 0 < maxLocalAlign then
    let baseAlign := frameSlotPlacementAlign maxLocalAlign frameAlign
    if rawLocalBase % baseAlign ≠ 0 then alignUp rawLocalBase baseAlign - rawLocalBase else 0
  else 0

def frameLayoutOf (slotWidth outgoingSlotSize : ℕ) (cc : FrameConvention) (req : FrameRequest) :
    FrameLayout :=
  let frameAlign := if 0 < cc.stackAlignment then cc.stackAlignment else 1
  let outgoing := if req.hasCalls then cc.shadowSpaceBytes + req.outgoingArgSlots * outgoingSlotSize
    else 0
  let saved := req.savedRegs.length * slotWidth
  let spill := req.numSpillSlots * slotWidth
  let locals := localOffsets slotWidth frameAlign 0 req.allocas
  let pad := localAreaPad (outgoing + saved + spill) req.maxLocalAlign frameAlign
  let rawPreShadow := outgoing + saved + spill + pad + locals.2 + req.vaRegSaveAreaBytes
  { outgoingArgAreaSize := outgoing
    savedRegAreaSize := saved
    spillAreaSize := spill
    localAreaAlignPad := pad
    localAreaSize := locals.2
    vaRegSaveAreaSize := req.vaRegSaveAreaBytes
    totalFrameSize :=
      if req.hasCalls || decide (0 < req.maxLocalAlign) then
        alignedSizeWithBias rawPreShadow frameAlign cc.callPushBytes
      else alignUp rawPreShadow frameAlign
    slotSize := slotWidth
    outgoingSlotSize := outgoingSlotSize
    stackProbePageBytes := cc.stackProbePageBytes
    allocaSlotOffsets := locals.1.map (outgoing + saved + spill + pad + ·)
    savedRegs := req.savedRegs
    hasCalls := req.hasCalls }

def computeFrameLayout (registers : List (LirRegClass × ℕ)) (cc : FrameConvention)
    (req : FrameRequest) : Option FrameLayout :=
  let slotWidth := frameSlotStride registers req.occupants
  if slotWidth = 0 then none
  else some (frameLayoutOf slotWidth (widthForClass registers .gpr) cc req)

end DssPrime
