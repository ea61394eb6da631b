import DssPrime.Lir.RegAlloc

/-!
# Parallel register moves

The model of how `lir_callconv.cpp` writes a set of simultaneous register copies as a sequence of
instructions (`emitParallelRegMoves`): a move whose destination nobody waits to read is written, and
when there is none, the source of one move is copied to a scratch register and all its readers are
sent there.

A move may read a spill slot instead of a register.  Such a load takes its offset directly, or, out
of the reach of every form, through a register that gets the address first.
-/

namespace DssPrime

/-- One copy of the set: `dst` gets the value of `src`, or of the spill slot `memSlotV`. -/
structure RegMove where
  dst : LirReg
  src : LirReg
  isMemSrc : Bool
  memSlotV : ℕ
  deriving DecidableEq

/-- The instructions a copy is written as.  A load of a slot and the computation of its address read
the base register of the frame; `loadAt` reads the register that holds the address. -/
inductive MoveInst where
  | mov (dst src : ℕ)
  | frameLoad (dst base offset : ℕ)
  | lea (dst base offset : ℕ)
  | loadAt (dst addr : ℕ)
  deriving DecidableEq

section Step

variable {V : Type} (addr : V → ℕ → V) (mem : V → V)

/-- What an instruction does to the registers; `addr` gives the address at an offset from a base
value and `mem` what the memory holds there. -/
def MoveInst.step (regs : ℕ → V) : MoveInst → ℕ → V
  | .mov dst src => Function.update regs dst (regs src)
  | .frameLoad dst base offset => Function.update regs dst (mem (addr (regs base) offset))
  | .lea dst base offset => Function.update regs dst (addr (regs base) offset)
  | .loadAt dst a => Function.update regs dst (mem (regs a))

/-- The registers after a whole sequence. -/
def runMoves (regs : ℕ → V) (code : List MoveInst) : ℕ → V :=
  code.foldl (MoveInst.step addr mem) regs

end Step

/-- What the target and the calling convention say about moves and loads. -/
structure MoveTarget where
  registers : List TargetRegister
  cc : TargetCallingConvention
  moveOp : LirRegClass → Bool
  loadOp : LirRegClass → Bool
  naturalWidth : LirRegClass → Bool
  /-- Whether a form of the load of a class carries an offset. -/
  reaches : LirRegClass → ℕ → Bool
  leaOp : Bool

/-- The register a far frame access may put its address in. -/
structure FrameMemCtx where
  scratch : Option LirReg

/-- How the spill slots are reached: the base register, where the spill area starts and how far
apart its slots are. -/
structure MemSrcLoadCtx where
  valid : Bool
  sp : LirReg
  spillAreaOffset : ℕ
  slotSize : ℕ
  frameCtx : Option FrameMemCtx

/-- The ways a set of moves is refused. -/
inductive MoveRefusal where
  | noScratch
  | noMoveOp
  | noFrameGeometry
  | noLoadOp
  | noFrameContext
  | noWidth
  | noAddressRegister
  | addressIsBase
  | noLea
  | unreachable
  | onlyMemorySources
  deriving DecidableEq

def spillSlotOffset (spillAreaOffset slotSize slotV : ℕ) : ℕ :=
  spillAreaOffset + (slotV - 1) * slotSize

/-- The offset from the base of the slot that a memory source reads. -/
def RegMove.offset (memCtx : MemSrcLoadCtx) (m : RegMove) : ℕ :=
  spillSlotOffset memCtx.spillAreaOffset memCtx.slotSize m.memSlotV

/-- The value the source of a move has: of its register, or of its slot in the frame. -/
def RegMove.value {V : Type} (addr : V → ℕ → V) (mem : V → V) (memCtx : MemSrcLoadCtx)
    (regs : ℕ → V) (m : RegMove) : V :=
  if m.isMemSrc then mem (addr (regs memCtx.sp.id) (m.offset memCtx)) else regs m.src.id

/-- A load out of the reach of every form: its address goes through a register, its own if that can
hold one. -/
def emitFarFrameLoad (t : MoveTarget) (ctx : FrameMemCtx) (reg base : LirReg) (offset : ℕ) :
    Except MoveRefusal (List MoveInst) :=
  let selfAddressed := decide (reg.regClass = base.regClass)
  match if selfAddressed then some reg else ctx.scratch with
  | none => .error .noAddressRegister
  | some addr =>
    if !selfAddressed && addr.id = base.id then .error .addressIsBase
    else if !t.leaOp then .error .noLea
    else if !t.reaches reg.regClass 0 then .error .unreachable
    else .ok [.lea addr.id base.id offset, .loadAt reg.id addr.id]

/-- The load of a slot, in the short form where one carries the offset. -/
def emitFrameLoad (t : MoveTarget) (ctx : FrameMemCtx) (reg base : LirReg) (offset : ℕ) :
    Except MoveRefusal (List MoveInst) :=
  if t.reaches reg.regClass offset then .ok [.frameLoad reg.id base.id offset]
  else emitFarFrameLoad t ctx reg base offset

/-- Write one move. -/
def emitOne (t : MoveTarget) (memCtx : MemSrcLoadCtx) (m : RegMove) :
    Except MoveRefusal (List MoveInst) :=
  if !m.isMemSrc then
    if t.moveOp m.dst.regClass then .ok [.mov m.dst.id m.src.id] else .error .noMoveOp
  else if !memCtx.valid then .error .noFrameGeometry
  else if !t.loadOp m.dst.regClass then .error .noLoadOp
  else
    match memCtx.frameCtx with
    | none => .error .noFrameContext
    | some ctx =>
      if !t.naturalWidth m.dst.regClass then .error .noWidth
      else emitFrameLoad t ctx m.dst memCtx.sp (m.offset memCtx)

/-- Some move that is left still reads the register. -/
def isPendingSrc (moves : List RegMove) (id : ℕ) : Bool :=
  moves.any fun m => !m.isMemSrc && m.src.id = id

/-- Send a reader of `src` to the scratch register that holds its value. -/
def redirect (src : ℕ) (scratch : LirReg) (m : RegMove) : RegMove :=
  if !m.isMemSrc && m.src.id = src then { m with src := scratch } else m

/-- The registers no scratch register may be: the reserved ones and every destination, those of
moves that are written already included. -/
def scratchReservedOf (reserved : List ℕ) (moves : List RegMove) : List ℕ :=
  moves.foldl (fun s m => if m.dst.id ∈ s then s else s ++ [m.dst.id]) reserved

end DssPrime
