import Mathlib

/-!
# The opcodes of the mid-level IR

The `MirOpcode` enumeration and its one static table `opcodeInfo`: how many operands and
successors an instruction of each opcode takes, whether it ends a block, whether it has a side
effect, and whether its inputs live in the phi pool.  Everything the passes decide per opcode
is derived from this table or from one of the closed lists next to it.
-/

namespace DssPrime

/-- The opcodes of the mid-level IR, in declaration order (`ret` is the source's `Return`). -/
inductive MirOpcode where
  | invalid | arg | const | globalAddr | blockAddress | blockAddressExport | add | sub | mul
  | sDiv | uDiv | sMod | uMod | neg | uMulH | atomicCas | atomicLoad | atomicStore
  | compilerBarrier | atomicFence | fAdd | fSub | fMul | fDiv | fNeg | and | or | xor | shl
  | lShr | aShr | not | popcount | clz | ctz | bswap | iCmpEq | iCmpNe | iCmpSlt | iCmpSle
  | iCmpSgt | iCmpSge | iCmpUlt | iCmpUle | iCmpUgt | iCmpUge | fCmpOeq | fCmpOne | fCmpOlt
  | fCmpOle | fCmpOgt | fCmpOge | fCmpUeq | fCmpUne | fCmpUlt | fCmpUle | fCmpUgt | fCmpUge
  | alloca | load | store | gep | extractValue | insertValue | trunc | sExt | zExt | fPTrunc
  | fPExt | bitcast | intToPtr | ptrToInt | fPToSI | fPToUI | sIToFP | uIToFP | call
  | intrinsicCall | returnPiece | inlineAsm | inlineAsmGoto | readIndirectResult
  | vaRegSaveAreaAddr | vaOverflowArgAreaAddr | vaHomeArgAreaAddr | byValueStackArg
  | recvByValueStackParam | phi | br | condBr | switch | ret | unreachable | indirectBr
  | sehTryBegin | sehFilterReturn | sehTryEnd | sehExceptionCode | sehExceptionInfo
  | recoverParentFrameSlot | stackSave | stackRestore | vAdd | vSub | vMul | vShuffle
  | vExtract | vInsert
  deriving DecidableEq, Inhabited

/-- Whether an opcode produces a value: never, always, or depending on the instruction. -/
inductive MirResultRule where
  | none | value | optional

/-- The static row of an opcode.  An absent upper bound is the source's "unbounded" marker. -/
structure MirOpcodeInfo where
  minOperands : ℕ
  maxOperands : Option ℕ
  minSuccessors : ℕ
  maxSuccessors : Option ℕ
  result : MirResultRule
  isTerminator : Bool
  hasSideEffects : Bool
  usesPhiPool : Bool

def opcodeInfo : MirOpcode → MirOpcodeInfo
  | .invalid => ⟨1, some 0, 0, some 0, .none, false, false, false⟩
  | .arg => ⟨0, some 0, 0, some 0, .value, false, false, false⟩
  | .const => ⟨0, some 0, 0, some 0, .value, false, false, false⟩
  | .globalAddr => ⟨0, some 0, 0, some 0, .value, false, false, false⟩
  | .blockAddress => ⟨0, some 0, 0, some 0, .value, false, true, false⟩
  | .blockAddressExport => ⟨1, some 1, 0, some 0, .none, false, true, false⟩
  | .add => ⟨2, some 2, 0, some 0, .value, false, false, false⟩
  | .sub => ⟨2, some 2, 0, some 0, .value, false, false, false⟩
  | .mul => ⟨2, some 2, 0, some 0, .value, false, false, false⟩
  | .sDiv => ⟨2, some 2, 0, some 0, .value, false, false, false⟩
  | .uDiv => ⟨2, some 2, 0, some 0, .value, false, false, false⟩
  | .sMod => ⟨2, some 2, 0, some 0, .value, false, false, false⟩
  | .uMod => ⟨2, some 2, 0, some 0, .value, false, false, false⟩
  | .neg => ⟨1, some 1, 0, some 0, .value, false, false, false⟩
  | .uMulH => ⟨2, some 2, 0, some 0, .value, false, false, false⟩
  | .atomicCas => ⟨3, some 3, 0, some 0, .value, false, true, false⟩
  | .atomicLoad => ⟨1, some 1, 0, some 0, .value, false, true, false⟩
  | .atomicStore => ⟨2, some 2, 0, some 0, .none, false, true, false⟩
  | .compilerBarrier => ⟨0, some 0, 0, some 0, .none, false, true, false⟩
  | .atomicFence => ⟨0, some 0, 0, some 0, .none, false, true, false⟩
  | .fAdd => ⟨2, some 2, 0, some 0, .value, false, false, false⟩
  | .fSub => ⟨2, some 2, 0, some 0, .value, false, false, false⟩
  | .fMul => ⟨2, some 2, 0, some 0, .value, false, false, false⟩
  | .fDiv => ⟨2, some 2, 0, some 0, .value, false, false, false⟩
  | .fNeg => ⟨1, some 1, 0, some 0, .value, false, false, false⟩
  | .and => ⟨2, some 2, 0, some 0, .value, false, false, false⟩
  | .or => ⟨2, some 2, 0, some 0, .value, false, false, false⟩
  | .xor => ⟨2, some 2, 0, some 0, .value, false, false, false⟩
  | .shl => ⟨2, some 2, 0, some 0, .value, false, false, false⟩
  | .lShr => ⟨2, some 2, 0, some 0, .value, false, false, false⟩
  | .aShr => ⟨2, some 2, 0, some 0, .value, false, false, false⟩
  | .not => ⟨1, some 1, 0, some 0, .value, false, false, false⟩
  | .popcount => ⟨1, some 1, 0, some 0, .value, false, false, false⟩
  | .clz => ⟨1, some 1, 0, some 0, .value, false, false, false⟩
  | .ctz => ⟨1, some 1, 0, some 0, .value, false, false, false⟩
  | .bswap => ⟨1, some 1, 0, some 0, .value, false, false, false⟩
  | .iCmpEq => ⟨2, some 2, 0, some 0, .value, false, false, false⟩
  | .iCmpNe => ⟨2, some 2, 0, some 0, .value, false, false, false⟩
  | .iCmpSlt => ⟨2, some 2, 0, some 0, .value, false, false, false⟩
  | .iCmpSle => ⟨2, some 2, 0, some 0, .value, false, false, false⟩
  | .iCmpSgt => ⟨2, some 2, 0, some 0, .value, false, false, false⟩
  | .iCmpSge => ⟨2, some 2, 0, some 0, .value, false, false, false⟩
  | .iCmpUlt => ⟨2, some 2, 0, some 0, .value, false, false, false⟩
  | .iCmpUle => ⟨2, some 2, 0, some 0, .value, false, false, false⟩
  | .iCmpUgt => ⟨2, some 2, 0, some 0, .value, false, false, false⟩
  | .iCmpUge => ⟨2, some 2, 0, some 0, .value, false, false, false⟩
  | .fCmpOeq => ⟨2, some 2, 0, some 0, .value, false, false, false⟩
  | .fCmpOne => ⟨2, some 2, 0, some 0, .value, false, false, false⟩
  | .fCmpOlt => ⟨2, some 2, 0, some 0, .value, false, false, false⟩
  | .fCmpOle => ⟨2, some 2, 0, some 0, .value, false, false, false⟩
  | .fCmpOgt => ⟨2, some 2, 0, some 0, .value, false, false, false⟩
  | .fCmpOge => ⟨2, some 2, 0, some 0, .value, false, false, false⟩
  | .fCmpUeq => ⟨2, some 2, 0, some 0, .value, false, false, false⟩
  | .fCmpUne => ⟨2, some 2, 0, some 0, .value, false, false, false⟩
  | .fCmpUlt => ⟨2, some 2, 0, some 0, .value, false, false, false⟩
  | .fCmpUle => ⟨2, some 2, 0, some 0, .value, false, false, false⟩
  | .fCmpUgt => ⟨2, some 2, 0, some 0, .value, false, false, false⟩
  | .fCmpUge => ⟨2, some 2, 0, some 0, .value, false, false, false⟩
  | .alloca => ⟨0, some 1, 0, some 0, .value, false, true, false⟩
  | .load => ⟨1, some 1, 0, some 0, .value, false, false, false⟩
  | .store => ⟨2, some 2, 0, some 0, .none, false, true, false⟩
  | .gep => ⟨1, none, 0, some 0, .value, false, false, false⟩
  | .extractValue => ⟨2, none, 0, some 0, .value, false, false, false⟩
  | .insertValue => ⟨3, none, 0, some 0, .value, false, false, false⟩
  | .trunc => ⟨1, some 1, 0, some 0, .value, false, false, false⟩
  | .sExt => ⟨1, some 1, 0, some 0, .value, false, false, false⟩
  | .zExt => ⟨1, some 1, 0, some 0, .value, false, false, false⟩
  | .fPTrunc => ⟨1, some 1, 0, some 0, .value, false, false, false⟩
  | .fPExt => ⟨1, some 1, 0, some 0, .value, false, false, false⟩
  | .bitcast => ⟨1, some 1, 0, some 0, .value, false, false, false⟩
  | .intToPtr => ⟨1, some 1, 0, some 0, .value, false, false, false⟩
  | .ptrToInt => ⟨1, some 1, 0, some 0, .value, false, false, false⟩
  | .fPToSI => ⟨1, some 1, 0, some 0, .value, false, false, false⟩
  | .fPToUI => ⟨1, some 1, 0, some 0, .value, false, false, false⟩
  | .sIToFP => ⟨1, some 1, 0, some 0, .value, false, false, false⟩
  | .uIToFP => ⟨1, some 1, 0, some 0, .value, false, false, false⟩
  | .call => ⟨1, none, 0, some 0, .optional, false, true, false⟩
  | .intrinsicCall => ⟨0, none, 0, some 0, .optional, false, true, false⟩
  | .returnPiece => ⟨1, some 1, 0, some 0, .value, false, true, false⟩
  | .inlineAsm => ⟨0, none, 0, some 0, .optional, false, true, false⟩
  | .inlineAsmGoto => ⟨0, none, 2, none, .none, true, true, false⟩
  | .readIndirectResult => ⟨0, some 0, 0, some 0, .value, false, true, false⟩
  | .vaRegSaveAreaAddr => ⟨0, some 0, 0, some 0, .value, false, true, false⟩
  | .vaOverflowArgAreaAddr => ⟨0, some 0, 0, some 0, .value, false, true, false⟩
  | .vaHomeArgAreaAddr => ⟨0, some 0, 0, some 0, .value, false, true, false⟩
  | .byValueStackArg => ⟨1, some 1, 0, some 0, .value, false, true, false⟩
  | .recvByValueStackParam => ⟨0, some 0, 0, some 0, .value, false, true, false⟩
  | .phi => ⟨0, none, 0, some 0, .value, false, false, true⟩
  | .br => ⟨0, some 0, 1, some 1, .none, true, true, false⟩
  | .condBr => ⟨1, some 1, 2, some 2, .none, true, true, false⟩
  | .switch => ⟨1, none, 1, none, .none, true, true, false⟩
  | .ret => ⟨0, none, 0, some 0, .none, true, true, false⟩
  | .unreachable => ⟨0, some 0, 0, some 0, .none, true, true, false⟩
  | .indirectBr => ⟨1, some 1, 1, none, .none, true, true, false⟩
  | .sehTryBegin => ⟨0, some 0, 2, some 2, .none, true, true, false⟩
  | .sehFilterReturn => ⟨1, some 1, 1, some 1, .none, true, true, false⟩
  | .sehTryEnd => ⟨0, some 0, 0, some 0, .none, false, true, false⟩
  | .sehExceptionCode => ⟨0, some 0, 0, some 0, .value, false, true, false⟩
  | .sehExceptionInfo => ⟨0, some 0, 0, some 0, .value, false, true, false⟩
  | .recoverParentFrameSlot => ⟨1, some 1, 0, some 0, .value, false, false, false⟩
  | .stackSave => ⟨0, some 0, 0, some 0, .value, false, true, false⟩
  | .stackRestore => ⟨1, some 1, 0, some 0, .none, false, true, false⟩
  | .vAdd => ⟨2, some 2, 0, some 0, .value, false, false, false⟩
  | .vSub => ⟨2, some 2, 0, some 0, .value, false, false, false⟩
  | .vMul => ⟨2, some 2, 0, some 0, .value, false, false, false⟩
  | .vShuffle => ⟨2, none, 0, some 0, .value, false, false, false⟩
  | .vExtract => ⟨2, some 2, 0, some 0, .value, false, false, false⟩
  | .vInsert => ⟨3, some 3, 0, some 0, .value, false, false, false⟩

def isTerminator (op : MirOpcode) : Bool := (opcodeInfo op).isTerminator

def opcodeClobbersMemory : MirOpcode → Bool
  | .store | .call | .intrinsicCall | .atomicCas | .atomicLoad | .atomicStore
  | .compilerBarrier | .atomicFence | .sehTryBegin | .sehTryEnd | .sehFilterReturn
  | .stackSave | .stackRestore | .inlineAsm | .inlineAsmGoto => true
  | _ => false

end DssPrime
