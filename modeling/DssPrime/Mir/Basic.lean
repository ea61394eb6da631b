import DssPrime.Mir.Opcode

/-!
# The mid-level IR module

A frozen module is four arenas — instructions, blocks, functions, globals — whose slot `0` is
the invalid sentinel: an identifier is a slot number and `0` names nothing.  The instructions of a
block occupy consecutive slots, and so do the blocks of a function.

`MirData` is the bare data; `Mir` adds the facts that the builder's `finish` establishes by
aborting otherwise (`MirData.Built`): every reference names an existing slot, a branch stays
inside its function, every block ends in its only terminator, and operand and successor counts
follow the opcode table.
-/

namespace DssPrime

inductive TypeKind where
  | bool | i8 | i16 | i32 | i64 | i128 | u8 | u16 | u32 | u64 | u128 | f16 | f32 | f64 | f80
  | f128 | char | byte | void | struct | union | tuple | array | slice | enum | vector | matrix
  | ptr | ref | fnPtr | nullable | optional | fnSig | param | bind | extension | volatileQual
  | nullptrT | bitInt | complex
  deriving DecidableEq, Inhabited

/-- What the passes ask the type interner: the kind of a type and its type operands.  The
`id` is the identity of the interner object. -/
structure TypeInterner where
  id : ℕ
  kind : ℕ → TypeKind
  /-- Operands of an interned type (the pointee of a pointer comes first). -/
  operands : ℕ → List ℕ

/-- A constant: the kind it was written at and its value.  Floating values are kept as bit
patterns. -/
inductive MirLiteralValue where
  | monostate (core : TypeKind)
  | bool (core : TypeKind) (value : Bool)
  | int64 (core : TypeKind) (value : BitVec 64)
  | uint64 (core : TypeKind) (value : BitVec 64)
  | double (core : TypeKind) (bits : ℕ)
  | string (core : TypeKind) (value : String)
  | aggregate (core : TypeKind) (fields : List MirLiteralValue)
  | symbolAddr (core : TypeKind) (symbol : ℕ) (addend : ℤ)
  | bitInt (core : TypeKind) (width : ℕ) (isSigned : Bool) (value : ℤ)
  | wideFloat (core : TypeKind) (bits : ℕ)
  deriving Inhabited

def MirLiteralValue.core : MirLiteralValue → TypeKind
  | monostate c | bool c _ | int64 c _ | uint64 c _ | double c _ | string c _ | aggregate c _
  | symbolAddr c _ _ | bitInt c _ _ _ | wideFloat c _ => c

structure MirInstFlags where
  synthetic : Bool
  «volatile» : Bool
  returnsTwice : Bool
  atomicInitExempt : Bool

instance : Inhabited MirInstFlags := ⟨⟨false, false, false, false⟩⟩

structure MirPhiIncoming where
  value : ℕ
  pred : ℕ

/-- An instruction.  A phi has incomings and no operands; every other opcode has operands and
no incomings. -/
structure MirInst where
  opcode : MirOpcode
  flags : MirInstFlags
  typeId : ℕ
  operands : List ℕ
  incomings : List MirPhiIncoming
  /-- Opcode-specific data: argument index, literal index, symbol, block, assembly
  descriptor, … -/
  payload : ℕ
  payload2 : ℕ
  deriving Inhabited

/-- A basic block: `instCount` consecutive instructions from `instStart`, the last of which
is the terminator, and its successors in branch order. -/
structure MirBlock where
  instStart : ℕ
  instCount : ℕ
  succs : List ℕ
  func : ℕ
  deriving Inhabited

inductive SymbolBinding where
  | «local» | global | weak
  deriving DecidableEq, Inhabited

inductive SymbolVisibility where
  | default | hidden | «protected» | internal
  deriving DecidableEq, Inhabited

def isExternallyVisible (binding : SymbolBinding) (visibility : SymbolVisibility) : Bool :=
  if binding = .local then false
  else if visibility = .hidden then false
  else if visibility = .internal then false
  else true

/-- A function: `blockCount` consecutive blocks from `blockStart`, the first of which is the
entry. -/
structure MirFunc where
  signature : ℕ
  blockStart : ℕ
  blockCount : ℕ
  symbol : ℕ
  binding : SymbolBinding
  visibility : SymbolVisibility
  noInline : Bool
  alwaysInline : Bool
  noOptimize : Bool
  staticInit : Bool
  deriving Inhabited

structure MirGlobal where
  type : ℕ
  symbol : ℕ
  initLiteralIndex : Option ℕ
  initFunc : ℕ
  binding : SymbolBinding
  visibility : SymbolVisibility
  deriving Inhabited

/-- How much type-based aliasing the module's language promises. -/
inductive MirAliasingMode where
  | permissive | strictTBAA

/-- The data of a module.  Slot `0` of each arena is the invalid sentinel. -/
structure MirData where
  insts : List MirInst
  instBlocks : List ℕ
  blocks : List MirBlock
  funcs : List MirFunc
  globals : List MirGlobal
  literals : List MirLiteralValue
  aliasingMode : MirAliasingMode
  charTypesAliasAll : Bool

namespace MirData

variable (m : MirData)

def instCount : ℕ := m.insts.length
def blockCount : ℕ := m.blocks.length
/-- Number of function slots, sentinel included. -/
def funcCount : ℕ := m.funcs.length
def inst (i : ℕ) : MirInst := m.insts.getD i default
def block (b : ℕ) : MirBlock := m.blocks.getD b default
def func (f : ℕ) : MirFunc := m.funcs.getD f default

def instOpcode (i : ℕ) : MirOpcode := (m.inst i).opcode
def instFlags (i : ℕ) : MirInstFlags := (m.inst i).flags
def instType (i : ℕ) : ℕ := (m.inst i).typeId
def instPayload (i : ℕ) : ℕ := (m.inst i).payload
def instOperands (i : ℕ) : List ℕ := (m.inst i).operands
def phiIncomings (i : ℕ) : List MirPhiIncoming := (m.inst i).incomings
def instBlock (i : ℕ) : ℕ := m.instBlocks.getD i 0
def blockInstCount (b : ℕ) : ℕ := (m.block b).instCount
def blockInstAt (b : ℕ) (i : ℕ) : ℕ := (m.block b).instStart + i
def blockSuccessors (b : ℕ) : List ℕ := (m.block b).succs
def blockFunc (b : ℕ) : ℕ := (m.block b).func
def funcBlockCount (f : ℕ) : ℕ := (m.func f).blockCount
def funcBlockAt (f : ℕ) (i : ℕ) : ℕ := (m.func f).blockStart + i
def funcEntry (f : ℕ) : ℕ := (m.func f).blockStart
def moduleFuncCount : ℕ := m.funcs.length - 1
def funcAt (_m : MirData) (i : ℕ) : ℕ := i + 1
def blockAddressTarget (i : ℕ) : ℕ := (m.inst i).payload

def moduleFuncs : List ℕ := (List.range m.moduleFuncCount).map m.funcAt
def funcBlocks (f : ℕ) : List ℕ :=
  (List.range (m.funcBlockCount f)).map (m.funcBlockAt f)
def blockInsts (b : ℕ) : List ℕ :=
  (List.range (m.blockInstCount b)).map (m.blockInstAt b)

def IsInst (i : ℕ) : Prop := i ≠ 0 ∧ i < m.instCount
def IsBlock (b : ℕ) : Prop := b ≠ 0 ∧ b < m.blockCount
/-- A slot of the function arena that holds a function. -/
def IsFunc (f : ℕ) : Prop := f ≠ 0 ∧ f < m.funcCount

instance (i : ℕ) : Decidable (m.IsInst i) := inferInstanceAs (Decidable (_ ∧ _))
instance (b : ℕ) : Decidable (m.IsBlock b) := inferInstanceAs (Decidable (_ ∧ _))
instance (f : ℕ) : Decidable (m.IsFunc f) := inferInstanceAs (Decidable (_ ∧ _))

/-- A number lies in the range an opcode row allows. -/
def InRange (n lo : ℕ) (hi : Option ℕ) : Prop := lo ≤ n ∧ ∀ h ∈ hi, n ≤ h

instance (n lo : ℕ) (hi : Option ℕ) : Decidable (InRange n lo hi) :=
  inferInstanceAs (Decidable (_ ∧ _))

structure InstBuilt (i : ℕ) : Prop where
  opcode : m.instOpcode i ≠ .invalid
  arity : InRange (m.instOperands i).length (opcodeInfo (m.instOpcode i)).minOperands
    (opcodeInfo (m.instOpcode i)).maxOperands
  operands : ∀ o ∈ m.instOperands i, m.IsInst o
  incomings : ∀ inc ∈ m.phiIncomings i, m.IsInst inc.value ∧ m.IsBlock inc.pred
  pools : if m.instOpcode i = .phi then m.instOperands i = [] else m.phiIncomings i = []
  inBlock : m.IsBlock (m.instBlock i) ∧ (m.block (m.instBlock i)).instStart ≤ i ∧
    i < (m.block (m.instBlock i)).instStart + m.blockInstCount (m.instBlock i)
  address : m.instOpcode i = .blockAddress → m.IsBlock (m.blockAddressTarget i) ∧
    m.blockFunc (m.blockAddressTarget i) = m.blockFunc (m.instBlock i)

structure BlockBuilt (b : ℕ) : Prop where
  func : m.IsFunc (m.blockFunc b) ∧ m.funcEntry (m.blockFunc b) ≤ b ∧
    b < m.funcEntry (m.blockFunc b) + m.funcBlockCount (m.blockFunc b)
  insts : m.blockInstCount b ≠ 0 ∧ (m.block b).instStart ≠ 0 ∧
    (m.block b).instStart + m.blockInstCount b ≤ m.instCount
  owner : ∀ i ∈ m.blockInsts b, m.instBlock i = b
  terminated : ∀ i ∈ List.range (m.blockInstCount b),
    (isTerminator (m.instOpcode (m.blockInstAt b i)) = true ↔ i + 1 = m.blockInstCount b)
  succCount : InRange (m.blockSuccessors b).length
    (opcodeInfo (m.instOpcode (m.blockInstAt b (m.blockInstCount b - 1)))).minSuccessors
    (opcodeInfo (m.instOpcode (m.blockInstAt b (m.blockInstCount b - 1)))).maxSuccessors
  succs : ∀ s ∈ m.blockSuccessors b, m.IsBlock s ∧ m.blockFunc s = m.blockFunc b

structure FuncBuilt (f : ℕ) : Prop where
  blocks : m.funcBlockCount f ≠ 0 ∧ m.funcEntry f ≠ 0 ∧
    m.funcEntry f + m.funcBlockCount f ≤ m.blockCount
  owner : ∀ b ∈ m.funcBlocks f, m.blockFunc b = f

instance (i : ℕ) : Decidable (m.InstBuilt i) :=
  decidable_of_iff (_ ∧ _ ∧ _ ∧ _ ∧ _ ∧ _ ∧ _)
    ⟨fun ⟨a, b, c, d, e, f, g⟩ => ⟨a, b, c, d, e, f, g⟩,
      fun ⟨a, b, c, d, e, f, g⟩ => ⟨a, b, c, d, e, f, g⟩⟩

instance (b : ℕ) : Decidable (m.BlockBuilt b) :=
  decidable_of_iff (_ ∧ _ ∧ _ ∧ _ ∧ _ ∧ _)
    ⟨fun ⟨a, b, c, d, e, f⟩ => ⟨a, b, c, d, e, f⟩,
      fun ⟨a, b, c, d, e, f⟩ => ⟨a, b, c, d, e, f⟩⟩

instance (f : ℕ) : Decidable (m.FuncBuilt f) :=
  decidable_of_iff (_ ∧ _) ⟨fun ⟨a, b⟩ => ⟨a, b⟩, fun ⟨a, b⟩ => ⟨a, b⟩⟩

/-- What `finish` guarantees of a module: every sentinel is empty and every slot passed its
checks. -/
structure Built : Prop where
  insts : ∀ i ∈ List.range m.instCount, i ≠ 0 → m.InstBuilt i
  blocks : ∀ b ∈ List.range m.blockCount, b ≠ 0 → m.BlockBuilt b
  funcs : ∀ f ∈ List.range m.funcCount, f ≠ 0 → m.FuncBuilt f
  sentinel : m.blockInstCount 0 = 0 ∧ m.blockSuccessors 0 = []

instance : Decidable m.Built :=
  decidable_of_iff (_ ∧ _ ∧ _ ∧ _)
    ⟨fun ⟨a, b, c, d⟩ => ⟨a, b, c, d⟩, fun ⟨a, b, c, d⟩ => ⟨a, b, c, d⟩⟩

variable {m} in
theorem Built.withLiterals (h : m.Built) (lits : List MirLiteralValue) :
    ({ m with literals := lits } : MirData).Built where
  insts i hi h0 :=
    have b := h.insts i hi h0
    ⟨b.opcode, b.arity, b.operands, b.incomings, b.pools, b.inBlock, b.address⟩
  blocks b hb h0 :=
    have b := h.blocks b hb h0
    ⟨b.func, b.insts, b.owner, b.terminated, b.succCount, b.succs⟩
  funcs f hf h0 :=
    have b := h.funcs f hf h0
    ⟨b.blocks, b.owner⟩
  sentinel := h.sentinel

end MirData

/-- A frozen module: data that passed the builder's checks. -/
structure Mir extends MirData where
  built : toMirData.Built

namespace Mir

variable (m : Mir)

theorem instBuilt {i : ℕ} (h : m.IsInst i) : m.InstBuilt i :=
  m.built.insts i (List.mem_range.2 h.2) h.1

theorem blockBuilt {b : ℕ} (h : m.IsBlock b) : m.BlockBuilt b :=
  m.built.blocks b (List.mem_range.2 h.2) h.1

theorem funcBuilt {f : ℕ} (h : m.IsFunc f) : m.FuncBuilt f :=
  m.built.funcs f (List.mem_range.2 h.2) h.1

theorem block_eq_default {b : ℕ} (h : m.blocks.length ≤ b) : m.block b = default := by
  rw [MirData.block, List.getD_eq_getElem?_getD, List.getElem?_eq_none h]
  rfl

theorem blockInstCount_eq_zero {b : ℕ} (h : ¬ m.IsBlock b) :
    m.blockInstCount b = 0 := by
  by_cases h0 : b = 0
  · subst h0; exact m.built.sentinel.1
  · have hb : m.blocks.length ≤ b := by
      by_contra hlt
      exact h ⟨h0, by simpa [MirData.blockCount] using hlt⟩
    rw [MirData.blockInstCount, m.block_eq_default hb]; rfl

theorem isBlock_of_lt {b : ℕ} {i : ℕ} (h : i < m.blockInstCount b) : m.IsBlock b := by
  by_contra hb
  rw [m.blockInstCount_eq_zero hb] at h
  exact absurd h (Nat.not_lt_zero i)

theorem isInst_blockInstAt {b : ℕ} {i : ℕ} (h : i < m.blockInstCount b) :
    m.IsInst (m.blockInstAt b i) := by
  have hb := (m.blockBuilt (m.isBlock_of_lt h)).insts
  simp only [MirData.blockInstAt, MirData.IsInst]
  omega

theorem mem_blockInsts {b i : ℕ} (hb : m.IsBlock b) :
    i ∈ m.blockInsts b ↔ m.IsInst i ∧ m.instBlock i = b := by
  constructor
  · intro hi
    have howner := (m.blockBuilt hb).owner i hi
    obtain ⟨k, hk, rfl⟩ := List.mem_map.1 hi
    exact ⟨m.isInst_blockInstAt (List.mem_range.1 hk), howner⟩
  · rintro ⟨hi, rfl⟩
    obtain ⟨-, h1, h2⟩ := (m.instBuilt hi).inBlock
    refine List.mem_map.2 ⟨i - (m.block (m.instBlock i)).instStart, List.mem_range.2 ?_, ?_⟩
    · omega
    · exact Nat.add_sub_cancel' h1

theorem isBlock_of_mem_succs {b s : ℕ} (h : s ∈ m.blockSuccessors b) :
    m.IsBlock b ∧ m.IsBlock s := by
  by_cases h0 : b = 0
  · subst h0
    rw [m.built.sentinel.2] at h
    simp at h
  · by_cases hb : b < m.blockCount
    · exact ⟨⟨h0, hb⟩, ((m.blockBuilt ⟨h0, hb⟩).succs s h).1⟩
    · rw [MirData.blockCount, not_lt] at hb
      rw [MirData.blockSuccessors, m.block_eq_default hb] at h
      exact absurd h List.not_mem_nil

theorem mem_moduleFuncs {f : ℕ} : f ∈ m.moduleFuncs ↔ m.IsFunc f := by
  simp only [MirData.moduleFuncs, MirData.moduleFuncCount, MirData.funcAt, List.mem_map,
    List.mem_range, MirData.IsFunc, MirData.funcCount]
  constructor
  · rintro ⟨i, hi, rfl⟩; omega
  · rintro ⟨h0, h⟩; exact ⟨f - 1, by omega, by omega⟩

theorem mem_funcBlocks {f : ℕ} {b : ℕ} :
    b ∈ m.funcBlocks f ↔ m.funcEntry f ≤ b ∧ b < m.funcEntry f + m.funcBlockCount f := by
  simp only [MirData.funcBlocks, MirData.funcBlockAt, MirData.funcEntry, List.mem_map,
    List.mem_range]
  constructor
  · rintro ⟨i, hi, rfl⟩; omega
  · rintro ⟨h1, h2⟩; exact ⟨b - (m.func f).blockStart, by omega, by omega⟩

theorem mem_funcBlocks_blockFunc {b : ℕ} (h : m.IsBlock b) :
    m.blockFunc b ∈ m.moduleFuncs ∧ b ∈ m.funcBlocks (m.blockFunc b) :=
  have hb := (m.blockBuilt h).func
  ⟨m.mem_moduleFuncs.2 hb.1, m.mem_funcBlocks.2 hb.2⟩

end Mir

end DssPrime
