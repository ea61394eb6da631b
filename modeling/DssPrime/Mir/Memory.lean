import DssPrime.Mir.Semantics

/-!
# Memory with allocation provenance

The machine on which the alias analyses of the optimiser are judged.  Memory is a flat array of
bytes; an allocation is an interval of it with an identity; a value carries the identities of
the allocations it may be used to access (its provenance), whatever its type, and so does a
byte.  An access through a value must stay inside one live allocation of its provenance,
otherwise the execution is undefined.

What leaves the function is confined, not specified: a callee, an assembly statement or another
thread may do anything with the provenance it was handed, finds in memory or was exposed to
before (`Confined`), and a few operations see the whole frame.
-/

namespace DssPrime

structure Allocation where
  base : ℕ
  size : ℕ
  live : Bool

def Allocation.Covers (al : Allocation) (a n : ℕ) : Prop :=
  al.live = true ∧ al.base ≤ a ∧ a + n ≤ al.base + al.size

instance (al : Allocation) (a n : ℕ) : Decidable (al.Covers a n) :=
  inferInstanceAs (Decidable (_ ∧ _))

/-- Memory, and what lies outside of it. -/
structure MemWorld (Byte Ext : Type) where
  mem : ℕ → Byte
  /-- The type of the pointer through which a byte was last stored, if it was by a store. -/
  tag : ℕ → Option ℕ
  allocs : ℕ → Option Allocation
  exposed : Set ℕ
  ext : Ext

namespace MemWorld

variable {Byte Ext : Type}

def bytes (w : MemWorld Byte Ext) (a n : ℕ) : List Byte :=
  (List.range n).map fun k => w.mem (a + k)

def write (w : MemWorld Byte Ext) (a : ℕ) (bs : List Byte) (ty : ℕ) : MemWorld Byte Ext :=
  { w with
    mem := fun x => if x < a then w.mem x else (bs[x - a]?).getD (w.mem x)
    tag := fun x => if a ≤ x ∧ x < a + bs.length then some ty else w.tag x }

def MayAccess (w : MemWorld Byte Ext) (p : Finset ℕ) (a n : ℕ) : Prop :=
  ∃ id ∈ p, (w.allocs id).any fun al => al.Covers a n

instance (w : MemWorld Byte Ext) (p : Finset ℕ) (a n : ℕ) : Decidable (w.MayAccess p a n) :=
  inferInstanceAs (Decidable (∃ id ∈ p, _))

def Known (w : MemWorld Byte Ext) (a : ℕ) : Prop := (w.allocs a).isSome

end MemWorld

/-- What an operation does to memory. -/
inductive OpClass where
  | outside
  | slot
  | load
  | store
  | atomicLoad
  | atomicStore
  | atomicCas
  | derive
  | compare
  | compute
  | foreign
  | frame
  | control

def opClass : MirOpcode → OpClass
  | .arg | .const | .globalAddr => .outside
  | .alloca => .slot
  | .load => .load
  | .store => .store
  | .atomicLoad => .atomicLoad
  | .atomicStore => .atomicStore
  | .atomicCas => .atomicCas
  | .gep | .bitcast => .derive
  | .iCmpEq | .iCmpNe | .iCmpSlt | .iCmpSle | .iCmpSgt | .iCmpSge | .iCmpUlt | .iCmpUle
  | .iCmpUgt | .iCmpUge => .compare
  | .add | .sub | .mul | .sDiv | .uDiv | .sMod | .uMod | .neg | .uMulH | .fAdd | .fSub | .fMul
  | .fDiv | .fNeg | .and | .or | .xor | .shl | .lShr | .aShr | .not | .popcount | .clz | .ctz
  | .bswap | .fCmpOeq | .fCmpOne | .fCmpOlt | .fCmpOle | .fCmpOgt | .fCmpOge | .fCmpUeq
  | .fCmpUne | .fCmpUlt | .fCmpUle | .fCmpUgt | .fCmpUge | .extractValue | .insertValue | .trunc
  | .sExt | .zExt | .fPTrunc | .fPExt | .intToPtr | .ptrToInt | .fPToSI | .fPToUI | .sIToFP
  | .uIToFP | .vAdd | .vSub | .vMul | .vShuffle | .vExtract | .vInsert => .compute
  | .call | .intrinsicCall | .returnPiece | .readIndirectResult | .byValueStackArg
  | .recvByValueStackParam | .compilerBarrier | .atomicFence | .blockAddressExport => .foreign
  | .inlineAsm | .vaRegSaveAreaAddr | .vaOverflowArgAreaAddr | .vaHomeArgAreaAddr
  | .recoverParentFrameSlot | .stackSave | .stackRestore | .sehTryEnd | .sehExceptionCode
  | .sehExceptionInfo | .inlineAsmGoto | .sehTryBegin | .sehFilterReturn => .frame
  | .invalid | .blockAddress | .phi | .br | .condBr | .switch | .ret | .unreachable
  | .indirectBr => .control

/-- How values and bytes look, and the parts of the machine that the module leaves open. -/
structure MemData where
  Val : Type
  Byte : Type
  Ext : Type
  prov : Val → Finset ℕ
  /-- The allocations a byte may be used to access, as part of a value. -/
  byteProv : Byte → Finset ℕ
  addr : Val → ℕ
  sizeOf : ℕ → ℕ
  encode : ℕ → Val → List Byte
  decode : ℕ → List Byte → Val
  /-- A byte stored through a pointer of the first type may be loaded through one of the
  second. -/
  mayReadAs : ℕ → ℕ → Bool
  outside : Operation → MemWorld Byte Ext → Val
  value : Operation → List Val → Option Val
  slotSize : Operation → List Val → ℕ
  /-- Identity and address of a new stack slot, if there is room for it. -/
  place : MemWorld Byte Ext → ℕ → Option (ℕ × ℕ)
  pointer : ℕ → ℕ → Val
  sync : Operation → MemWorld Byte Ext → MemWorld Byte Ext
  foreign : Operation → List Val → MemWorld Byte Ext → Exec (Option Val) (MemWorld Byte Ext)
  pick : Operation → List Val → MemWorld Byte Ext → Exec ℕ (MemWorld Byte Ext)
  truth : Val → Bool
  same : Val → Val → Bool
  codeAddr : ℕ → Val

namespace MemData

variable (D : MemData)

abbrev World : Type := MemWorld D.Byte D.Ext

/-- The world an access sees: volatile and atomic ones synchronise first. -/
def before (op : Operation) (synchronises : Bool) (w : D.World) : D.World :=
  if synchronises then D.sync op w else w

def MayAccess (w : D.World) (p : D.Val) (n : ℕ) : Prop := w.MayAccess (D.prov p) (D.addr p) n

instance (w : D.World) (p : D.Val) (n : ℕ) : Decidable (D.MayAccess w p n) :=
  inferInstanceAs (Decidable (w.MayAccess _ _ _))

/-- The bytes from `a` on may be loaded through a pointer of type `ty`. -/
def TagsAllow (w : D.World) (a n ty : ℕ) : Prop :=
  ∀ k ∈ List.range n, (w.tag (a + k)).all fun tag => D.mayReadAs tag ty

instance (w : D.World) (a n ty : ℕ) : Decidable (D.TagsAllow w a n ty) :=
  inferInstanceAs (Decidable (∀ k ∈ List.range n, _))

def valueAt (w : D.World) (p : D.Val) (ty : ℕ) : D.Val :=
  D.decode ty (w.bytes (D.addr p) (D.sizeOf ty))

def load (w : D.World) (p : D.Val) (ty pty : ℕ) : Exec (Option D.Val) D.World :=
  if D.MayAccess w p (D.sizeOf ty) ∧ D.TagsAllow w (D.addr p) (D.sizeOf ty) pty then
    .ok (some (D.valueAt w p ty)) w
  else .fault w

/-- The world after storing `v`, of type `ty`, through a pointer `p` of type `pty`. -/
def stored (w : D.World) (p v : D.Val) (ty pty : ℕ) : D.World :=
  w.write (D.addr p) (D.encode ty v) pty

def store (w : D.World) (p v : D.Val) (ty pty : ℕ) : Exec (Option D.Val) D.World :=
  if D.MayAccess w p (D.sizeOf ty) then .ok none (D.stored w p v ty pty) else .fault w

/-- Make a stack slot of `n` bytes. -/
def allocate (w : D.World) (n : ℕ) : Exec (Option D.Val) D.World :=
  match D.place w n with
  | none => .halt w
  | some (id, base) => .ok (some (D.pointer id base))
      { w with allocs := Function.update w.allocs id (some ⟨base, n, true⟩) }

def compute (op : Operation) (vs : List D.Val) (w : D.World) : Exec (Option D.Val) D.World :=
  match D.value op vs with
  | some v => .ok (some v) w
  | none => .fault w

def compareExchange (op : Operation) (w : D.World) (p expected desired : D.Val) :
    Exec (Option D.Val) D.World :=
  let ty := op.operandTypes.getD 2 0
  if D.MayAccess w p (D.sizeOf ty) then
    let old := D.valueAt w p ty
    D.compute op [old, expected, desired]
      (if D.same old expected then D.stored w p desired ty (op.operandTypes.getD 0 0) else w)
  else .fault w

def exec (op : Operation) (vs : List D.Val) (w : D.World) : Exec (Option D.Val) D.World :=
  match opClass op.opcode, vs with
  | .outside, _ => .ok (some (D.outside op w)) w
  | .slot, vs => D.allocate w (D.slotSize op vs)
  | .load, [p] =>
    D.load (D.before op op.flags.volatile w) p op.typeId (op.operandTypes.getD 0 0)
  | .store, [v, p] =>
    D.store (D.before op op.flags.volatile w) p v (op.operandTypes.getD 0 0)
      (op.operandTypes.getD 1 0)
  | .atomicLoad, [p] => D.load (D.before op true w) p op.typeId (op.operandTypes.getD 0 0)
  | .atomicStore, [v, p] =>
    D.store (D.before op true w) p v (op.operandTypes.getD 0 0) (op.operandTypes.getD 1 0)
  | .atomicCas, [p, expected, desired] =>
    D.compareExchange op (D.before op true w) p expected desired
  | .derive, vs | .compare, vs | .compute, vs => D.compute op vs w
  | .foreign, vs | .frame, vs => D.foreign op vs w
  | _, _ => .fault w

abbrev machine : Machine where
  Val := D.Val
  World := D.World
  exec := D.exec
  pick := D.pick
  truth := D.truth
  same := D.same
  codeAddr := D.codeAddr

/-- The provenance that something handed the values `vs` can have: its operands', what memory
holds, and what was exposed before. -/
def Reach (w : D.World) (vs : List D.Val) : Set ℕ :=
  {a | a ∈ w.exposed ∨ (∃ v ∈ vs, a ∈ D.prov v) ∨ ∃ x, a ∈ D.byteProv (w.mem x)}

/-- The world is sound: live allocations do not overlap, and only allocations that exist have
provenance in memory or in the environment. -/
structure Sound (w : D.World) : Prop where
  apart : ∀ a b al bl, a ≠ b → w.allocs a = some al → w.allocs b = some bl → al.live = true →
    bl.live = true → al.base + al.size ≤ bl.base ∨ bl.base + bl.size ≤ al.base
  known : ∀ a ∈ D.Reach w [], w.Known a

/-- Between `w` and `w'` something acted that has the provenance `R`: it left alone the
allocations it cannot reach, and spread no provenance but its own and that of allocations it
made. -/
structure Confined (R : Set ℕ) (w w' : D.World) : Prop where
  allocs : ∀ a, a ∉ R → w.Known a → w'.allocs a = w.allocs a
  known : ∀ a, w.Known a → w'.Known a
  contents : ∀ a, a ∉ R → ∀ al, w.allocs a = some al → ∀ x, al.Covers x 1 →
    w'.mem x = w.mem x ∧ w'.tag x = w.tag x
  /-- Memory and the environment hold no other provenance afterwards. -/
  spread : ∀ a ∈ D.Reach w' [], a ∈ R ∨ ¬ w.Known a
  sound : D.Sound w → D.Sound w'

end MemData

/-- A machine with provenance: its data and what is promised of the open parts. -/
structure MemModel extends MemData where
  prov_outside : ∀ op w, ∀ a ∈ prov (outside op w), a ∈ w.exposed
  prov_codeAddr : ∀ l, prov (codeAddr l) = ∅
  prov_derive : ∀ op b vs v, opClass op.opcode = .derive → value op (b :: vs) = some v →
    prov v ⊆ prov b
  prov_compare : ∀ op vs v, opClass op.opcode = .compare → value op vs = some v → prov v = ∅
  prov_compute : ∀ op vs v, value op vs = some v → ∀ a ∈ prov v, ∃ x ∈ vs, a ∈ prov x
  prov_encode : ∀ ty v, ∀ b ∈ encode ty v, byteProv b ⊆ prov v
  prov_decode : ∀ ty bs, ∀ a ∈ prov (decode ty bs), ∃ b ∈ bs, a ∈ byteProv b
  length_encode : ∀ ty v, (encode ty v).length = sizeOf ty
  pointer_spec : ∀ id base, prov (pointer id base) = {id} ∧ addr (pointer id base) = base
  place_spec : ∀ w n id base, place w n = some (id, base) → ¬ w.Known id ∧
    ∀ b bl, w.allocs b = some bl → bl.live = true →
      base + n ≤ bl.base ∨ bl.base + bl.size ≤ base
  sync_spec : ∀ op w, toMemData.Confined (toMemData.Reach w []) w (sync op w)
  /-- So is an operation the module does not define, given its operands. -/
  foreign_spec : ∀ op vs w v w', foreign op vs w = .ok v w' → opClass op.opcode = .foreign →
    toMemData.Confined (toMemData.Reach w vs) w w' ∧
      ∀ x ∈ v, ∀ a ∈ prov x, w'.Known a ∧ (a ∈ toMemData.Reach w vs ∨ ¬ w.Known a)
  frame_spec : ∀ op vs w v w', foreign op vs w = .ok v w' → opClass op.opcode = .frame →
    toMemData.Confined Set.univ w w' ∧ ∀ x ∈ v, ∀ a ∈ prov x, w'.Known a
  pick_spec : ∀ op vs w k w', pick op vs w = .ok k w' →
    toMemData.Confined Set.univ w w'

namespace MemData

variable {D : MemData}

theorem Confined.refl {R : Set ℕ} {w : D.World} (h : ∀ a ∈ D.Reach w [], a ∈ R) :
    D.Confined R w w where
  allocs _ _ _ := rfl
  known _ ha := ha
  contents _ _ _ _ _ _ := ⟨rfl, rfl⟩
  spread a ha := .inl (h a ha)
  sound hw := hw

end MemData

abbrev SmallVal : Type := ℕ × Finset ℕ

/-- The world of the small machine; its environment proposes the identity and the address of the
next stack slot, and supplies the arguments. -/
abbrev SmallWorld : Type := MemWorld SmallVal (ℕ × ℕ × (ℕ → SmallVal))

def SmallWorld.HasRoom (w : SmallWorld) (n : ℕ) : Prop :=
  ¬ w.Known w.ext.1 ∧ ∀ b bl, w.allocs b = some bl → bl.live = true →
    w.ext.2.1 + n ≤ bl.base ∨ bl.base + bl.size ≤ w.ext.2.1

def smallValue (op : Operation) (vs : List SmallVal) : Option SmallVal :=
  match opClass op.opcode, vs with
  | .derive, b :: vs => some (b.1 + (vs.map Prod.fst).sum, b.2)
  | .compare, vs => some (if (vs.map Prod.fst).dedup.length ≤ 1 then 1 else 0, ∅)
  | _, vs => some ((vs.map Prod.fst).sum, vs.foldr (fun v p => v.2 ∪ p) ∅)

theorem mem_foldr_prov {vs : List SmallVal} {a : ℕ}
    (h : a ∈ vs.foldr (fun v p => v.2 ∪ p) (∅ : Finset ℕ)) : ∃ v ∈ vs, a ∈ v.2 := by
  induction vs with
  | nil => simp at h
  | cons v vs ih =>
    rw [List.foldr_cons, Finset.mem_union] at h
    rcases h with h | h
    · exact ⟨v, List.mem_cons_self, h⟩
    · obtain ⟨v', hv', ha⟩ := ih h
      exact ⟨v', List.mem_cons_of_mem _ hv', ha⟩

open Classical in
/-- The data of the small machine: every value is one byte, arithmetic is addition, and what
the module does not define does nothing. -/
noncomputable def smallData : MemData where
  Val := SmallVal
  Byte := SmallVal
  Ext := ℕ × ℕ × (ℕ → SmallVal)
  prov := Prod.snd
  byteProv := Prod.snd
  addr := Prod.fst
  sizeOf _ := 1
  encode _ v := [v]
  decode _ bs := bs.headD (0, ∅)
  mayReadAs _ _ := true
  outside op w := ((w.ext.2.2 op.payload).1, (w.ext.2.2 op.payload).2.filter (· ∈ w.exposed))
  value := smallValue
  slotSize _ _ := 1
  place w n := if SmallWorld.HasRoom w n then some (w.ext.1, w.ext.2.1) else none
  pointer id base := (base, {id})
  sync _ w := w
  foreign _ _ w := .ok none w
  pick _ _ w := .ok 0 w
  truth v := v.1 != 0
  same v v' := v.1 == v'.1
  codeAddr l := (l, ∅)

noncomputable def smallModel : MemModel where
  toMemData := smallData
  prov_outside op w a ha := by
    simp only [smallData, Finset.mem_filter] at ha
    exact ha.2
  prov_codeAddr _ := rfl
  prov_derive op b vs v hc hv := by
    simp only [smallData, smallValue, hc] at hv
    obtain rfl := Option.some.inj hv
    exact Finset.Subset.refl _
  prov_compare op vs v hc hv := by
    simp only [smallData, smallValue, hc] at hv
    obtain rfl := Option.some.inj hv
    rfl
  prov_compute op vs v hv a ha := by
    simp only [smallData, smallValue] at hv
    split at hv
    · rename_i b vs' _
      obtain rfl := Option.some.inj hv
      exact ⟨b, List.mem_cons_self, ha⟩
    · obtain rfl := Option.some.inj hv
      exact absurd ha (Finset.notMem_empty a)
    · obtain rfl := Option.some.inj hv
      exact mem_foldr_prov ha
  prov_encode ty v b hb := by
    obtain rfl : b = v := List.mem_singleton.1 hb
    exact Finset.Subset.refl _
  prov_decode ty bs a ha := by
    cases bs with
    | nil => exact absurd ha (Finset.notMem_empty a)
    | cons b bs => exact ⟨b, List.mem_cons_self, ha⟩
  length_encode _ _ := rfl
  pointer_spec _ _ := ⟨rfl, rfl⟩
  place_spec w n id base h := by
    simp only [smallData] at h
    split_ifs at h with hroom
    obtain ⟨rfl, rfl⟩ : w.ext.1 = id ∧ w.ext.2.1 = base := by simpa using h
    exact hroom
  sync_spec op w := MemData.Confined.refl fun a ha => ha
  foreign_spec op vs w v w' h _ := by
    obtain ⟨rfl, rfl⟩ := Exec.ok.inj h
    refine ⟨MemData.Confined.refl fun a ha => ?_, fun x hx => absurd hx (Option.not_mem_none x)⟩
    rcases ha with ha | ⟨v, hv, -⟩ | ha
    · exact .inl ha
    · simp at hv
    · exact .inr (.inr ha)
  frame_spec op vs w v w' h _ := by
    obtain ⟨rfl, rfl⟩ := Exec.ok.inj h
    exact ⟨MemData.Confined.refl fun a _ => Set.mem_univ a,
      fun x hx => absurd hx (Option.not_mem_none x)⟩
  pick_spec op vs w k w' h := by
    obtain ⟨-, rfl⟩ := Exec.ok.inj h
    exact MemData.Confined.refl fun a _ => Set.mem_univ a

end DssPrime
