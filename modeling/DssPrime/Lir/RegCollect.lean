import DssPrime.Lir.RegHonour
import DssPrime.Lir.AntiAffinity

/-!
# What the allocator collects from a function

The walks of `lir_regalloc.cpp` that fill `RegallocFacts`: where the calls are, what the indirect
callees are, which registers hold incoming arguments, which instructions forbid registers, and which
pairs coalescing must keep apart.  A function is the list of its instructions in block order; the
instruction at index `i` has the early slot `2 * i` and the late slot `2 * i + 1`.

`mem_excludedFor_*` say what of this reaches the exclusions of a class.
-/

namespace DssPrime

def LirReg.IsVirtual (r : LirReg) : Prop := r.regClass ≠ .none ∧ r.isPhysical = false

instance (r : LirReg) : Decidable r.IsVirtual := by
  unfold LirReg.IsVirtual
  infer_instance

/-- An instruction, with what the allocator reads of its opcode and payload. -/
structure LirInst extends ProducingInst where
  isMove : Bool
  isCall : Bool
  /-- For the receiver of an incoming argument, the number of the argument in its class. -/
  argIndex : Option ℕ
  variadic : Bool
  indirectResult : Bool
  /-- Inline assembly is neither a two-address instruction nor a call nor the receiver of an
  argument. -/
  bundle : asmRegion ≠ none → requires2Address = none ∧ isCall = false ∧ argIndex = none

def incomingArgRegister (regs : List TargetRegister) (cc : TargetCallingConvention)
    (resultClass : LirRegClass) (payload : ℕ) : Option ℕ :=
  let pool := match resultClass with
    | .gpr => cc.argGprs
    | .fpr => cc.argFprs
    | _ => []
  pool[payload]?.bind (registerByName regs)

def collectCallPositions (fn : List LirInst) : List ℕ :=
  fn.zipIdx.filterMap fun x => if x.1.isCall then some (2 * x.2) else none

def collectIndirectCalleePositions (fn : List LirInst) : List IndirectCalleeAt :=
  fn.zipIdx.filterMap fun x =>
    if x.1.isCall then
      match x.1.operands.head? with
      | some (some r) =>
        if r.IsVirtual then some ⟨2 * x.2, r.id, x.1.variadic, x.1.indirectResult⟩ else none
      | _ => none
    else none

/-- The registers that hold incoming arguments, each until the late slot of its receiver. -/
def collectArgRegisterOccupied (regs : List TargetRegister) (cc : TargetCallingConvention)
    (fn : List LirInst) : List ArgRegisterOccupiedAt :=
  fn.zipIdx.filterMap fun x =>
    match x.1.argIndex with
    | none => none
    | some payload =>
      if x.1.result.IsVirtual then
        (incomingArgRegister regs cc x.1.result.regClass payload).map fun o =>
          ⟨o, x.1.result.regClass, 2 * x.2 + 1, x.1.result.id⟩
      else none

def collectImplicitClobberPositions (fn : List LirInst) : List ImplicitClobberAt :=
  fn.zipIdx.filterMap fun x =>
    if x.1.forbiddenOrdinals ≠ [] then some ⟨2 * x.2, x.1.forbiddenOrdinals⟩ else none

/-- The pairs of one instruction that must not be coalesced: the result of a two-address instruction
with its untied operands other than the tied one. -/
def forbiddenPairs (inst : LirInst) : List (ℕ × ℕ) :=
  match inst.asmRegion, inst.requires2Address with
  | none, some tied =>
    if inst.result.IsVirtual then
      let tiedId := match inst.operands[tied]? with
        | some (some r) => if r.IsVirtual then r.id else 0
        | _ => 0
      inst.operands.zipIdx.filterMap fun op =>
        match op with
        | (none, _) => none
        | (some r, k) =>
          if ¬ r.IsVirtual then none
          else if k = tied then none
          else if tiedId ≠ 0 ∧ r.id = tiedId then none
          else some (inst.result.id, r.id)
    else []
  | _, _ => []

/-- How many registers of a class the rewriter may have to reload for one instruction: its reads and
writes of virtual registers.  Calls and inline assembly are not counted. -/
def LirInst.reloadDemand (inst : LirInst) (c : LirRegClass) : ℕ :=
  if inst.isCall || inst.asmRegion.isSome then 0
  else (inst.operands.reduceOption ++ [inst.result]).countP fun r => r.IsVirtual ∧ r.regClass = c

/-- The registers of each class that are held back for reloads: the largest demand. -/
def computeReloadReserve (fn : List LirInst) (c : LirRegClass) : ℕ :=
  fn.foldl (fun reserve inst => max reserve (inst.reloadDemand c)) 0

/-- What the allocator collects from a function; `none` if an argument register that is needed has
no number.  The copies, the hints and the frame pointer, on which no constraint rests, are those of
`base`. -/
def collectFacts (regs : List TargetRegister) (cc : TargetCallingConvention)
    (variadicVectorCountReg : Option ℕ) (base : RegallocFacts) (fn : List LirInst) :
    Option RegallocFacts :=
  let callees := collectIndirectCalleePositions fn
  let facts : RegallocFacts := { base with
    totalPositions := 2 * fn.length
    callPositions := collectCallPositions fn
    implicitClobbers := collectImplicitClobberPositions fn
    argOccupied := collectArgRegisterOccupied regs cc fn
    indirectCallees := callees
    ccArgRegOrdinals := []
    ccVariadicCountRegOrdinal := none
    ccIndirectResultRegOrdinal := none
    positionToInst := fun p => fn[p / 2]?.map LirInst.toProducingInst
    forbidden := fn.flatMap forbiddenPairs
    reloadReserve := computeReloadReserve fn }
  if callees = [] then some facts
  else
    ((cc.argGprs ++ cc.argFprs).mapM (registerByName regs)).map fun ords =>
      { facts with
        ccArgRegOrdinals := ords
        ccVariadicCountRegOrdinal := variadicVectorCountReg
        ccIndirectResultRegOrdinal := cc.indirectResultRegister }

/-- The facts are those of the function. -/
structure FactsOf (regs : List TargetRegister) (cc : TargetCallingConvention)
    (variadicVectorCountReg : Option ℕ) (fn : List LirInst) (facts : RegallocFacts) : Prop where
  calls : facts.callPositions = collectCallPositions fn
  clobbers : facts.implicitClobbers = collectImplicitClobberPositions fn
  args : facts.argOccupied = collectArgRegisterOccupied regs cc fn
  callees : facts.indirectCallees = collectIndirectCalleePositions fn
  insts : facts.positionToInst = fun p => fn[p / 2]?.map LirInst.toProducingInst
  pairs : facts.forbidden = fn.flatMap forbiddenPairs
  argRegs : facts.indirectCallees ≠ [] → ∀ name ∈ cc.argGprs ++ cc.argFprs, ∀ o,
    registerByName regs name = some o → o ∈ facts.ccArgRegOrdinals
  count : facts.indirectCallees ≠ [] → facts.ccVariadicCountRegOrdinal = variadicVectorCountReg
  indirect : facts.indirectCallees ≠ [] →
    facts.ccIndirectResultRegOrdinal = cc.indirectResultRegister

theorem mem_of_mapM {α β : Type} {f : α → Option β} {l : List α} {l' : List β}
    (h : l.mapM f = some l') {x : α} (hx : x ∈ l) {y : β} (hy : f x = some y) : y ∈ l' := by
  induction l generalizing l' with
  | nil => cases hx
  | cons a l ih =>
    rw [List.mapM_cons] at h
    simp only [Option.bind_eq_bind, Option.bind_eq_some_iff, Option.pure_def] at h
    obtain ⟨b, hb, bs, hbs, heq⟩ := h
    obtain rfl := Option.some.inj heq
    rcases List.mem_cons.1 hx with rfl | hx
    · rw [hy] at hb
      rw [Option.some.inj hb]
      exact List.mem_cons_self
    · exact List.mem_cons_of_mem _ (ih hbs hx)

theorem collectFacts_factsOf {regs : List TargetRegister} {cc : TargetCallingConvention}
    {variadicVectorCountReg : Option ℕ} {base facts : RegallocFacts} {fn : List LirInst}
    (h : collectFacts regs cc variadicVectorCountReg base fn = some facts) :
    FactsOf regs cc variadicVectorCountReg fn facts := by
  unfold collectFacts at h
  simp only at h
  split_ifs at h with hnone
  · obtain rfl := Option.some.inj h
    exact ⟨rfl, rfl, rfl, rfl, rfl, rfl, fun hne => absurd hnone hne, fun hne => absurd hnone hne,
      fun hne => absurd hnone hne⟩
  · obtain ⟨ords, hords, rfl⟩ := Option.map_eq_some_iff.1 h
    exact ⟨rfl, rfl, rfl, rfl, rfl, rfl, fun _ name hname o ho => mem_of_mapM hords hname ho,
      fun _ => rfl, fun _ => rfl⟩

theorem collectFacts_lists {regs : List TargetRegister} {cc : TargetCallingConvention}
    {variadicVectorCountReg : Option ℕ} {base facts : RegallocFacts} {fn : List LirInst}
    (h : collectFacts regs cc variadicVectorCountReg base fn = some facts) :
    facts.reloadReserve = computeReloadReserve fn ∧
      facts.reservedFramePointer = base.reservedFramePointer := by
  unfold collectFacts at h
  simp only at h
  split_ifs at h
  · obtain rfl := Option.some.inj h
    exact ⟨rfl, rfl⟩
  · obtain ⟨ords, -, rfl⟩ := Option.map_eq_some_iff.1 h
    exact ⟨rfl, rfl⟩

section Walks

variable {fn : List LirInst} {i : ℕ} {inst : LirInst}

theorem mem_zipIdx_of_get (hi : fn[i]? = some inst) : (inst, i) ∈ fn.zipIdx :=
  List.mem_zipIdx_iff_getElem?.2 hi

theorem mem_collectCallPositions (hi : fn[i]? = some inst) (hcall : inst.isCall = true) :
    2 * i ∈ collectCallPositions fn :=
  List.mem_filterMap.2 ⟨_, mem_zipIdx_of_get hi, by simp [hcall]⟩

theorem collectCallPositions_sorted (fn : List LirInst) :
    (collectCallPositions fn).Pairwise (· < ·) := by
  have hidx : fn.zipIdx.Pairwise fun x y => x.2 < y.2 := by
    rw [← List.pairwise_map]
    rw [List.zipIdx_map_snd]
    exact List.pairwise_lt_range'
  refine hidx.filterMap _ ?_
  intro x y hxy p hp q hq
  split_ifs at hp hq
  simp only [Option.some.injEq] at hp hq
  omega

theorem mem_collectImplicitClobberPositions (hi : fn[i]? = some inst)
    (hne : inst.forbiddenOrdinals ≠ []) :
    ⟨2 * i, inst.forbiddenOrdinals⟩ ∈ collectImplicitClobberPositions fn :=
  List.mem_filterMap.2 ⟨_, mem_zipIdx_of_get hi, by simp [hne]⟩

theorem mem_collectIndirectCalleePositions (hi : fn[i]? = some inst) (hcall : inst.isCall = true)
    {r : LirReg} (hr : inst.operands.head? = some (some r)) (hv : r.IsVirtual) :
    ⟨2 * i, r.id, inst.variadic, inst.indirectResult⟩ ∈ collectIndirectCalleePositions fn :=
  List.mem_filterMap.2 ⟨_, mem_zipIdx_of_get hi, by simp [hcall, hr, hv]⟩

theorem mem_collectArgRegisterOccupied {regs : List TargetRegister} {cc : TargetCallingConvention}
    (hi : fn[i]? = some inst) {payload o : ℕ} (harg : inst.argIndex = some payload)
    (hv : inst.result.IsVirtual)
    (ho : incomingArgRegister regs cc inst.result.regClass payload = some o) :
    ⟨o, inst.result.regClass, 2 * i + 1, inst.result.id⟩ ∈
      collectArgRegisterOccupied regs cc fn :=
  List.mem_filterMap.2 ⟨_, mem_zipIdx_of_get hi, by simp [harg, hv, ho]⟩

theorem mem_forbiddenPairs {tied k : ℕ} (htied : inst.requires2Address = some tied)
    (hresult : inst.result.IsVirtual) {r : LirReg} (hr : inst.operands[k]? = some (some r))
    (hk : k ≠ tied) (hv : r.IsVirtual)
    (hne : ∀ t, inst.operands[tied]? = some (some t) → t.IsVirtual → t.id ≠ r.id) :
    (inst.result.id, r.id) ∈ forbiddenPairs inst := by
  have hasm : inst.asmRegion = none := by
    by_contra hasm
    rw [(inst.bundle hasm).1] at htied
    cases htied
  unfold forbiddenPairs
  rw [hasm, htied]
  simp only [hresult, ↓reduceIte]
  refine List.mem_filterMap.2 ⟨(some r, k), List.mem_zipIdx_iff_getElem?.2 hr, ?_⟩
  simp only [hv, not_true_eq_false, ↓reduceIte, hk]
  rw [if_neg]
  rintro ⟨h0, heq⟩
  split at heq
  · rename_i t ht
    rw [ht] at h0
    split_ifs at heq with htv
    · exact hne t ht htv heq.symm
    · simp [htv] at h0
  · rename_i hnone
    split at h0
    · rename_i t ht
      exact hnone t ht
    · exact h0 rfl

end Walks

section Folds

variable {α : Type} {f : List ℕ → α → List ℕ} (hmono : ∀ out a x, x ∈ out → x ∈ f out a)
include hmono

theorem mem_foldl_of_mem_acc (l : List α) {out : List ℕ} {x : ℕ} (hx : x ∈ out) :
    x ∈ l.foldl f out := by
  induction l generalizing out with
  | nil => exact hx
  | cons a l ih => exact ih (hmono out a x hx)

theorem mem_foldl_of_mem {l : List α} {out : List ℕ} {x : ℕ} {a : α} (ha : a ∈ l)
    (hx : ∀ out, x ∈ f out a) : x ∈ l.foldl f out := by
  induction l generalizing out with
  | nil => cases ha
  | cons b l ih =>
    rcases List.mem_cons.1 ha with rfl | ha
    · exact mem_foldl_of_mem_acc hmono l (hx out)
    · exact ih ha

end Folds

theorem mem_addExcluded_of_mem (out : List ℕ) (o x : ℕ) (hx : x ∈ out) : x ∈ addExcluded out o := by
  unfold addExcluded
  split_ifs
  · exact hx
  · exact List.mem_append_left _ hx

theorem mem_addExcluded_self (out : List ℕ) (o : ℕ) : o ∈ addExcluded out o := by
  unfold addExcluded
  split_ifs with h
  · exact h
  · simp

theorem mem_addAll_of_mem (l : List ℕ) {out : List ℕ} {x : ℕ} (hx : x ∈ out) :
    x ∈ l.foldl addExcluded out :=
  mem_foldl_of_mem_acc mem_addExcluded_of_mem l hx

theorem mem_addAll {l : List ℕ} (out : List ℕ) {x : ℕ} (hx : x ∈ l) :
    x ∈ l.foldl addExcluded out :=
  mem_foldl_of_mem mem_addExcluded_of_mem hx fun out => mem_addExcluded_self out x

section Excluded

variable {facts : RegallocFacts} {rangeOf : ℕ → LirLiveRange} {members : List ℕ}
  {assignments : ℕ → Option LirLocation} {r : LirLiveRange} {x : ℕ}

theorem clobberStep_mono (out : List ℕ) (c : ImplicitClobberAt) (x : ℕ) (hx : x ∈ out) :
    x ∈ (if c.position < r.start ∨ c.position ≥ r.end then out
      else c.forbiddenOrdinals.foldl addExcluded out) := by
  split_ifs
  · exact hx
  · exact mem_addAll_of_mem _ hx

theorem calleeStep_mono (out : List ℕ) (ic : IndirectCalleeAt) (x : ℕ) (hx : x ∈ out) :
    x ∈ (if ic.calleeVregId ∉ members then out
      else if ic.position < r.start ∨ ic.position ≥ r.end then out
      else
        let out := facts.ccArgRegOrdinals.foldl addExcluded out
        let out := if ic.variadic then
            facts.ccVariadicCountRegOrdinal.toList.foldl addExcluded out
          else out
        if ic.indirectResult then facts.ccIndirectResultRegOrdinal.toList.foldl addExcluded out
        else out) := by
  have h1 := mem_addAll_of_mem facts.ccArgRegOrdinals hx
  have h2 := mem_addAll_of_mem facts.ccVariadicCountRegOrdinal.toList h1
  by_cases hm : ic.calleeVregId ∉ members
  · rw [if_pos hm]
    exact hx
  · rw [if_neg hm]
    simp only
    split_ifs
    · exact hx
    · exact mem_addAll_of_mem _ h2
    · exact mem_addAll_of_mem _ h1
    · exact h2
    · exact h1

theorem memberStep_mono (ao : ArgRegisterOccupiedAt) (out : List ℕ) (m x : ℕ) (hx : x ∈ out) :
    x ∈ (if m = ao.paramVregId then out
      else if (rangeOf m).start < ao.releasePos then addExcluded out ao.ordinal else out) := by
  split_ifs
  · exact hx
  · exact mem_addExcluded_of_mem _ _ _ hx
  · exact hx

theorem argStep_mono (out : List ℕ) (ao : ArgRegisterOccupiedAt) (x : ℕ) (hx : x ∈ out) :
    x ∈ (if ao.cls ≠ r.regClass then out
      else members.foldl (fun out m =>
        if m = ao.paramVregId then out
        else if (rangeOf m).start < ao.releasePos then addExcluded out ao.ordinal
          else out) out) := by
  split_ifs
  · exact hx
  · exact mem_foldl_of_mem_acc (memberStep_mono ao) members hx

theorem mem_excludedFor_producer {m : ℕ} (hm : m ∈ members)
    (hx : x ∈ excludedByProducer facts assignments (rangeOf m)) :
    x ∈ excludedFor facts rangeOf members assignments r := by
  unfold excludedFor
  refine mem_foldl_of_mem_acc argStep_mono _ (mem_foldl_of_mem_acc calleeStep_mono _
    (mem_foldl_of_mem_acc clobberStep_mono _ ?_))
  exact List.mem_flatMap.2 ⟨m, hm, hx⟩

theorem mem_excludedFor_clobber {c : ImplicitClobberAt} (hc : c ∈ facts.implicitClobbers)
    (hstart : r.start ≤ c.position) (hend : c.position < r.end) (hx : x ∈ c.forbiddenOrdinals) :
    x ∈ excludedFor facts rangeOf members assignments r := by
  unfold excludedFor
  refine mem_foldl_of_mem_acc argStep_mono _ (mem_foldl_of_mem_acc calleeStep_mono _
    (mem_foldl_of_mem clobberStep_mono hc fun out => ?_))
  rw [if_neg (by omega)]
  exact mem_addAll out hx

theorem mem_excludedFor_callee {ic : IndirectCalleeAt} (hic : ic ∈ facts.indirectCallees)
    (hm : ic.calleeVregId ∈ members) (hstart : r.start ≤ ic.position) (hend : ic.position < r.end)
    (hx : x ∈ facts.ccArgRegOrdinals ∨
      (ic.variadic = true ∧ facts.ccVariadicCountRegOrdinal = some x) ∨
      (ic.indirectResult = true ∧ facts.ccIndirectResultRegOrdinal = some x)) :
    x ∈ excludedFor facts rangeOf members assignments r := by
  unfold excludedFor
  refine mem_foldl_of_mem_acc argStep_mono _ (mem_foldl_of_mem calleeStep_mono hic fun out => ?_)
  rw [if_neg (not_not.2 hm), if_neg (by omega)]
  simp only
  rcases hx with hx | ⟨hvariadic, hx⟩ | ⟨hindirect, hx⟩
  · have h1 := mem_addAll out hx
    have h2 := mem_addAll_of_mem facts.ccVariadicCountRegOrdinal.toList h1
    split_ifs
    · exact mem_addAll_of_mem _ h2
    · exact mem_addAll_of_mem _ h1
    · exact h2
    · exact h1
  · have h2 : x ∈ facts.ccVariadicCountRegOrdinal.toList.foldl addExcluded
        (facts.ccArgRegOrdinals.foldl addExcluded out) := mem_addAll _ (by simp [hx])
    rw [if_pos hvariadic]
    split_ifs
    · exact mem_addAll_of_mem _ h2
    · exact h2
  · rw [if_pos hindirect]
    exact mem_addAll _ (by simp [hx])

theorem mem_excludedFor_arg {ao : ArgRegisterOccupiedAt} (hao : ao ∈ facts.argOccupied)
    (hcls : ao.cls = r.regClass) {m : ℕ} (hm : m ∈ members) (hne : m ≠ ao.paramVregId)
    (hstart : (rangeOf m).start < ao.releasePos) :
    ao.ordinal ∈ excludedFor facts rangeOf members assignments r := by
  unfold excludedFor
  refine mem_foldl_of_mem argStep_mono hao fun out => ?_
  rw [if_neg (not_not.2 hcls)]
  refine mem_foldl_of_mem (memberStep_mono ao) hm fun out => ?_
  rw [if_neg hne, if_pos hstart]
  exact mem_addExcluded_self out ao.ordinal

end Excluded

end DssPrime
