import DssPrime.Lir.RegCollect

/-!
# Allocation honours the register constraints

The constraints on where a function's virtual registers may be kept, and that the final assignment
of `allocateOneFunc` meets them.
-/

namespace DssPrime

/-- What the live ranges of a function are relied on for: a virtual register is live from its first
definition to after its last use. -/
structure Liveness (fn : List LirInst) (ranges : List LirLiveRange) : Prop where
  ok : LiveRanges ranges
  written : ∀ (i : ℕ) (inst : LirInst), fn[i]? = some inst → inst.asmRegion = none →
    inst.result.IsVirtual → ∃ r ∈ ranges, r.vreg = inst.result.id ∧
      r.regClass = inst.result.regClass ∧ r.start ≤ 2 * i + 1
  read : ∀ (i : ℕ) (inst : LirInst), fn[i]? = some inst → inst.asmRegion = none →
    ∀ op, some op ∈ inst.operands → op.IsVirtual → ∃ r ∈ ranges, r.vreg = op.id ∧
      r.regClass = op.regClass ∧ 2 * i < r.end

/-- An operand that is not the tied one, nor the same register as the tied one. -/
def LirInst.Untied (inst : LirInst) (tied : ℕ) (op : LirReg) : Prop :=
  (∃ k, k ≠ tied ∧ inst.operands[k]? = some (some op)) ∧ inst.operands[tied]? ≠ some (some op)

/-- The constraints on the places of the virtual registers of a function. -/
structure RegisterConstraints (regs : List TargetRegister) (cc : TargetCallingConvention)
    (variadicVectorCountReg : Option ℕ) (fn : List LirInst) (ranges : List LirLiveRange)
    (a : ℕ → Option LirLocation) : Prop where
  /-- What is live across a call is in no register that the call may change. -/
  calls : ∀ (i : ℕ) (inst : LirInst), fn[i]? = some inst → inst.isCall = true → ∀ r ∈ ranges,
    r.start ≤ 2 * i → 2 * i + 1 < r.end → ∀ p c, a r.vreg = some (.phys p c) →
    ∀ info, regs[p]? = some info → info.name ∉ cc.callerSaved
  /-- What is live at an instruction is in no register that the instruction forbids. -/
  forbidden : ∀ (i : ℕ) (inst : LirInst), fn[i]? = some inst → ∀ r ∈ ranges, r.start ≤ 2 * i →
    2 * i < r.end → ∀ p c, a r.vreg = some (.phys p c) → p ∉ inst.forbiddenOrdinals
  /-- What starts while an incoming argument is unread is not in the argument's register. -/
  incoming : ∀ (i : ℕ) (inst : LirInst), fn[i]? = some inst → ∀ payload,
    inst.argIndex = some payload → inst.result.IsVirtual → ∀ p,
    incomingArgRegister regs cc inst.result.regClass payload = some p →
    ∀ r ∈ ranges, r.vreg ≠ inst.result.id → r.start < 2 * i + 1 →
    a r.vreg ≠ some (.phys p inst.result.regClass)
  /-- The result of a two-address instruction shares no register with its untied operands nor with
  what the instruction forbids. -/
  twoAddress : ∀ (i : ℕ) (inst : LirInst), fn[i]? = some inst → ∀ tied,
    inst.requires2Address = some tied → inst.result.IsVirtual → ∀ p c,
    a inst.result.id = some (.phys p c) →
    (∀ op, inst.Untied tied op → (op.isPhysical = true → op.id ≠ p) ∧
      (op.IsVirtual → a op.id ≠ some (.phys p c))) ∧ p ∉ inst.forbiddenOrdinals
  /-- An indirect callee is in no register that its call sets up. -/
  callee : ∀ (i : ℕ) (inst : LirInst), fn[i]? = some inst → inst.isCall = true → ∀ op,
    inst.operands.head? = some (some op) → op.IsVirtual → ∀ p c, a op.id = some (.phys p c) →
    (∀ name ∈ cc.argGprs ++ cc.argFprs, registerByName regs name ≠ some p) ∧
    (inst.variadic = true → variadicVectorCountReg ≠ some p) ∧
    (inst.indirectResult = true → cc.indirectResultRegister ≠ some p)

/-- The reasons for which a range cannot be placed in a register, whatever two-address instructions
there are: the register is not handed out for the class, a call in the range may change it, an
instruction in the range forbids it, or it holds an argument when the range starts. -/
inductive Barred (regs : List TargetRegister) (cc : TargetCallingConvention)
    (reservedFramePointer : Option ℕ) (fn : List LirInst) (r : LirLiveRange) (p : ℕ) : Prop
  | notFree (h : p ∉
      (buildFreeLists regs cc (computeReloadReserve fn) reservedFramePointer r.regClass).all)
  | call {i : ℕ} {inst : LirInst} {info : TargetRegister} (hi : fn[i]? = some inst)
    (hcall : inst.isCall = true) (hstart : r.start ≤ 2 * i) (hend : 2 * i + 1 < r.end)
    (hinfo : regs[p]? = some info) (hsaved : info.name ∈ cc.callerSaved)
  | forbidden {i : ℕ} {inst : LirInst} (hi : fn[i]? = some inst) (hstart : r.start ≤ 2 * i)
    (hend : 2 * i < r.end) (hp : p ∈ inst.forbiddenOrdinals)
  | incoming {i payload : ℕ} {inst : LirInst} (hi : fn[i]? = some inst)
    (harg : inst.argIndex = some payload) (hv : inst.result.IsVirtual)
    (hcls : r.regClass = inst.result.regClass) (hne : r.vreg ≠ inst.result.id)
    (hstart : r.start < 2 * i + 1)
    (hin : incomingArgRegister regs cc inst.result.regClass payload = some p)

/-- The condition on a function.  A two-address instruction either starts the range of its result,
and then its virtual untied operands are defined before it, or these are live together with the
result and the physical ones, and what the instruction forbids, are barred from the result's range
anyway.  No two-address result is its own untied operand, and indirect callees are defined before
their calls. -/
structure OperandsSettled (regs : List TargetRegister) (cc : TargetCallingConvention)
    (reservedFramePointer : Option ℕ) (fn : List LirInst) (ranges : List LirLiveRange) : Prop where
  untied : ∀ (i : ℕ) (inst : LirInst), fn[i]? = some inst → ∀ tied,
    inst.requires2Address = some tied → inst.result.IsVirtual →
    ∀ r ∈ ranges, r.vreg = inst.result.id → ∀ op, inst.Untied tied op → op.IsVirtual →
    op.id ≠ inst.result.id ∧ ∀ s ∈ ranges, s.vreg = op.id →
      lirRangesInterfere r s = true ∨ s.start ≤ 2 * i ∧ 2 * i ≤ r.start
  physical : ∀ (i : ℕ) (inst : LirInst), fn[i]? = some inst → ∀ tied,
    inst.requires2Address = some tied → inst.result.IsVirtual →
    ∀ r ∈ ranges, r.vreg = inst.result.id → r.start < 2 * i →
    ∀ op, inst.Untied tied op → op.isPhysical = true →
    Barred regs cc reservedFramePointer fn r op.id
  forbidden : ∀ (i : ℕ) (inst : LirInst), fn[i]? = some inst → ∀ tied,
    inst.requires2Address = some tied → inst.result.IsVirtual →
    ∀ r ∈ ranges, r.vreg = inst.result.id → r.start < 2 * i →
    ∀ p ∈ inst.forbiddenOrdinals, Barred regs cc reservedFramePointer fn r p
  callee : ∀ (i : ℕ) (inst : LirInst), fn[i]? = some inst → inst.isCall = true → ∀ op,
    inst.operands.head? = some (some op) → op.IsVirtual →
    ∀ r ∈ ranges, r.vreg = op.id → r.start ≤ 2 * i

section Given

variable {facts : RegallocFacts} {part : CoalescePartition} {rangeOf : ℕ → LirLiveRange}
  {st : ScanState} {given : LirRegClass → List ℕ}

/-- Every register in play, free, held or placed, is one of those given for its class. -/
structure Given (given : LirRegClass → List ℕ) (st : ScanState) : Prop where
  pool : ∀ c, ∀ o ∈ poolOf st.free st.active c, o ∈ given c
  placed : ∀ x o c, st.assignments x = some (.phys o c) → o ∈ given c

/-- A class that goes to a slot takes no register. -/
theorem Given.spilled (h : Given given st) (cls : LirRegClass) (range : LirLiveRange)
    (members : List ℕ) :
    Given given { (acquireSlot st cls range).1 with
      assignments := assignClass (acquireSlot st cls range).1.assignments members
        (.spill (acquireSlot st cls range).2) } := by
  obtain ⟨hfree, hactive, hassign⟩ := acquireSlot_same st cls range
  refine ⟨fun c o ho => h.pool c o ?_, fun x o c hx => h.placed x o c ?_⟩
  · simpa only [hfree, hactive] using ho
  · simp only [hassign, assignClass_apply] at hx
    split_ifs at hx
    · cases hx
    · exact hx

/-- A class that gets a register gets one of those in play. -/
theorem Given.taken {st' : ScanState} (h : Given given st) {o : ℕ} {cls : LirRegClass}
    {members : List ℕ} (ho : o ∈ given cls)
    (hall : ∀ c, ∀ x ∈ (st'.free c).all, x ∈ given c)
    (hactive : ∀ x ∈ st'.active, x ∈ st.active ∨ x.physOrdinal = o ∧ x.cls = cls)
    (ha : st'.assignments = assignClass st.assignments members (.phys o cls)) :
    Given given st' := by
  refine ⟨fun c x hx => ?_, fun x o' c hx => ?_⟩
  · rcases List.mem_append.1 hx with hx | hx
    · exact hall c x hx
    · obtain ⟨e, he, rfl⟩ := List.mem_map.1 hx
      obtain ⟨hmem, hc⟩ := List.mem_filter.1 he
      obtain rfl : e.cls = c := of_decide_eq_true hc
      rcases hactive e hmem with hold | ⟨heo, hec⟩
      · exact h.pool _ _ (List.mem_append_right _ (mem_heldOrdinals hold rfl))
      · rw [heo, hec]
        exact ho
  · rw [ha, assignClass_apply] at hx
    split_ifs at hx
    · obtain ⟨rfl, rfl⟩ := LirLocation.phys.inj (Option.some.inj hx)
      exact ho
    · exact h.placed x o' c hx

theorem scanClass_given (h : Given given st) (root : ℕ) :
    Given given (scanClass facts part rangeOf st root) := by
  unfold scanClass
  simp only
  by_cases hv : (part.hull root).vreg = 0
  · rw [if_pos hv]
    exact h
  rw [if_neg hv]
  by_cases hcls : (part.hull root).regClass = .none
  · rw [if_pos hcls]
    exact h
  rw [if_neg hcls]
  have hexp := (expireActive_spec (part.hull root).start st.active st.free).1
  generalize expireActive (part.hull root).start st.active st.free = ex at hexp
  obtain ⟨active, free⟩ := ex
  have hst : Given given { st with active := active, free := free } :=
    ⟨fun c o ho => h.pool c o ((hexp c).mem_iff.1 ho), h.placed⟩
  generalize excludedFor facts rangeOf (part.members root) st.assignments (part.hull root) =
    excluded
  generalize rangeCrossesCall (part.hull root) facts.callPositions = crossesCall
  simp only
  split
  · -- a register is free
    rename_i pick free' hpick
    have htook : Took free (part.hull root).regClass pick.ordinal free' := by
      split at hpick
      · rename_i p hp
        obtain rfl := Option.some.inj hpick
        exact tryAllocatePreferred_took hp
      · exact tryAllocateExcluding_took hpick
    have hfree : ∀ c, ∀ o ∈ (free c).all, o ∈ given c := fun c o ho =>
      hst.pool c o (List.mem_append_left _ ho)
    refine hst.taken (hfree _ _ (htook.1.mem_iff.2 List.mem_cons_self)) (fun c o ho => ?_)
      (fun x hx => ?_) rfl
    · by_cases hc : c = (part.hull root).regClass
      · subst hc
        exact hfree _ o (htook.1.mem_iff.2 (List.mem_cons_of_mem _ ho))
      · simp only [htook.2 c hc] at ho
        exact hfree c o ho
    · refine (List.mem_append.1 hx).imp id fun hx => ?_
      rw [List.mem_singleton.1 hx]
      exact ⟨rfl, rfl⟩
  · split
    · rename_i e he
      split_ifs
      · -- the candidate goes to a slot and its register to the class
        obtain ⟨hmem, hecls⟩ := findSpillCandidate_mem he
        obtain ⟨hfree, hactive, hassign⟩ :=
          acquireSlot_same { st with active := active, free := free } e.cls e.range
        have hgiven : e.physOrdinal ∈ given (part.hull root).regClass :=
          hst.pool _ _ (List.mem_append_right _ (mem_heldOrdinals hmem hecls))
        have hslot := hst.spilled e.cls e.range (part.members e.classRoot)
        refine hslot.taken hgiven (fun c o ho => ?_) (fun x hx => ?_) rfl
        · exact hslot.pool c o (List.mem_append_left _ ho)
        · refine (List.mem_append.1 hx).imp List.mem_of_mem_erase fun hx => ?_
          rw [List.mem_singleton.1 hx]
          exact ⟨rfl, rfl⟩
      · exact hst.spilled _ _ _
    · exact hst.spilled _ _ _

/-- Every register of the assignment comes from the free lists. -/
theorem mem_free_of_allocateOneFunc {regs : List TargetRegister} {cc : TargetCallingConvention}
    {ranges : List LirLiveRange} {x o : ℕ} {c : LirRegClass}
    (h : allocateOneFunc regs cc facts ranges x = some (.phys o c)) :
    o ∈ (buildFreeLists regs cc facts.reloadReserve facts.reservedFramePointer c).all := by
  let free := buildFreeLists regs cc facts.reloadReserve facts.reservedFramePointer
  have hrun : ∀ (rs : List ℕ) (st : ScanState), Given (fun c => (free c).all) st →
      Given (fun c => (free c).all)
        (rs.foldl (scanClass facts (partitionOf facts free ranges) (rangeTable ranges)) st) := by
    intro rs
    induction rs with
    | nil => exact fun st hst => hst
    | cons root rs ih => exact fun st hst => ih _ (scanClass_given hst root)
  refine (hrun _ (.start free) ⟨fun c o ho => ?_, fun x o c hx => by cases hx⟩).placed x o c h
  simpa [poolOf, heldOrdinals, ScanState.start] using ho

end Given

theorem reserveFrom_calleeSaved (argOrdinals : List ℕ) (k : ℕ) (bucket : RegList) {o : ℕ}
    (ho : o ∈ (reserveFrom argOrdinals k bucket).1.calleeSaved) : o ∈ bucket.calleeSaved := by
  unfold reserveFrom at ho
  simp only at ho
  split_ifs at ho
  · exact ho
  · exact (drawReserve_sublist argOrdinals _ _ _).subset ho
  · exact ho

theorem buildFreeLists_calleeSaved {regs : List TargetRegister} {cc : TargetCallingConvention}
    {reloadReserve : LirRegClass → ℕ} {fp : Option ℕ} {c : LirRegClass} {o : ℕ}
    (ho : o ∈ (buildFreeLists regs cc reloadReserve fp c).calleeSaved) :
    ∃ info, regs[o]? = some info ∧ info.name ∉ cc.callerSaved := by
  have key : ∀ (l : List (TargetRegister × ℕ)) (free : FreeListsByClass),
      (∀ x ∈ l, regs[x.2]? = some x.1) →
      (∀ c, ∀ o ∈ (free c).calleeSaved, ∃ info, regs[o]? = some info ∧ info.name ∉ cc.callerSaved) →
      ∀ c, ∀ o ∈ (l.foldl (addFreeReg cc fp) free c).calleeSaved,
        ∃ info, regs[o]? = some info ∧ info.name ∉ cc.callerSaved := by
    intro l
    induction l with
    | nil => exact fun free _ hfree => hfree
    | cons x l ih =>
      intro free hl hfree
      obtain ⟨hx, hl⟩ := List.forall_mem_cons.1 hl
      refine ih _ hl fun c o ho => ?_
      obtain ⟨info, i⟩ := x
      unfold addFreeReg at ho
      simp only at ho
      by_cases h1 : info.regClass = .none
      · rw [if_pos h1] at ho
        exact hfree c o ho
      rw [if_neg h1] at ho
      by_cases h2 : info.name ∉ cc.allocatable
      · rw [if_pos h2] at ho
        exact hfree c o ho
      rw [if_neg h2] at ho
      by_cases h3 : fp = some i
      · rw [if_pos h3] at ho
        exact hfree c o ho
      rw [if_neg h3] at ho
      by_cases hc : c = info.regClass
      · subst hc
        rw [Function.update_self] at ho
        split_ifs at ho with hsaved
        · exact hfree _ o ho
        · rcases List.mem_append.1 ho with ho | ho
          · exact hfree _ o ho
          · rw [List.mem_singleton.1 ho]
            exact ⟨info, hx, hsaved⟩
      · rw [Function.update_of_ne hc] at ho
        exact hfree c o ho
  unfold buildFreeLists at ho
  refine key regs.zipIdx (fun _ => ⟨[], []⟩) (fun x hx => List.mem_zipIdx_iff_getElem?.1 hx)
    (fun c o ho => by cases ho) c o (reserveFrom_calleeSaved _ _ _ ho)

theorem rangeCrossesCall_of_mem {r : LirLiveRange} {callPositions : List ℕ} {x : ℕ}
    (hsorted : callPositions.Pairwise (· < ·)) (hx : x ∈ callPositions) (hstart : r.start ≤ x)
    (hend : x + 1 < r.end) : rangeCrossesCall r callPositions = true := by
  unfold rangeCrossesCall
  cases hfind : callPositions.find? fun c => decide (c ≥ r.start) with
  | none =>
    have := List.find?_eq_none.1 hfind x hx
    simp only [ge_iff_le, decide_eq_true_eq] at this
    omega
  | some y =>
    obtain ⟨-, before, after, rfl, hbefore⟩ := List.find?_eq_some_iff_append.1 hfind
    -- the first call found is no later than this one
    have hle : y ≤ x := by
      rcases List.mem_append.1 hx with hx | hx
      · have := hbefore x hx
        simp only [ge_iff_le, Bool.not_eq_true', decide_eq_false_iff_not] at this
        omega
      · rcases List.mem_cons.1 hx with rfl | hx
        · exact le_rfl
        · have := (List.pairwise_append.1 hsorted).2.1
          exact le_of_lt ((List.pairwise_cons.1 this).1 x hx)
    simp only [decide_eq_true_eq]
    omega

section Kept

variable {regs : List TargetRegister} {cc : TargetCallingConvention} {facts : RegallocFacts}
  {ranges : List LirLiveRange}

/-- What is known of a range that ended in register `p`: the class it belongs to, and the exclusions
its register was chosen by. -/
structure KeptIn (regs : List TargetRegister) (cc : TargetCallingConvention) (facts : RegallocFacts)
    (ranges : List LirLiveRange) (part : CoalescePartition) (r : LirLiveRange) (p : ℕ)
    (before : List ℕ) (root : ℕ) (after : List ℕ) (a₀ : ℕ → Option LirLocation) : Prop where
  split : classRoots ranges part = before ++ root :: after
  mem : r.vreg ∈ part.members root
  start : (part.hull root).start ≤ r.start
  ends : r.end ≤ (part.hull root).end
  cls : (part.hull root).regClass = r.regClass
  kept : rangeCrossesCall (part.hull root) facts.callPositions = true →
    ∃ info, regs[p]? = some info ∧ info.name ∉ cc.callerSaved
  free : p ∉ excludedFor facts (rangeTable ranges) (part.members root) a₀ (part.hull root)
  settled : ∀ s ∈ before, ∀ x ∈ part.members s, ∀ o c,
    allocateOneFunc regs cc facts ranges x = some (.phys o c) → a₀ x = some (.phys o c)

theorem exists_keptIn (hranges : LiveRanges ranges) {r : LirLiveRange} (hr : r ∈ ranges) {p : ℕ}
    {c : LirRegClass} (hp : allocateOneFunc regs cc facts ranges r.vreg = some (.phys p c)) :
    c = r.regClass ∧ ∃ before root after a₀, KeptIn regs cc facts ranges
      (partitionOf facts (buildFreeLists regs cc facts.reloadReserve facts.reservedFramePointer)
        ranges) r p before root after a₀ := by
  obtain ⟨hsound, -⟩ := allocateOneFunc_inv regs cc facts hranges
  set free := buildFreeLists regs cc facts.reloadReserve facts.reservedFramePointer with hfree
  set part := partitionOf facts free ranges with hpart
  obtain ⟨hnodup, -⟩ := @classRoots_sorted ranges part
  have hstart : Honours (fun c => (free c).calleeSaved) facts part (rangeTable ranges) []
      (.start free) :=
    ⟨⟨fun c o ho => ho, fun e he => by cases he⟩, fun before s after h => by simp at h,
      fun x _ o c h => by cases h⟩
  have hend := honours_foldl hsound (classRoots ranges part) hstart (by simpa using hnodup)
  rw [List.nil_append] at hend
  obtain ⟨root, hmem⟩ := hsound.cover r.vreg (rangeTable_ne hr (hranges.ok r hr).1)
  obtain ⟨hroot, hrange, -⟩ := hsound.root root _ hmem
  obtain ⟨before, after, hsplit⟩ :=
    List.append_of_mem ((mem_classRoots hsound).2 ⟨hrange, hroot⟩)
  obtain ⟨hcls, a₀, hallowed, hsettled⟩ := hend.chosen before root after hsplit _ hmem p c hp
  obtain ⟨h1, h2, h3⟩ := hsound.within root _ hmem
  rw [rangeTable_eq hranges hr] at h1 h2 h3
  refine ⟨hcls.trans h3.symm, before, root, after, a₀, ⟨hsplit, hmem, h1, h2, h3.symm, ?_,
    hallowed.free, hsettled⟩⟩
  intro hcross
  exact buildFreeLists_calleeSaved (hallowed.kept hcross)

variable {part : CoalescePartition} {r : LirLiveRange} {p : ℕ} {before : List ℕ} {root : ℕ}
  {after : List ℕ} {a₀ : ℕ → Option LirLocation} {variadicVectorCountReg : Option ℕ}
  {fn : List LirInst} {i : ℕ} {inst : LirInst}

theorem KeptIn.not_callerSaved (h : KeptIn regs cc facts ranges part r p before root after a₀)
    (hc : FactsOf regs cc variadicVectorCountReg fn facts) (hi : fn[i]? = some inst)
    (hcall : inst.isCall = true) (hstart : r.start ≤ 2 * i) (hend : 2 * i + 1 < r.end)
    {info : TargetRegister} (hinfo : regs[p]? = some info) : info.name ∉ cc.callerSaved := by
  have h1 := h.start
  have h2 := h.ends
  have hmem : 2 * i ∈ facts.callPositions := by
    rw [hc.calls]
    exact mem_collectCallPositions hi hcall
  have hsorted : facts.callPositions.Pairwise (· < ·) := by
    rw [hc.calls]
    exact collectCallPositions_sorted fn
  obtain ⟨info', hinfo', hname⟩ :=
    h.kept (rangeCrossesCall_of_mem hsorted hmem (by omega) (by omega))
  rw [hinfo] at hinfo'
  rw [Option.some.inj hinfo']
  exact hname

theorem KeptIn.not_forbidden (h : KeptIn regs cc facts ranges part r p before root after a₀)
    (hc : FactsOf regs cc variadicVectorCountReg fn facts) (hi : fn[i]? = some inst)
    (hstart : r.start ≤ 2 * i) (hend : 2 * i < r.end) : p ∉ inst.forbiddenOrdinals := by
  intro hp
  have h1 := h.start
  have h2 := h.ends
  have hmem : ⟨2 * i, inst.forbiddenOrdinals⟩ ∈ facts.implicitClobbers := by
    rw [hc.clobbers]
    exact mem_collectImplicitClobberPositions hi (List.ne_nil_of_mem hp)
  exact h.free (mem_excludedFor_clobber hmem (by simp only; omega) (by simp only; omega) hp)

theorem KeptIn.not_incoming (h : KeptIn regs cc facts ranges part r p before root after a₀)
    (hc : FactsOf regs cc variadicVectorCountReg fn facts) (hranges : LiveRanges ranges)
    (hr : r ∈ ranges) (hi : fn[i]? = some inst) {payload : ℕ}
    (harg : inst.argIndex = some payload) (hv : inst.result.IsVirtual)
    (hcls : r.regClass = inst.result.regClass) (hne : r.vreg ≠ inst.result.id)
    (hstart : r.start < 2 * i + 1) :
    incomingArgRegister regs cc inst.result.regClass payload ≠ some p := by
  intro hp
  have hmem : ⟨p, inst.result.regClass, 2 * i + 1, inst.result.id⟩ ∈ facts.argOccupied := by
    rw [hc.args]
    exact mem_collectArgRegisterOccupied hi harg hv hp
  refine h.free (mem_excludedFor_arg hmem ?_ h.mem hne ?_)
  · rw [h.cls, hcls]
  · rw [rangeTable_eq hranges hr]
    exact hstart

theorem KeptIn.not_barred (h : KeptIn regs cc facts ranges part r p before root after a₀)
    (hc : FactsOf regs cc variadicVectorCountReg fn facts)
    (hreserve : facts.reloadReserve = computeReloadReserve fn) (hranges : LiveRanges ranges)
    (hr : r ∈ ranges)
    (hp : allocateOneFunc regs cc facts ranges r.vreg = some (.phys p r.regClass)) :
    ¬ Barred regs cc facts.reservedFramePointer fn r p := by
  intro hbarred
  cases hbarred with
  | notFree hout =>
    rw [← hreserve] at hout
    exact hout (mem_free_of_allocateOneFunc hp)
  | call hi hcall hstart hend hinfo hsaved =>
    exact h.not_callerSaved hc hi hcall hstart hend hinfo hsaved
  | forbidden hi hstart hend hforbidden => exact h.not_forbidden hc hi hstart hend hforbidden
  | incoming hi harg hv hcls hne hstart hin =>
    exact h.not_incoming hc hranges hr hi harg hv hcls hne hstart hin

theorem KeptIn.not_producer (h : KeptIn regs cc facts ranges part r p before root after a₀)
    (hranges : LiveRanges ranges) (hr : r ∈ ranges) :
    p ∉ excludedByProducer facts a₀ r := by
  intro hp
  refine h.free (mem_excludedFor_producer h.mem ?_)
  rw [rangeTable_eq hranges hr]
  exact hp

theorem mem_excludedByProducer {tied x : ℕ} (hpos : facts.positionToInst r.start =
      some inst.toProducingInst) (htied : inst.requires2Address = some tied)
    (hresult : inst.result = ⟨r.vreg, false, r.regClass⟩)
    (hx : x ∈ inst.forbiddenOrdinals ∨ ∃ k op, k ≠ tied ∧ inst.operands[k]? = some (some op) ∧
      ((op.isPhysical = true ∧ op.id = x) ∨
        (op.isPhysical = false ∧ ∃ c, a₀ op.id = some (.phys x c)))) :
    x ∈ excludedByProducer facts a₀ r := by
  unfold excludedByProducer
  rw [hpos]
  simp only [htied, hresult, ↓reduceIte]
  refine List.mem_append_left _ ?_
  rcases hx with hx | ⟨k, op, hk, hop, hx⟩
  · exact List.mem_append_right _ hx
  · refine List.mem_append_left _ (List.mem_flatMap.2
      ⟨(some op, k), List.mem_zipIdx_iff_getElem?.2 hop, ?_⟩)
    rcases hx with ⟨hphys, rfl⟩ | ⟨hphys, c, hc⟩
    · simp [hk, hphys]
    · simp [hk, hphys, hc]

theorem KeptIn.not_operand (h : KeptIn regs cc facts ranges part r p before root after a₀)
    (hc : FactsOf regs cc variadicVectorCountReg fn facts) (hranges : LiveRanges ranges)
    (hr : r ∈ ranges) (hi : fn[i]? = some inst) {tied : ℕ}
    (htied : inst.requires2Address = some tied)
    (hresult : inst.result = ⟨r.vreg, false, r.regClass⟩) (hstart : 2 * i ≤ r.start)
    (hstart' : r.start ≤ 2 * i + 1) :
    p ∉ inst.forbiddenOrdinals ∧ ∀ k op, k ≠ tied → inst.operands[k]? = some (some op) →
      (op.isPhysical = true → op.id ≠ p) ∧
      (op.isPhysical = false → ∀ c, a₀ op.id ≠ some (.phys p c)) := by
  have hpos : facts.positionToInst r.start = some inst.toProducingInst := by
    have hdiv : r.start / 2 = i := by omega
    rw [hc.insts]
    simp only [hdiv, hi, Option.map_some]
  have hno := h.not_producer hranges hr
  refine ⟨fun hp => hno (mem_excludedByProducer hpos htied hresult (.inl hp)), ?_⟩
  intro k op hk hop
  refine ⟨fun hphys heq => ?_, fun hphys c hplace => ?_⟩
  · exact hno (mem_excludedByProducer hpos htied hresult
      (.inr ⟨k, op, hk, hop, .inl ⟨hphys, heq⟩⟩))
  · exact hno (mem_excludedByProducer hpos htied hresult
      (.inr ⟨k, op, hk, hop, .inr ⟨hphys, c, hplace⟩⟩))

/-- Two ranges that meet at one instruction, the second starting when it writes: if both ended in
one register, they are of one class, or the first one's class was placed before the second one's. -/
theorem KeptIn.before_of_same (hranges : LiveRanges ranges) {c : LirRegClass} {s : LirLiveRange}
    (h : KeptIn regs cc facts ranges (partitionOf facts
      (buildFreeLists regs cc facts.reloadReserve facts.reservedFramePointer) ranges) r p
      before root after a₀)
    (hr : r ∈ ranges) (hp : allocateOneFunc regs cc facts ranges r.vreg = some (.phys p c))
    (hs : s ∈ ranges) (hp' : allocateOneFunc regs cc facts ranges s.vreg = some (.phys p c))
    (hstart : s.start < r.start) :
    s.vreg ∈ (partitionOf facts (buildFreeLists regs cc facts.reloadReserve
      facts.reservedFramePointer) ranges).members root ∨ a₀ s.vreg = some (.phys p c) := by
  obtain ⟨hsound, st, hinv, hst⟩ := allocateOneFunc_inv regs cc facts hranges
  set part := partitionOf facts
    (buildFreeLists regs cc facts.reloadReserve facts.reservedFramePointer) ranges
  obtain ⟨root', hmem'⟩ := hsound.cover s.vreg (rangeTable_ne hs (hranges.ok s hs).1)
  by_cases hroots : root' = root
  · exact .inl (hroots ▸ hmem')
  refine .inr ?_
  have hroot : ∀ {σ x}, x ∈ part.members σ → σ ∈ classRoots ranges part := by
    intro σ x hx
    obtain ⟨h1, h2, -⟩ := hsound.root σ x hx
    exact (mem_classRoots hsound).2 ⟨h2, h1⟩
  -- the hulls of the two classes do not overlap
  have hplace := hinv.common root (hroot h.mem) _ h.mem
  have hplace' := hinv.common root' (hroot hmem') _ hmem'
  rw [hst, hp] at hplace
  rw [hst, hp'] at hplace'
  have happart := hinv.ledger.apart root' (hroot hmem') root (hroot h.mem) hroots _
    (hst ▸ hplace'.symm) (hst ▸ hplace.symm)
  rw [CoalescePartition.interfere_false_iff] at happart
  obtain ⟨h1, h2, -⟩ := hsound.within root' _ hmem'
  rw [rangeTable_eq hranges hs] at h1 h2
  have h3 := h.start
  have h4 := h.ends
  have h5 := (hranges.ok r hr).2
  have h6 := (hranges.ok s hs).2
  -- so the operand's class comes first in the scan
  have hlt : (part.hull root').start < (part.hull root).start := by omega
  have hin := hroot hmem'
  rw [h.split] at hin
  have hbefore : root' ∈ before := by
    rcases List.mem_append.1 hin with hin | hin
    · exact hin
    · rcases List.mem_cons.1 hin with rfl | hin
      · exact absurd rfl hroots
      · have hsorted := (@classRoots_sorted ranges part).2
        rw [h.split] at hsorted
        have := (List.pairwise_cons.1 (List.pairwise_append.1 hsorted).2.1).1 root' hin
        omega
  exact h.settled root' hbefore _ hmem' p c hp'

end Kept

section Constraints

variable {regs : List TargetRegister} {cc : TargetCallingConvention} {facts : RegallocFacts}
  {ranges : List LirLiveRange} {variadicVectorCountReg : Option ℕ} {fn : List LirInst} {i : ℕ}
  {inst : LirInst}

theorem asmRegion_of_twoAddress {tied : ℕ} (htied : inst.requires2Address = some tied) :
    inst.asmRegion = none := by
  by_contra hasm
  rw [(inst.bundle hasm).1] at htied
  cases htied

theorem LirInst.Untied.mem {tied : ℕ} {op : LirReg} (h : inst.Untied tied op) :
    some op ∈ inst.operands := by
  obtain ⟨⟨k, -, hk⟩, -⟩ := h
  exact List.mem_of_getElem? hk

theorem twoAddress_apart (hc : FactsOf regs cc variadicVectorCountReg fn facts)
    (hlive : Liveness fn ranges) {fp : Option ℕ} (hcond : OperandsSettled regs cc fp fn ranges)
    (hi : fn[i]? = some inst) {tied : ℕ} (htied : inst.requires2Address = some tied)
    (hv : inst.result.IsVirtual)
    {r : LirLiveRange} (hr : r ∈ ranges) (hvreg : r.vreg = inst.result.id)
    (hcls : r.regClass = inst.result.regClass) (hstart : r.start ≤ 2 * i + 1) {p : ℕ}
    {c : LirRegClass} (hp : allocateOneFunc regs cc facts ranges r.vreg = some (.phys p c))
    {op : LirReg} (hop : inst.Untied tied op) (hopv : op.IsVirtual) :
    allocateOneFunc regs cc facts ranges op.id ≠ some (.phys p c) := by
  intro hp'
  have hranges := hlive.ok
  obtain ⟨s, hs, hsv, hscls, hsend⟩ :=
    hlive.read i inst hi (asmRegion_of_twoAddress htied) op hop.mem hopv
  obtain ⟨hne, hapart⟩ := hcond.untied i inst hi tied htied hv r hr hvreg op hop hopv
  have hrs : r ≠ s := by
    rintro rfl
    exact hne (hsv.symm.trans hvreg)
  rw [← hsv] at hp'
  by_cases hover : lirRangesInterfere r s = true
  · exact (allocateOneFunc_sound regs cc facts ranges hranges).1 r hr s hs hrs hover _ hp hp'
  · -- the result is written when the operand has been read
    obtain ⟨hsstart, hrstart⟩ := (hapart s hs hsv).resolve_left hover
    have hlate : 2 * i < r.start := by
      refine lt_of_le_of_ne hrstart fun heq => hover ?_
      have hrend := (hranges.ok r hr).2
      simp only [lirRangesInterfere, Bool.and_eq_true, decide_eq_true_eq]
      omega
    obtain ⟨-, before, root, after, a₀, hkept⟩ := exists_keptIn hranges hr hp
    rcases hkept.before_of_same hranges hr hp hs hp' (by omega) with hmem | ha₀
    · -- in one class they would be a forbidden pair
      refine buildCoalescePartition_respects facts _ _ (rangesOk hranges) root r.vreg s.vreg
        hkept.mem hmem ⟨Nat.lt_succ_of_le (le_maxVRegId hr), Nat.lt_succ_of_le (le_maxVRegId hs),
          by rw [hvreg, hsv]; exact hne.symm, .inl ?_⟩
      rw [hc.pairs, hvreg, hsv]
      refine List.mem_flatMap.2 ⟨inst, List.mem_of_getElem? hi, ?_⟩
      obtain ⟨⟨k, hk, hget⟩, htiedOp⟩ := hop
      refine mem_forbiddenPairs htied hv hget hk hopv fun t ht htv hid => htiedOp ?_
      -- a tied operand with the same number is the same operand
      obtain ⟨s', hs', hsv', hscls', -⟩ := hlive.read i inst hi (asmRegion_of_twoAddress htied) t
        (List.mem_of_getElem? ht) htv
      have hsame : s' = s :=
        List.inj_on_of_nodup_map hranges.nodup hs' hs (hsv'.trans (hid.trans hsv.symm))
      subst hsame
      have heq : t = op := by
        cases t
        cases op
        simp only at hid hscls hscls'
        have hphys := htv.2.trans hopv.2.symm
        simp only at hphys
        simp only [LirReg.mk.injEq]
        exact ⟨hid, hphys, hscls'.symm.trans hscls⟩
      rw [← heq]
      exact ht
    · -- in a class before, its register was excluded
      obtain ⟨⟨k, hk, hget⟩, -⟩ := hop
      have hresult : inst.result = ⟨r.vreg, false, r.regClass⟩ := by
        rw [hvreg, hcls, ← hv.2]
      rw [hsv] at ha₀
      exact ((hkept.not_operand hc hranges hr hi htied hresult (by omega) hstart).2 k op hk
        hget).2 hopv.2 c ha₀

/-- **Allocation honours the register constraints.**  If a two-address instruction starts the range
of its result after its operands are defined, or meets no register that the result could get, and
indirect callees are defined before their calls, then every constraint holds of the final
assignment. -/
theorem allocateOneFunc_honours (regs : List TargetRegister) (cc : TargetCallingConvention)
    (variadicVectorCountReg : Option ℕ) (base facts : RegallocFacts) (fn : List LirInst)
    (ranges : List LirLiveRange)
    (hfacts : collectFacts regs cc variadicVectorCountReg base fn = some facts)
    (hlive : Liveness fn ranges)
    (hcond : OperandsSettled regs cc base.reservedFramePointer fn ranges) :
    RegisterConstraints regs cc variadicVectorCountReg fn ranges
      (allocateOneFunc regs cc facts ranges) := by
  have hc := collectFacts_factsOf hfacts
  obtain ⟨hreserve, hfp⟩ := collectFacts_lists hfacts
  rw [← hfp] at hcond
  have hranges := hlive.ok
  refine ⟨?_, ?_, ?_, ?_, ?_⟩
  · intro i inst hi hcall r hr hstart hend p c hp info hinfo
    obtain ⟨-, before, root, after, a₀, hkept⟩ := exists_keptIn hranges hr hp
    exact hkept.not_callerSaved hc hi hcall hstart hend hinfo
  · intro i inst hi r hr hstart hend p c hp
    obtain ⟨-, before, root, after, a₀, hkept⟩ := exists_keptIn hranges hr hp
    exact hkept.not_forbidden hc hi hstart hend
  · intro i inst hi payload harg hv p hin r hr hne hstart hp
    obtain ⟨hcls, before, root, after, a₀, hkept⟩ := exists_keptIn hranges hr hp
    exact hkept.not_incoming hc hranges hr hi harg hv hcls.symm hne hstart hin
  · intro i inst hi tied htied hv p c hp
    obtain ⟨r, hr, hvreg, hcls, hstart⟩ :=
      hlive.written i inst hi (asmRegion_of_twoAddress htied) hv
    have hresult : inst.result = ⟨r.vreg, false, r.regClass⟩ := by
      rw [hvreg, hcls, ← hv.2]
    rw [← hvreg] at hp
    obtain ⟨hcr, before, root, after, a₀, hkept⟩ := exists_keptIn hranges hr hp
    have hapart := fun op hop hopv =>
      @twoAddress_apart regs cc facts ranges variadicVectorCountReg fn i inst hc hlive _ hcond hi
        tied htied hv r hr hvreg hcls hstart p c hp op hop hopv
    by_cases hearly : r.start < 2 * i
    · -- the register was in use before: what the instruction names is barred otherwise
      have hbarred := hkept.not_barred hc hreserve hranges hr (hcr ▸ hp)
      refine ⟨fun op hop => ⟨fun hphys heq => hbarred ?_, hapart op hop⟩, fun hp => hbarred ?_⟩
      · exact heq ▸ hcond.physical i inst hi tied htied hv r hr hvreg hearly op hop hphys
      · exact hcond.forbidden i inst hi tied htied hv r hr hvreg hearly p hp
    · -- the instruction starts the range
      obtain ⟨hforbidden, hoperand⟩ :=
        hkept.not_operand hc hranges hr hi htied hresult (by omega) hstart
      refine ⟨fun op hop => ⟨?_, hapart op hop⟩, hforbidden⟩
      obtain ⟨⟨k, hk, hget⟩, -⟩ := hop
      exact (hoperand k op hk hget).1
  · intro i inst hi hcall op hop hv p c hp
    have hasm : inst.asmRegion = none := by
      by_contra hasm
      rw [(inst.bundle hasm).2.1] at hcall
      cases hcall
    have hmem : some op ∈ inst.operands := List.mem_of_mem_head? (by rw [hop]; rfl)
    obtain ⟨r, hr, hvreg, hcls, hend⟩ := hlive.read i inst hi hasm op hmem hv
    have hstart := hcond.callee i inst hi hcall op hop hv r hr hvreg
    have hp' := hp
    rw [← hvreg] at hp'
    obtain ⟨-, before, root, after, a₀, hkept⟩ := exists_keptIn hranges hr hp'
    have hcallee : ⟨2 * i, op.id, inst.variadic, inst.indirectResult⟩ ∈ facts.indirectCallees := by
      rw [hc.callees]
      exact mem_collectIndirectCalleePositions hi hcall hop hv
    have hno : ¬ (p ∈ facts.ccArgRegOrdinals ∨
        (inst.variadic = true ∧ facts.ccVariadicCountRegOrdinal = some p) ∨
        (inst.indirectResult = true ∧ facts.ccIndirectResultRegOrdinal = some p)) := by
      intro hx
      have h1 := hkept.start
      have h2 := hkept.ends
      have hm := hkept.mem
      rw [hvreg] at hm
      exact hkept.free (mem_excludedFor_callee hcallee hm (by simp only; omega)
        (by simp only; omega) hx)
    have hne := List.ne_nil_of_mem hcallee
    rw [hc.count hne, hc.indirect hne] at hno
    refine ⟨fun name hname ho => hno (.inl (hc.argRegs hne name hname p ho)),
      fun hvariadic ho => hno (.inr (.inl ⟨hvariadic, ho⟩)),
      fun hindirect ho => hno (.inr (.inr ⟨hindirect, ho⟩))⟩

end Constraints

def LirInst.defs (inst : LirInst) : List LirReg :=
  match inst.asmRegion with
  | none => [inst.result].filter LirReg.IsVirtual
  | some (defs, _) => defs.filter LirReg.IsVirtual

/-- Every virtual register has at most one definition that is not a copy. -/
def SingleDef (fn : List LirInst) : Prop :=
  (fn.flatMap fun inst => if inst.isMove then [] else inst.defs).Nodup

instance (fn : List LirInst) : Decidable (SingleDef fn) := by
  unfold SingleDef
  infer_instance

def LirInst.plain (isMove : Bool) (tied : Option ℕ) (result : LirReg)
    (operands : List (Option LirReg)) : LirInst where
  requires2Address := tied
  result := result
  operands := operands
  forbiddenOrdinals := []
  asmRegion := none
  isMove := isMove
  isCall := false
  argIndex := none
  variadic := false
  indirectResult := false
  bundle := fun h => absurd rfl h

/-- Three registers that calls may change, and the stack pointer, which is in no list. -/
def stackRegs : List TargetRegister := [⟨"r0", .gpr⟩, ⟨"sp", .gpr⟩, ⟨"r1", .gpr⟩, ⟨"r2", .gpr⟩]

def stackConvention : TargetCallingConvention := ⟨["r0", "r1", "r2"], [], [], [], [], [], none⟩

def copiesAndHints (edges physHints : List (ℕ × ℕ)) : RegallocFacts :=
  ⟨0, [], [], [], [], [], none, none, fun _ => none, edges, [], physHints, fun _ => 0, none⟩

/-- Copies the stack pointer and takes the physical register `r0` from the copy, in place. -/
def inPlace : List LirInst :=
  [.plain true none ⟨1, false, .gpr⟩ [some ⟨1, true, .gpr⟩],
   .plain false (some 0) ⟨1, false, .gpr⟩ [some ⟨1, false, .gpr⟩, some ⟨0, true, .gpr⟩],
   .plain false none ⟨0, false, .none⟩ [some ⟨1, false, .gpr⟩]]

theorem inPlace_liveness : Liveness inPlace [⟨1, .gpr, 1, 5⟩] := by
  refine ⟨⟨by decide, by decide⟩, ?_, ?_⟩
  · rintro (_ | _ | _ | i) inst hi - hv
    · obtain rfl := Option.some.inj hi
      exact ⟨_, List.mem_cons_self, rfl, rfl, by decide⟩
    · obtain rfl := Option.some.inj hi
      exact ⟨_, List.mem_cons_self, rfl, rfl, by decide⟩
    · obtain rfl := Option.some.inj hi
      exact absurd hv (by decide)
    · cases hi
  · rintro (_ | _ | _ | i) inst hi - op hop hv
    · obtain rfl := Option.some.inj hi
      obtain rfl := Option.some.inj (List.mem_singleton.1 hop)
      exact absurd hv (by decide)
    · obtain rfl := Option.some.inj hi
      rcases List.mem_cons.1 hop with h | h
      · obtain rfl := Option.some.inj h
        exact ⟨_, List.mem_cons_self, rfl, rfl, by decide⟩
      · obtain rfl := Option.some.inj (List.mem_singleton.1 h)
        exact absurd hv (by decide)
    · obtain rfl := Option.some.inj hi
      obtain rfl := Option.some.inj (List.mem_singleton.1 hop)
      exact ⟨_, List.mem_cons_self, rfl, rfl, by decide⟩
    · cases hi

/-- Two registers are held back for reloads and the copy is put into the third, `r0`: the exclusions
are looked up where its range starts, and the two-address instruction stands later. -/
theorem allocateOneFunc_inPlace : ∃ facts,
    collectFacts stackRegs stackConvention none (copiesAndHints [(1, 1)] [(1, 1)]) inPlace =
      some facts ∧ SingleDef inPlace ∧ Liveness inPlace [⟨1, .gpr, 1, 5⟩] ∧
    ¬ RegisterConstraints stackRegs stackConvention none inPlace [⟨1, .gpr, 1, 5⟩]
      (allocateOneFunc stackRegs stackConvention facts [⟨1, .gpr, 1, 5⟩]) := by
  refine ⟨_, rfl, by decide, inPlace_liveness, fun h => ?_⟩
  have hr0 := (h.twoAddress 1 _ rfl 0 rfl (by decide) 0 .gpr (by decide +kernel)).1
    ⟨0, true, .gpr⟩ ⟨⟨1, by decide, rfl⟩, by decide⟩
  exact hr0.1 rfl rfl

/-- Copies the stack pointer, takes the stack pointer from the copy in place, and takes the rest
from the stack pointer into a new register. -/
def intoFresh : List LirInst :=
  [.plain true none ⟨1, false, .gpr⟩ [some ⟨1, true, .gpr⟩],
   .plain false (some 0) ⟨1, false, .gpr⟩ [some ⟨1, false, .gpr⟩, some ⟨1, true, .gpr⟩],
   .plain false (some 0) ⟨2, false, .gpr⟩ [some ⟨1, true, .gpr⟩, some ⟨1, false, .gpr⟩],
   .plain false none ⟨0, false, .none⟩ [some ⟨2, false, .gpr⟩]]

def intoFreshRanges : List LirLiveRange := [⟨1, .gpr, 1, 5⟩, ⟨2, .gpr, 5, 7⟩]

theorem intoFresh_liveness : Liveness intoFresh intoFreshRanges := by
  refine ⟨⟨by decide, by decide⟩, ?_, ?_⟩
  · rintro (_ | _ | _ | _ | i) inst hi - hv
    · obtain rfl := Option.some.inj hi
      exact ⟨⟨1, .gpr, 1, 5⟩, by decide, rfl, rfl, by decide⟩
    · obtain rfl := Option.some.inj hi
      exact ⟨⟨1, .gpr, 1, 5⟩, by decide, rfl, rfl, by decide⟩
    · obtain rfl := Option.some.inj hi
      exact ⟨⟨2, .gpr, 5, 7⟩, by decide, rfl, rfl, by decide⟩
    · obtain rfl := Option.some.inj hi
      exact absurd hv (by decide)
    · cases hi
  · rintro (_ | _ | _ | _ | i) inst hi - op hop hv
    · obtain rfl := Option.some.inj hi
      obtain rfl := Option.some.inj (List.mem_singleton.1 hop)
      exact absurd hv (by decide)
    · obtain rfl := Option.some.inj hi
      rcases List.mem_cons.1 hop with h | h
      · obtain rfl := Option.some.inj h
        exact ⟨⟨1, .gpr, 1, 5⟩, by decide, rfl, rfl, by decide⟩
      · obtain rfl := Option.some.inj (List.mem_singleton.1 h)
        exact absurd hv (by decide)
    · obtain rfl := Option.some.inj hi
      rcases List.mem_cons.1 hop with h | h
      · obtain rfl := Option.some.inj h
        exact absurd hv (by decide)
      · obtain rfl := Option.some.inj (List.mem_singleton.1 h)
        exact ⟨⟨1, .gpr, 1, 5⟩, by decide, rfl, rfl, by decide⟩
    · obtain rfl := Option.some.inj hi
      obtain rfl := Option.some.inj (List.mem_singleton.1 hop)
      exact ⟨⟨2, .gpr, 5, 7⟩, by decide, rfl, rfl, by decide⟩
    · cases hi

/-- The two-address instructions are the one in place, whose other operand is the stack pointer, and
the one that starts the range of the new register. -/
theorem intoFresh_twoAddress {i : ℕ} {inst : LirInst} (hi : intoFresh[i]? = some inst) {tied : ℕ}
    (htied : inst.requires2Address = some tied) :
    (i = 1 ∧ inst.result.id = 1 ∧ inst.forbiddenOrdinals = [] ∧
      ∀ op, inst.Untied tied op → op = ⟨1, true, .gpr⟩) ∨
    (i = 2 ∧ inst.result.id = 2 ∧ inst.forbiddenOrdinals = [] ∧
      ∀ op, inst.Untied tied op → op = ⟨1, false, .gpr⟩) := by
  match i with
  | 0 | 3 =>
    obtain rfl := Option.some.inj hi
    cases htied
  | 1 =>
    obtain rfl := Option.some.inj hi
    obtain rfl := Option.some.inj htied
    refine .inl ⟨rfl, rfl, rfl, fun op hop => ?_⟩
    rcases List.mem_cons.1 hop.mem with h | h
    · exact absurd (congrArg some h.symm) hop.2
    · exact Option.some.inj (List.mem_singleton.1 h)
  | 2 =>
    obtain rfl := Option.some.inj hi
    obtain rfl := Option.some.inj htied
    refine .inr ⟨rfl, rfl, rfl, fun op hop => ?_⟩
    rcases List.mem_cons.1 hop.mem with h | h
    · exact absurd (congrArg some h.symm) hop.2
    · exact Option.some.inj (List.mem_singleton.1 h)
  | i + 4 => cases hi

theorem intoFresh_settled : OperandsSettled stackRegs stackConvention none intoFresh
    intoFreshRanges := by
  have hranges : ∀ r ∈ intoFreshRanges, r.vreg = 1 ∧ r = ⟨1, .gpr, 1, 5⟩ ∨
      r.vreg = 2 ∧ r = ⟨2, .gpr, 5, 7⟩ := by decide
  refine ⟨?_, ?_, ?_, ?_⟩
  · intro i inst hi tied htied hv r hr hvreg op hop hopv
    obtain ⟨rfl, hid, -, hops⟩ | ⟨rfl, hid, -, hops⟩ := intoFresh_twoAddress hi htied
    · rw [hops op hop] at hopv
      exact absurd hopv (by decide)
    · rw [hops op hop, hid]
      obtain ⟨hno, -⟩ | ⟨-, rfl⟩ := hranges r hr
      · omega
      · refine ⟨by decide, fun s hs hsv => .inr ?_⟩
        obtain ⟨-, rfl⟩ | ⟨hno, -⟩ := hranges s hs
        · decide
        · rw [hno] at hsv
          cases hsv
  · intro i inst hi tied htied hv r hr hvreg hstart op hop hphys
    obtain ⟨rfl, hid, -, hops⟩ | ⟨rfl, hid, -, hops⟩ := intoFresh_twoAddress hi htied
    · -- the stack pointer is never handed out
      rw [hops op hop]
      obtain ⟨-, rfl⟩ | ⟨hno, -⟩ := hranges r hr
      · exact .notFree (by decide)
      · omega
    · rw [hops op hop] at hphys
      cases hphys
  · intro i inst hi tied htied hv r hr hvreg hstart p hp
    obtain ⟨-, -, hnone, -⟩ | ⟨-, -, hnone, -⟩ := intoFresh_twoAddress hi htied <;>
      rw [hnone] at hp <;> cases hp
  · intro i inst hi hcall
    have hno : ∀ inst ∈ intoFresh, inst.isCall = false := by decide
    rw [hno inst (List.mem_of_getElem? hi)] at hcall
    cases hcall

theorem allocateOneFunc_intoFresh : ∃ facts,
    collectFacts stackRegs stackConvention none (copiesAndHints [] [(1, 1)]) intoFresh =
      some facts ∧ OperandsSettled stackRegs stackConvention none intoFresh intoFreshRanges ∧
    RegisterConstraints stackRegs stackConvention none intoFresh intoFreshRanges
      (allocateOneFunc stackRegs stackConvention facts intoFreshRanges) :=
  ⟨_, rfl, intoFresh_settled, allocateOneFunc_honours stackRegs stackConvention none _ _ intoFresh _
    rfl intoFresh_liveness intoFresh_settled⟩

end DssPrime
