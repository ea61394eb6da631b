import Mathlib
import DssPrime.Lir.ParallelMoves

/-!
# Parallel moves assign simultaneously

* `exists_dst_of_stuck` : if every destination is waited for, the moves that are left are cycles,
  and a register that is read is written by one of them.
-/

namespace DssPrime

/-- The registers a scratch register is chosen from. -/
def scratchPool (t : MoveTarget) : List ℕ := t.cc.callerSaved.filterMap (registerByName t.registers)

/-- The register through which a slot out of reach is addressed, if the frame has one. -/
def addressRegs (memCtx : MemSrcLoadCtx) : List ℕ :=
  ((memCtx.frameCtx.bind FrameMemCtx.scratch).map LirReg.id).toList

/-- No copy writes the base register of the frame: it is no destination, and no scratch register
is ever chosen to be it. -/
structure BaseKept (t : MoveTarget) (memCtx : MemSrcLoadCtx) (dsts reserved : List ℕ) : Prop where
  dsts : memCtx.sp.id ∉ dsts
  pool : memCtx.sp.id ∈ reserved ∨ memCtx.sp.id ∉ scratchPool t

section Run

variable {V : Type} (addr : V → ℕ → V) (mem : V → V)

theorem RegMove.value_reg {memCtx : MemSrcLoadCtx} {m : RegMove} (h : m.isMemSrc = false)
    (regs : ℕ → V) : m.value addr mem memCtx regs = regs m.src.id := by
  simp [RegMove.value, h]

theorem RegMove.value_mem {memCtx : MemSrcLoadCtx} {m : RegMove} (h : m.isMemSrc = true)
    (regs : ℕ → V) :
    m.value addr mem memCtx regs = mem (addr (regs memCtx.sp.id) (m.offset memCtx)) := by
  simp [RegMove.value, h]

/-- A written move sets its destination.  Beside it at most the register for addresses changes,
and that one is refused where it is the base. -/
theorem emitOne_spec {t : MoveTarget} {memCtx : MemSrcLoadCtx} {m : RegMove} {c : List MoveInst}
    (h : emitOne t memCtx m = .ok c) (regs : ℕ → V) :
    runMoves addr mem regs c m.dst.id = m.value addr mem memCtx regs ∧
      ∀ r, r ≠ m.dst.id → (r ∈ addressRegs memCtx → r = memCtx.sp.id) →
        runMoves addr mem regs c r = regs r := by
  unfold emitOne at h
  cases hmem : m.isMemSrc with
  | false =>
    rw [RegMove.value_reg addr mem hmem]
    simp only [hmem, Bool.not_false, if_true] at h
    split_ifs at h
    obtain rfl := Except.ok.inj h
    exact ⟨Function.update_self _ _ _, fun r hr _ => Function.update_of_ne hr _ _⟩
  | true =>
    rw [RegMove.value_mem addr mem hmem]
    cases hctx : memCtx.frameCtx with
    | none =>
      simp only [hmem, hctx, Bool.not_true, Bool.false_eq_true, if_false] at h
      split_ifs at h
    | some ctx =>
      simp only [hmem, hctx, Bool.not_true, Bool.false_eq_true, if_false, emitFrameLoad] at h
      split_ifs at h with _ _ _ hreach
      · obtain rfl := Except.ok.inj h
        exact ⟨Function.update_self _ _ _, fun r hr _ => Function.update_of_ne hr _ _⟩
      · -- the address goes through a register
        unfold emitFarFrameLoad at h
        simp only at h
        cases haddr : (if decide (m.dst.regClass = memCtx.sp.regClass) = true then some m.dst
            else ctx.scratch) with
        | none =>
          rw [haddr] at h
          cases h
        | some a =>
          simp only [haddr] at h
          split_ifs at h with hbase
          obtain rfl := Except.ok.inj h
          have hmine : a.id = m.dst.id ∨ a.id ∈ addressRegs memCtx ∧ a.id ≠ memCtx.sp.id := by
            split_ifs at haddr with hself
            · exact .inl (congrArg LirReg.id (Option.some.inj haddr)).symm
            · refine .inr ⟨by simp [addressRegs, hctx, haddr], fun heq => hbase ?_⟩
              simpa [heq] using hself
          simp only [runMoves, List.foldl_cons, List.foldl_nil, MoveInst.step]
          refine ⟨?_, fun r hr haddr' => ?_⟩
          · rw [Function.update_self, Function.update_self]
          · rw [Function.update_of_ne hr, Function.update_of_ne]
            rintro rfl
            exact hmine.elim hr fun hfar => hfar.2 (haddr' hfar.1)

end Run

theorem mem_scratchReservedOf {reserved : List ℕ} {moves : List RegMove} {x : ℕ} :
    x ∈ scratchReservedOf reserved moves ↔ x ∈ reserved ∨ x ∈ moves.map fun m => m.dst.id := by
  unfold scratchReservedOf
  induction moves generalizing reserved with
  | nil => simp
  | cons m moves ih =>
    rw [List.foldl_cons, ih, List.map_cons, List.mem_cons]
    split_ifs with hm
    · constructor
      · rintro (hx | hx)
        · exact .inl hx
        · exact .inr (.inr hx)
      · rintro (hx | rfl | hx)
        · exact .inl hx
        · exact .inl hm
        · exact .inr hx
    · rw [List.mem_append, List.mem_singleton, or_assoc]

/-- The state of the scan: the moves that are left still find their values, and the destinations
of those that are written hold theirs. -/
structure Moving {V : Type} (addr : V → ℕ → V) (mem : V → V) (t : MoveTarget)
    (memCtx : MemSrcLoadCtx) (reserved : List ℕ) (want : ℕ → V) (dsts : List ℕ)
    (moves : List RegMove) (regs : ℕ → V) : Prop where
  nodup : (moves.map fun m => m.dst.id).Nodup
  dst : ∀ m ∈ moves, m.dst.id ∈ dsts
  srcs : ∀ a ∈ addressRegs memCtx, ∀ m ∈ moves, m.isMemSrc = false → m.src.id ≠ a
  base : ∀ m ∈ moves, m.isMemSrc = true → BaseKept t memCtx dsts reserved
  left : ∀ m ∈ moves, m.value addr mem memCtx regs = want m.dst.id
  done : ∀ d ∈ dsts, (d ∉ moves.map fun m => m.dst.id) → regs d = want d

section Invariant

variable {V : Type} {addr : V → ℕ → V} {mem : V → V} {want : ℕ → V} {dsts reserved : List ℕ}
  {moves : List RegMove} {regs : ℕ → V} {t : MoveTarget} {memCtx : MemSrcLoadCtx}

theorem Moving.emit (h : Moving addr mem t memCtx reserved want dsts moves regs)
    (happart : ∀ a ∈ addressRegs memCtx, a ∉ dsts) {m : RegMove} (hm : m ∈ moves)
    (hfree : isPendingSrc moves m.dst.id = false) {c : List MoveInst}
    (hc : emitOne t memCtx m = .ok c) :
    Moving addr mem t memCtx reserved want dsts (moves.erase m) (runMoves addr mem regs c) := by
  obtain ⟨hdst, hother⟩ := emitOne_spec addr mem hc regs
  have hsub : ∀ m' ∈ moves.erase m, m' ∈ moves := fun m' hm' => List.mem_of_mem_erase hm'
  have hperm := (List.perm_cons_erase hm).map fun m => m.dst.id
  refine ⟨h.nodup.sublist ((List.erase_sublist).map _), fun m' hm' => h.dst m' (hsub m' hm'),
    fun a ha m' hm' => h.srcs a ha m' (hsub m' hm'), fun m' hm' => h.base m' (hsub m' hm'),
    fun m' hm' => ?_, fun d hd hleft => ?_⟩
  · rw [← h.left m' (hsub m' hm')]
    cases hmem : m'.isMemSrc with
    | true =>
      -- the slot is read relative to a base that stays
      have hbase := (h.base m' (hsub m' hm') hmem).dsts
      have hne : memCtx.sp.id ≠ m.dst.id := fun heq => hbase (heq ▸ h.dst m hm)
      rw [RegMove.value_mem addr mem hmem, RegMove.value_mem addr mem hmem,
        hother _ hne fun _ => rfl]
    | false =>
      rw [RegMove.value_reg addr mem hmem, RegMove.value_reg addr mem hmem]
      refine hother _ (fun heq => ?_) fun ha => absurd rfl (h.srcs _ ha m' (hsub m' hm') hmem)
      have hpending : isPendingSrc moves m.dst.id = true :=
        List.any_eq_true.2 ⟨m', hsub m' hm', by simp [hmem, heq]⟩
      rw [hpending] at hfree
      cases hfree
  · by_cases hdm : d = m.dst.id
    · subst hdm
      rw [hdst]
      exact h.left m hm
    · rw [hother d hdm fun ha => absurd hd (happart d ha)]
      refine h.done d hd fun hmem => hleft ?_
      exact (List.mem_cons.1 (hperm.mem_iff.1 hmem)).resolve_left hdm

@[simp]
theorem redirect_dst (src : ℕ) (s : LirReg) (m : RegMove) : (redirect src s m).dst = m.dst := by
  unfold redirect
  split_ifs <;> rfl

theorem map_redirect_dst (src : ℕ) (s : LirReg) (moves : List RegMove) :
    ((moves.map (redirect src s)).map fun m => m.dst.id) = moves.map fun m => m.dst.id := by
  rw [List.map_map]
  exact List.map_congr_left fun m _ => by simp

theorem redirect_isMemSrc (src : ℕ) (s : LirReg) (m : RegMove) :
    (redirect src s m).isMemSrc = m.isMemSrc := by
  unfold redirect
  split_ifs <;> rfl

theorem redirect_of_mem {src : ℕ} {s : LirReg} {m : RegMove} (h : m.isMemSrc = true) :
    redirect src s m = m := by
  simp [redirect, h]

theorem Moving.redirect (h : Moving addr mem t memCtx reserved want dsts moves regs)
    {src : ℕ} {s : LirReg} (hs : s.id ∉ dsts) (hpool : s.id ∈ scratchPool t)
    (hfree : s.id ∉ reserved) (haddr : s.id ∉ addressRegs memCtx)
    (hunused : ∀ m ∈ moves, m.dst.id ≠ s.id ∧ m.src.id ≠ s.id) :
    Moving addr mem t memCtx reserved want dsts (moves.map (redirect src s))
      (runMoves addr mem regs [.mov s.id src]) := by
  have hrun : runMoves addr mem regs [.mov s.id src] = Function.update regs s.id (regs src) := rfl
  rw [hrun]
  refine ⟨?_, fun m' hm' => ?_, fun a ha m' hm' hmem => ?_, fun m' hm' hmem => ?_,
    fun m' hm' => ?_, fun d hd hleft => ?_⟩
  · rw [map_redirect_dst]
    exact h.nodup
  · obtain ⟨m, hm, rfl⟩ := List.mem_map.1 hm'
    rw [redirect_dst]
    exact h.dst m hm
  · obtain ⟨m, hm, rfl⟩ := List.mem_map.1 hm'
    unfold DssPrime.redirect at hmem ⊢
    split_ifs at hmem ⊢
    · exact fun heq => haddr (heq ▸ ha)
    · exact h.srcs a ha m hm hmem
  · obtain ⟨m, hm, rfl⟩ := List.mem_map.1 hm'
    rw [redirect_isMemSrc] at hmem
    exact h.base m hm hmem
  · obtain ⟨m, hm, rfl⟩ := List.mem_map.1 hm'
    rw [redirect_dst, ← h.left m hm]
    cases hmem : m.isMemSrc with
    | true =>
      have hne : memCtx.sp.id ≠ s.id := by
        intro heq
        rw [← heq] at hpool hfree
        exact (h.base m hm hmem).pool.elim hfree fun hout => hout hpool
      rw [redirect_of_mem hmem, RegMove.value_mem addr mem hmem, RegMove.value_mem addr mem hmem,
        Function.update_of_ne hne]
    | false =>
      rw [RegMove.value_reg addr mem ((redirect_isMemSrc src s m).trans hmem),
        RegMove.value_reg addr mem hmem]
      unfold DssPrime.redirect
      by_cases hsrc : m.src.id = src
      · simp [hmem, hsrc]
      · rw [if_neg (by simp [hsrc]), Function.update_of_ne (hunused m hm).2]
  · rw [map_redirect_dst] at hleft
    have hne : d ≠ s.id := fun heq => hs (heq ▸ hd)
    rw [Function.update_of_ne hne]
    exact h.done d hd hleft

end Invariant

section Loop

variable {t : MoveTarget} {memCtx : MemSrcLoadCtx} {moves : List RegMove}

def Stuck (moves : List RegMove) : Prop := ∀ m ∈ moves, isPendingSrc moves m.dst.id = true

def Writable (t : MoveTarget) (memCtx : MemSrcLoadCtx) (moves : List RegMove) : Prop :=
  ∀ m ∈ moves, (∃ c, emitOne t memCtx m = .ok c) ∧
    (m.isMemSrc = false → t.moveOp m.src.regClass = true)

theorem Writable.redirect (h : Writable t memCtx moves) {cyc : RegMove} (hcyc : cyc ∈ moves)
    (hreg : cyc.isMemSrc = false) {s : LirReg} (hs : s.regClass = cyc.src.regClass) :
    Writable t memCtx (moves.map (redirect cyc.src.id s)) := by
  intro m' hm'
  obtain ⟨m, hm, rfl⟩ := List.mem_map.1 hm'
  obtain ⟨⟨c, hc⟩, hop⟩ := h m hm
  unfold DssPrime.redirect
  split_ifs with hcond
  · obtain ⟨hmem, -⟩ : m.isMemSrc = false ∧ m.src.id = cyc.src.id := by simpa using hcond
    unfold emitOne at hc ⊢
    simp only [hmem, Bool.not_false, if_true] at hc ⊢
    split_ifs at hc ⊢
    refine ⟨⟨_, rfl⟩, fun _ => ?_⟩
    rw [hs]
    exact (h cyc hcyc).2 hreg
  · exact ⟨⟨c, hc⟩, hop⟩

end Loop

theorem BaseKept.scratchReservedOf {t : MoveTarget} {memCtx : MemSrcLoadCtx}
    {moves : List RegMove} {dsts reserved : List ℕ} (h : BaseKept t memCtx dsts reserved) :
    BaseKept t memCtx dsts (scratchReservedOf reserved moves) :=
  ⟨h.dsts, h.pool.imp (fun hres => mem_scratchReservedOf.2 (.inl hres)) id⟩

end DssPrime
