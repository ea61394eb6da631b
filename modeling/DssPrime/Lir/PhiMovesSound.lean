import DssPrime.Lir.PhiMoves

/-!
# The copies of an edge write its phis

The homes of `long double` phis are written after the registers, and a `long double` that is read in
place is read through a register that may be the register of a phi: `ReadsSettled` excludes it.
-/

namespace DssPrime

section Runs

variable {V D : Type} [DecidableEq V] (frame : ℕ → V)

theorem runEdge_append (s : EdgeState V D) (code code' : List EdgeInst) :
    runEdge frame s (code ++ code') = runEdge frame (runEdge frame s code) code' :=
  List.foldl_append

theorem runEdge_movs (s : EdgeState V D) (copies : List (ℕ × ℕ)) :
    runEdge frame s (copies.map fun p => .mov p.1 p.2) =
      { s with regs := seqCopy copies s.regs } := by
  induction copies generalizing s with
  | nil => rfl
  | cons p copies ih =>
    rw [List.map_cons]
    exact ih _

theorem runEdge_homeCopies {Q : Type} (dst src : Q → ℕ) (s : EdgeState V D) (copies : List Q) :
    runEdge frame s (copies.map fun q => .homeCopy (src q) (dst q)) =
      { s with mem := seqCopy (copies.map fun q => (s.regs (dst q), s.regs (src q))) s.mem } := by
  induction copies generalizing s with
  | nil => rfl
  | cons q copies ih =>
    rw [List.map_cons]
    exact ih _

end Runs

section Edge

variable {V D : Type} [DecidableEq V]

def ValueMap.value? (c : ValueMap) (frame : ℕ → V) (s : EdgeState V D) (v : ℕ) : Option V :=
  match c.allocaSlotIndex v with
  | some slot => some (frame slot)
  | none => (c.valueToReg v).map s.regs

/-- An edge is right: every phi has the value its incoming had, and nothing else that is live has
changed. -/
structure EdgeCorrect (c : ValueMap) (frame : ℕ → V) (pred : ℕ) (phis : List MirPhi)
    (liveRegs : ℕ → Prop) (liveObjects : V → Prop) (s s' : EdgeState V D) : Prop where
  reg : ∀ phi ∈ phis, phi.isWideFloat = false → ∀ r, c.valueToReg phi.inst = some r →
    ∀ v, phi.incoming pred = some v → c.value? frame s v = some (s'.regs r)
  home : ∀ phi ∈ phis, phi.isWideFloat = true → ∀ h, c.allocaSlotIndex phi.inst = some h →
    ∀ v, phi.incoming pred = some v → ∀ a, c.value? frame s v = some a →
    s'.mem (frame h) = s.mem a
  others : ∀ r, liveRegs r →
    (∀ phi ∈ phis, phi.isWideFloat = false → c.valueToReg phi.inst ≠ some r) →
    s'.regs r = s.regs r
  objects : ∀ a, liveObjects a →
    (∀ phi ∈ phis, phi.isWideFloat = true → ∀ h, c.allocaSlotIndex phi.inst = some h →
      frame h ≠ a) → s'.mem a = s.mem a

/-- The phis of a function as the lowering prepares them: every phi has a register or slots of its
own, and the staging slots are known to nobody else. -/
structure ValueMap.Prepared (c : ValueMap) (frame : ℕ → V) (phisOf : ℕ → List MirPhi)
    (next : ℕ) : Prop where
  frame : Function.Injective frame
  nodup : ∀ b, (phisOf b).Nodup
  used : ∀ v r, c.valueToReg v = some r → r < next
  ownReg : ∀ b b', ∀ phi ∈ phisOf b, ∀ phi' ∈ phisOf b', phi.isWideFloat = false →
    phi'.isWideFloat = false → ∀ r, c.valueToReg phi.inst = some r →
    c.valueToReg phi'.inst = some r → b = b' ∧ phi = phi'
  ownHome : ∀ b b', ∀ phi ∈ phisOf b, ∀ phi' ∈ phisOf b', phi.isWideFloat = true →
    phi'.isWideFloat = true → ∀ h, c.allocaSlotIndex phi.inst = some h →
    c.allocaSlotIndex phi'.inst = some h → b = b' ∧ phi = phi'
  ownStaging : ∀ b b', ∀ phi ∈ phisOf b, ∀ phi' ∈ phisOf b', ∀ k,
    c.wideFloatPhiStagingSlot phi.inst = some k → c.wideFloatPhiStagingSlot phi'.inst = some k →
    b = b' ∧ phi = phi'
  hidden : ∀ b, ∀ phi ∈ phisOf b, ∀ k, c.wideFloatPhiStagingSlot phi.inst = some k →
    ∀ v, c.allocaSlotIndex v ≠ some k

/-- No `long double` that arrives at block `b` is in a staging slot. -/
def ValueMap.Hidden (c : ValueMap) (frame : ℕ → V) (phisOf : ℕ → List MirPhi) (pred b : ℕ)
    (s : EdgeState V D) : Prop :=
  ∀ phi ∈ phisOf b, phi.isWideFloat = true → ∀ v, phi.incoming pred = some v →
    ∀ b', ∀ phi' ∈ phisOf b', ∀ k, c.wideFloatPhiStagingSlot phi'.inst = some k →
    c.value? frame s v ≠ some (frame k)

/-- The value of a `long double` phi is not read through the register of another phi of the block
that the edge changes. -/
def ValueMap.ReadsSettled (c : ValueMap) (pred : ℕ) (phis : List MirPhi) : Prop :=
  ∀ phi ∈ phis, phi.isWideFloat = true → ∀ v, phi.incoming pred = some v →
    c.allocaSlotIndex v = none → ∀ r, c.valueToReg v = some r →
    ∀ phi' ∈ phis, phi'.isWideFloat = false → c.valueToReg phi'.inst = some r →
    ∃ v', phi'.incoming pred = some v' ∧ c.allocaSlotIndex v' = none ∧ c.valueToReg v' = some r

/-- What the instructions collected so far have done: the registers in use and the memory are as
before, and the pairs hold what they are for. -/
structure EdgeCollecting (c : ValueMap) (frame : ℕ → V) (pred next : ℕ) (s : EdgeState V D)
    (done : List MirPhi) (e : EdgeCopies) : Prop where
  le : next ≤ e.next
  mem : (runEdge frame s e.code).mem = s.mem
  regs : ∀ r < next, (runEdge frame s e.code).regs r = s.regs r
  pairs : List.Forall₂ (fun phi (p : ℕ × ℕ) => c.valueToReg phi.inst = some p.1 ∧ p.2 < e.next ∧
      ∃ v, phi.incoming pred = some v ∧
        c.value? frame s v = some ((runEdge frame s e.code).regs p.2))
    (done.filter fun phi => !phi.isWideFloat) e.pairs
  memPairs : List.Forall₂ (fun phi (q : MemPair) => ∃ h k v, c.allocaSlotIndex phi.inst = some h ∧
      c.wideFloatPhiStagingSlot phi.inst = some k ∧ phi.incoming pred = some v ∧
      (runEdge frame s e.code).regs q.home = frame h ∧
      (runEdge frame s e.code).regs q.staging = frame k ∧
      c.value? frame s v = some ((runEdge frame s e.code).regs q.incoming) ∧
      (next ≤ q.home ∧ q.home < e.next) ∧ (next ≤ q.staging ∧ q.staging < e.next) ∧
      q.incoming < e.next ∧
      (next ≤ q.incoming ∨ c.allocaSlotIndex v = none ∧ c.valueToReg v = some q.incoming))
    (done.filter fun phi => phi.isWideFloat) e.memPairs

variable {c : ValueMap} {frame : ℕ → V} {pred next : ℕ} {s : EdgeState V D} {done : List MirPhi}
  {e e' : EdgeCopies}

theorem runEdge_lea (e : EdgeCopies) (slot : ℕ) :
    (runEdge frame s (ValueMap.emitLeaFrameSlot e slot).2.code).mem =
      (runEdge frame s e.code).mem ∧
    (runEdge frame s (ValueMap.emitLeaFrameSlot e slot).2.code).regs e.next = frame slot ∧
    ∀ r < e.next, (runEdge frame s (ValueMap.emitLeaFrameSlot e slot).2.code).regs r =
      (runEdge frame s e.code).regs r := by
  unfold ValueMap.emitLeaFrameSlot
  rw [runEdge_append]
  refine ⟨rfl, Function.update_self _ _ _, fun r hr => Function.update_of_ne (by omega) _ _⟩

theorem EdgeCollecting.lea (h : EdgeCollecting c frame pred next s done e) (slot : ℕ) :
    EdgeCollecting c frame pred next s done (ValueMap.emitLeaFrameSlot e slot).2 := by
  obtain ⟨hmem, -, hregs⟩ := @runEdge_lea V D _ frame s e slot
  have hle := h.le
  refine ⟨Nat.le_succ_of_le h.le, hmem.trans h.mem, fun r hr => ?_, h.pairs.imp ?_,
    h.memPairs.imp ?_⟩
  · exact (hregs r (by omega)).trans (h.regs r hr)
  · rintro phi p ⟨h1, h2, v, hv, hval⟩
    refine ⟨h1, Nat.lt_succ_of_lt h2, v, hv, ?_⟩
    rw [hregs p.2 h2]
    exact hval
  · rintro phi q ⟨hh, k, v, h1, h2, h3, h4, h5, h6, h7, h8, h9, h10⟩
    refine ⟨hh, k, v, h1, h2, h3, ?_, ?_, ?_, ⟨h7.1, Nat.lt_succ_of_lt h7.2⟩,
      ⟨h8.1, Nat.lt_succ_of_lt h8.2⟩, Nat.lt_succ_of_lt h9, h10⟩
    · rw [hregs _ h7.2]
      exact h4
    · rw [hregs _ h8.2]
      exact h5
    · rw [hregs _ h9]
      exact h6

/-- The value is in the register. -/
structure HasReg (c : ValueMap) (frame : ℕ → V) (next : ℕ) (s : EdgeState V D) (v : ℕ)
    (e e' : EdgeCopies) (x : ℕ) : Prop where
  le : e.next ≤ e'.next
  lt : x < e'.next
  val : c.value? frame s v = some ((runEdge frame s e'.code).regs x)
  own : next ≤ x ∨ c.allocaSlotIndex v = none ∧ c.valueToReg v = some x
  keeps : ∀ r < e.next, (runEdge frame s e'.code).regs r = (runEdge frame s e.code).regs r

theorem EdgeCollecting.regForValue (hused : ∀ v r, c.valueToReg v = some r → r < next)
    (h : EdgeCollecting c frame pred next s done e) {v x : ℕ}
    (hreg : c.regForValue e v = some (x, e')) :
    EdgeCollecting c frame pred next s done e' ∧ HasReg c frame next s v e e' x := by
  have hle := h.le
  unfold ValueMap.regForValue at hreg
  cases hslot : c.allocaSlotIndex v with
  | some slot =>
    rw [hslot] at hreg
    obtain rfl : e' = (ValueMap.emitLeaFrameSlot e slot).2 := (Prod.mk.inj
      (Option.some.inj hreg)).2.symm
    obtain rfl : x = e.next := (Prod.mk.inj (Option.some.inj hreg)).1.symm
    obtain ⟨-, hval, hkeeps⟩ := @runEdge_lea V D _ frame s e slot
    refine ⟨h.lea slot, ⟨Nat.le_succ _, Nat.lt_succ_self _, ?_, .inl hle, hkeeps⟩⟩
    unfold ValueMap.value?
    rw [hslot, hval]
  | none =>
    rw [hslot] at hreg
    obtain ⟨r, hr, heq⟩ := Option.map_eq_some_iff.1 hreg
    obtain ⟨rfl, rfl⟩ := Prod.mk.inj heq
    have hlt := hused v r hr
    refine ⟨h, ⟨le_rfl, by omega, ?_, .inr ⟨hslot, hr⟩, fun _ _ => rfl⟩⟩
    unfold ValueMap.value?
    rw [hslot, h.regs r hlt, hr]
    rfl

theorem EdgeCollecting.addPair (h : EdgeCollecting c frame pred next s done e) {phi : MirPhi}
    (hwide : phi.isWideFloat = false) {r x v : ℕ} (hr : c.valueToReg phi.inst = some r)
    (hv : phi.incoming pred = some v) (hx : x < e.next)
    (hval : c.value? frame s v = some ((runEdge frame s e.code).regs x)) :
    EdgeCollecting c frame pred next s (done ++ [phi]) { e with pairs := e.pairs ++ [(r, x)] } := by
  refine ⟨h.le, h.mem, h.regs, ?_, ?_⟩
  · rw [List.filter_append]
    refine List.rel_append h.pairs ?_
    simp only [List.filter_cons, hwide, Bool.not_false, ↓reduceIte, List.filter_nil]
    exact .cons ⟨hr, hx, v, hv, hval⟩ .nil
  · rw [List.filter_append]
    simp only [List.filter_cons, hwide, Bool.false_eq_true, ↓reduceIte, List.filter_nil,
      List.append_nil]
    exact h.memPairs

theorem EdgeCollecting.addMemPair (h : EdgeCollecting c frame pred next s done e) {phi : MirPhi}
    (hwide : phi.isWideFloat = true) {q : MemPair}
    (hq : ∃ h k v, c.allocaSlotIndex phi.inst = some h ∧
      c.wideFloatPhiStagingSlot phi.inst = some k ∧ phi.incoming pred = some v ∧
      (runEdge frame s e.code).regs q.home = frame h ∧
      (runEdge frame s e.code).regs q.staging = frame k ∧
      c.value? frame s v = some ((runEdge frame s e.code).regs q.incoming) ∧
      (next ≤ q.home ∧ q.home < e.next) ∧ (next ≤ q.staging ∧ q.staging < e.next) ∧
      q.incoming < e.next ∧
      (next ≤ q.incoming ∨ c.allocaSlotIndex v = none ∧ c.valueToReg v = some q.incoming)) :
    EdgeCollecting c frame pred next s (done ++ [phi])
      { e with memPairs := e.memPairs ++ [q] } := by
  refine ⟨h.le, h.mem, h.regs, ?_, ?_⟩
  · rw [List.filter_append]
    simp only [List.filter_cons, hwide, Bool.not_true, Bool.false_eq_true, ↓reduceIte,
      List.filter_nil, List.append_nil]
    exact h.pairs
  · rw [List.filter_append]
    refine List.rel_append h.memPairs ?_
    simp only [List.filter_cons, hwide, ↓reduceIte, List.filter_nil]
    exact .cons hq .nil

theorem EdgeCollecting.step (hused : ∀ v r, c.valueToReg v = some r → r < next)
    (h : EdgeCollecting c frame pred next s done e) {phi : MirPhi}
    (hphi : c.collectPhi pred e phi = some e') :
    EdgeCollecting c frame pred next s (done ++ [phi]) e' := by
  unfold ValueMap.collectPhi at hphi
  cases hwide : phi.isWideFloat with
  | true =>
    rw [hwide] at hphi
    simp only [↓reduceIte, Option.bind_eq_bind, Option.bind_eq_some_iff, Option.pure_def] at hphi
    obtain ⟨homeSlot, hhome, stagingSlot, hstaging, v, hv, ⟨x, e₁⟩, hreg, heq⟩ := hphi
    obtain rfl := Option.some.inj heq
    obtain ⟨h₁, hx⟩ := h.regForValue hused hreg
    -- the addresses of the two slots are taken after the value's
    obtain ⟨-, hval₂, hkeeps₂⟩ := @runEdge_lea V D _ frame s e₁ homeSlot
    have h₂ := h₁.lea homeSlot
    set e₂ := (ValueMap.emitLeaFrameSlot e₁ homeSlot).2 with he₂
    have hnext₂ : e₂.next = e₁.next + 1 := rfl
    obtain ⟨-, hval₃, hkeeps₃⟩ := @runEdge_lea V D _ frame s e₂ stagingSlot
    have h₃ := h₂.lea stagingSlot
    set e₃ := (ValueMap.emitLeaFrameSlot e₂ stagingSlot).2 with he₃
    have hnext₃ : e₃.next = e₂.next + 1 := rfl
    have hle₁ := h₁.le
    have hlt := hx.lt
    refine h₃.addMemPair hwide ⟨homeSlot, stagingSlot, v, hhome, hstaging, hv, ?_, ?_, ?_, ?_, ?_,
      ?_, hx.own⟩
    · exact (hkeeps₃ e₁.next (by omega)).trans hval₂
    · exact hval₃
    · rw [hkeeps₃ x (by omega), hkeeps₂ x (by omega)]
      exact hx.val
    · exact ⟨h₁.le, by change e₁.next < e₃.next; omega⟩
    · exact ⟨h₂.le, by change e₂.next < e₃.next; omega⟩
    · change x < e₃.next
      omega
  | false =>
    rw [hwide] at hphi
    simp only [Bool.false_eq_true, ↓reduceIte, Option.bind_eq_bind, Option.bind_eq_some_iff,
      Option.pure_def] at hphi
    obtain ⟨r, hr, v, hv, ⟨x, e₁⟩, hreg, heq⟩ := hphi
    obtain rfl := Option.some.inj heq
    obtain ⟨h₁, hx⟩ := h.regForValue hused hreg
    exact h₁.addPair hwide hr hv hx.lt hx.val

theorem EdgeCollecting.foldlM (hused : ∀ v r, c.valueToReg v = some r → r < next)
    (phis : List MirPhi) (h : EdgeCollecting c frame pred next s done e)
    (hphis : phis.foldlM (c.collectPhi pred) e = some e') :
    EdgeCollecting c frame pred next s (done ++ phis) e' := by
  induction phis generalizing done e with
  | nil =>
    obtain rfl := Option.some.inj hphis
    rwa [List.append_nil]
  | cons phi phis ih =>
    rw [List.foldlM_cons] at hphis
    obtain ⟨e₁, hphi, hphis⟩ := Option.bind_eq_some_iff.1 hphis
    have := ih (h.step hused hphi) hphis
    rwa [List.append_assoc] at this

def EdgeCopies.staged (e : EdgeCopies) : List (StagedCopy ℕ) :=
  e.pairs.zipIdx.map fun p => ⟨p.1.1, e.next + p.2, p.1.2⟩

def EdgeCopies.stagedHomes (e : EdgeCopies) (regs : ℕ → V) : List (StagedCopy V) :=
  e.memPairs.map fun q => ⟨regs q.home, regs q.staging, regs q.incoming⟩

theorem runEdge_copies (s : EdgeState V D) (e : EdgeCopies) :
    runEdge frame s (e.pairs.zipIdx.map (fun p => .mov (e.next + p.2) p.1.2)
        ++ e.pairs.zipIdx.map (fun p => .mov p.1.1 (e.next + p.2))
        ++ e.memPairs.map (fun q => .homeCopy q.incoming q.staging)
        ++ e.memPairs.map (fun q => .homeCopy q.staging q.home)) =
      ⟨copyThrough e.staged s.regs,
        copyThrough (e.stagedHomes (copyThrough e.staged s.regs)) s.mem⟩ := by
  have h1 : e.pairs.zipIdx.map (fun p => EdgeInst.mov (e.next + p.2) p.1.2) =
      (e.staged.map fun p => (p.temp, p.source)).map fun p => .mov p.1 p.2 := by
    simp only [EdgeCopies.staged, List.map_map]
    rfl
  have h2 : e.pairs.zipIdx.map (fun p => EdgeInst.mov p.1.1 (e.next + p.2)) =
      (e.staged.map fun p => (p.target, p.temp)).map fun p => .mov p.1 p.2 := by
    simp only [EdgeCopies.staged, List.map_map]
    rfl
  rw [h1, h2, runEdge_append, runEdge_append, runEdge_append, runEdge_movs, runEdge_movs,
    runEdge_homeCopies frame MemPair.staging MemPair.incoming,
    runEdge_homeCopies frame MemPair.home MemPair.staging]
  simp only [copyThrough, EdgeCopies.stagedHomes, List.map_map]
  rfl

theorem exists_of_mem_left {α β : Type} {R : α → β → Prop} {l : List α} {l' : List β}
    (h : List.Forall₂ R l l') {a : α} (ha : a ∈ l) : ∃ b ∈ l', R a b := by
  induction h with
  | nil => cases ha
  | cons hab _ ih =>
    rcases List.mem_cons.1 ha with rfl | ha
    · exact ⟨_, List.mem_cons_self, hab⟩
    · obtain ⟨b, hb, hR⟩ := ih ha
      exact ⟨b, List.mem_cons_of_mem _ hb, hR⟩

theorem exists_of_mem_right {α β : Type} {R : α → β → Prop} {l : List α} {l' : List β}
    (h : List.Forall₂ R l l') {b : β} (hb : b ∈ l') : ∃ a ∈ l, R a b := by
  obtain ⟨a, ha, hR⟩ := exists_of_mem_left h.flip hb
  exact ⟨a, ha, hR⟩

theorem nodup_map_of_forall₂ {α β γ : Type} {R : α → β → Prop} {l : List α} {l' : List β}
    (h : List.Forall₂ R l l') (hnodup : l.Nodup) (f : β → γ)
    (hinj : ∀ a ∈ l, ∀ a' ∈ l, ∀ b b', R a b → R a' b' → f b = f b' → a = a') :
    (l'.map f).Nodup := by
  induction h with
  | nil => exact List.nodup_nil
  | @cons a b l l' hab hrest ih =>
    obtain ⟨ha, hnodup⟩ := List.nodup_cons.1 hnodup
    rw [List.map_cons, List.nodup_cons]
    refine ⟨fun hmem => ?_, ih hnodup fun a₁ h₁ a₂ h₂ =>
      hinj a₁ (List.mem_cons_of_mem _ h₁) a₂ (List.mem_cons_of_mem _ h₂)⟩
    obtain ⟨b', hb', heq⟩ := List.mem_map.1 hmem
    obtain ⟨a', ha', hR⟩ := exists_of_mem_right hrest hb'
    have := hinj a List.mem_cons_self a' (List.mem_cons_of_mem _ ha') b b' hab hR heq.symm
    exact ha (this ▸ ha')

theorem staged_targets (e : EdgeCopies) :
    e.staged.map StagedCopy.target = e.pairs.map Prod.fst := by
  have h : e.pairs.zipIdx.map Prod.fst = e.pairs := List.zipIdx_map_fst _ _
  calc e.staged.map StagedCopy.target = (e.pairs.zipIdx.map Prod.fst).map Prod.fst := by
        simp only [EdgeCopies.staged, List.map_map]
        rfl
    _ = e.pairs.map Prod.fst := by rw [h]

theorem staged_temps (e : EdgeCopies) :
    e.staged.map StagedCopy.temp = (List.range' 0 e.pairs.length).map (e.next + ·) := by
  have h : e.pairs.zipIdx.map Prod.snd = List.range' 0 e.pairs.length := List.zipIdx_map_snd _ _
  calc e.staged.map StagedCopy.temp = (e.pairs.zipIdx.map Prod.snd).map (e.next + ·) := by
        simp only [EdgeCopies.staged, List.map_map]
        rfl
    _ = _ := by rw [h]

theorem le_of_mem_staged_temps {e : EdgeCopies} {x : ℕ}
    (hx : x ∈ e.staged.map StagedCopy.temp) : e.next ≤ x := by
  rw [staged_temps] at hx
  obtain ⟨k, -, rfl⟩ := List.mem_map.1 hx
  exact Nat.le_add_right _ _

section Prepared

variable {phisOf : ℕ → List MirPhi} {b : ℕ} (hprep : c.Prepared frame phisOf next)

theorem EdgeCollecting.target (h : EdgeCollecting c frame pred next s (phisOf b) e) {x : ℕ}
    (hx : x ∈ e.staged.map StagedCopy.target) :
    ∃ phi ∈ phisOf b, phi.isWideFloat = false ∧ c.valueToReg phi.inst = some x := by
  rw [staged_targets] at hx
  obtain ⟨p, hp, rfl⟩ := List.mem_map.1 hx
  obtain ⟨phi, hphi, hR⟩ := exists_of_mem_right h.pairs hp
  obtain ⟨hmem, hwide⟩ := List.mem_filter.1 hphi
  exact ⟨phi, hmem, by simpa using hwide, hR.1⟩

include hprep

theorem EdgeCollecting.stagedApart (h : EdgeCollecting c frame pred next s (phisOf b) e) :
    StagedApart e.staged := by
  have hle := h.le
  have hlt : ∀ x ∈ e.staged.map StagedCopy.target, x < next := by
    intro x hx
    obtain ⟨phi, -, -, hreg⟩ := h.target hx
    exact hprep.used _ x hreg
  refine ⟨?_, ?_, ?_, ?_⟩
  · rw [staged_targets]
    refine nodup_map_of_forall₂ h.pairs ((hprep.nodup b).filter _) _ ?_
    intro phi hphi phi' hphi' p p' hR hR' heq
    obtain ⟨hmem, hwide⟩ := List.mem_filter.1 hphi
    obtain ⟨hmem', hwide'⟩ := List.mem_filter.1 hphi'
    exact (hprep.ownReg b b phi hmem phi' hmem' (by simpa using hwide) (by simpa using hwide') _
      hR.1 (heq ▸ hR'.1)).2
  · rw [staged_temps]
    exact (List.nodup_range').map fun x y hxy => Nat.add_left_cancel hxy
  · intro p hp hmem
    obtain ⟨q, hq, rfl⟩ := List.mem_map.1 hp
    obtain ⟨phi, -, hR⟩ := exists_of_mem_right h.pairs (List.fst_mem_of_mem_zipIdx hq)
    have := le_of_mem_staged_temps hmem
    have := hR.2.1
    simp only at *
    omega
  · intro p hp hmem
    have := hlt _ hmem
    have := le_of_mem_staged_temps (List.mem_map_of_mem hp)
    omega

theorem EdgeCollecting.regs_correct (h : EdgeCollecting c frame pred next s (phisOf b) e) :
    (∀ phi ∈ phisOf b, phi.isWideFloat = false → ∀ r, c.valueToReg phi.inst = some r →
      ∀ v, phi.incoming pred = some v →
      c.value? frame s v = some (copyThrough e.staged (runEdge frame s e.code).regs r)) ∧
    (∀ r < e.next,
      (∀ phi ∈ phisOf b, phi.isWideFloat = false → c.valueToReg phi.inst ≠ some r) →
      copyThrough e.staged (runEdge frame s e.code).regs r = (runEdge frame s e.code).regs r) := by
  constructor
  · intro phi hphi hwide r hr v hv
    obtain ⟨p, hp, hreg, -, v', hv', hval⟩ :=
      exists_of_mem_left h.pairs (List.mem_filter.2 ⟨hphi, by simpa using hwide⟩)
    rw [hr] at hreg
    rw [hv] at hv'
    obtain rfl := Option.some.inj hv'
    obtain ⟨k, hk⟩ := List.mem_iff_getElem?.1 hp
    have hmem : (⟨p.1, e.next + k, p.2⟩ : StagedCopy ℕ) ∈ e.staged :=
      List.mem_map.2 ⟨(p, k), List.mem_zipIdx_iff_getElem?.2 hk, rfl⟩
    rw [hval, Option.some.inj hreg, copyThrough_target (h.stagedApart hprep) hmem]
  · intro r hr hno
    refine copyThrough_other (fun hmem => ?_) (fun hmem => ?_)
    · obtain ⟨phi, hphi, hwide, hreg⟩ := h.target hmem
      exact hno phi hphi hwide hreg
    · have := le_of_mem_staged_temps hmem
      omega

theorem EdgeCollecting.regs_new (h : EdgeCollecting c frame pred next s (phisOf b) e) {x : ℕ}
    (hnew : next ≤ x) (hx : x < e.next) :
    copyThrough e.staged (runEdge frame s e.code).regs x = (runEdge frame s e.code).regs x := by
  refine (h.regs_correct hprep).2 x hx fun phi _ _ hreg => ?_
  have := hprep.used _ x hreg
  omega

theorem EdgeCollecting.objects_kept (h : EdgeCollecting c frame pred next s (phisOf b) e) {a : V}
    (hhome : ∀ phi ∈ phisOf b, phi.isWideFloat = true → ∀ h, c.allocaSlotIndex phi.inst = some h →
      frame h ≠ a)
    (hstaging : ∀ phi ∈ phisOf b, ∀ k, c.wideFloatPhiStagingSlot phi.inst = some k →
      frame k ≠ a) :
    copyThrough (e.stagedHomes (copyThrough e.staged (runEdge frame s e.code).regs))
      (runEdge frame s e.code).mem a = s.mem a := by
  rw [h.mem]
  refine copyThrough_other (fun hmem => ?_) (fun hmem => ?_) <;>
    · simp only [EdgeCopies.stagedHomes, List.map_map] at hmem
      obtain ⟨q, hq, heq⟩ := List.mem_map.1 hmem
      obtain ⟨phi, hphi, slot, k, v, h1, h2, -, h4, h5, -, h7, h8, -⟩ :=
        exists_of_mem_right h.memPairs hq
      obtain ⟨hphi, hwide⟩ := List.mem_filter.1 hphi
      simp only [Function.comp_apply] at heq
      first
        | rw [h.regs_new hprep h7.1 h7.2, h4] at heq
          exact hhome phi hphi hwide slot h1 heq
        | rw [h.regs_new hprep h8.1 h8.2, h5] at heq
          exact hstaging phi hphi k h2 heq

theorem EdgeCollecting.incoming_kept (h : EdgeCollecting c frame pred next s (phisOf b) e)
    (hreads : c.ReadsSettled pred (phisOf b)) {phi : MirPhi} (hphi : phi ∈ phisOf b)
    (hwide : phi.isWideFloat = true) {v x : ℕ} (hv : phi.incoming pred = some v)
    (hx : x < e.next)
    (hown : next ≤ x ∨ c.allocaSlotIndex v = none ∧ c.valueToReg v = some x) :
    copyThrough e.staged (runEdge frame s e.code).regs x = (runEdge frame s e.code).regs x := by
  rcases hown with hnew | ⟨hslot, hreg⟩
  · exact h.regs_new hprep hnew hx
  by_cases hphis : ∀ phi' ∈ phisOf b, phi'.isWideFloat = false → c.valueToReg phi'.inst ≠ some x
  · exact (h.regs_correct hprep).2 x hx hphis
  · -- the register is that of a phi whose value on the edge is itself
    push Not at hphis
    obtain ⟨phi', hphi', hwide', hreg'⟩ := hphis
    obtain ⟨v', hv', hslot', hself⟩ :=
      hreads phi hphi hwide v hv hslot x hreg phi' hphi' hwide' hreg'
    have hval := (h.regs_correct hprep).1 phi' hphi' hwide' x hreg' v' hv'
    unfold ValueMap.value? at hval
    rw [hslot', hself] at hval
    rw [← Option.some.inj hval, h.regs x (hprep.used _ x hreg)]

theorem EdgeCollecting.home_correct (h : EdgeCollecting c frame pred next s (phisOf b) e)
    (hhidden : c.Hidden frame phisOf pred b s) (hreads : c.ReadsSettled pred (phisOf b)) :
    ∀ phi ∈ phisOf b, phi.isWideFloat = true → ∀ slot, c.allocaSlotIndex phi.inst = some slot →
      ∀ v, phi.incoming pred = some v → ∀ a, c.value? frame s v = some a →
      copyThrough (e.stagedHomes (copyThrough e.staged (runEdge frame s e.code).regs))
        (runEdge frame s e.code).mem (frame slot) = s.mem a := by
  -- what the registers of a pair hold after the moves
  have hpair : List.Forall₂ (fun phi (q : MemPair) => ∃ slot k v,
      c.allocaSlotIndex phi.inst = some slot ∧ c.wideFloatPhiStagingSlot phi.inst = some k ∧
      phi.incoming pred = some v ∧
      copyThrough e.staged (runEdge frame s e.code).regs q.home = frame slot ∧
      copyThrough e.staged (runEdge frame s e.code).regs q.staging = frame k ∧
      c.value? frame s v = some (copyThrough e.staged (runEdge frame s e.code).regs q.incoming))
      ((phisOf b).filter fun phi => phi.isWideFloat) e.memPairs := by
    refine List.Forall₂.imp ?_ ((List.forall₂_and_left _ _).2 ⟨fun phi hphi => hphi, h.memPairs⟩)
    rintro phi q ⟨hphi, slot, k, v, h1, h2, h3, h4, h5, h6, h7, h8, h9, h10⟩
    obtain ⟨hphi, hwide⟩ := List.mem_filter.1 hphi
    refine ⟨slot, k, v, h1, h2, h3, ?_, ?_, ?_⟩
    · rw [h.regs_new hprep h7.1 h7.2, h4]
    · rw [h.regs_new hprep h8.1 h8.2, h5]
    · rw [h.incoming_kept hprep hreads hphi hwide h3 h9 h10]
      exact h6
  generalize copyThrough e.staged (runEdge frame s e.code).regs = regs at hpair
  have hphis : ∀ q ∈ e.memPairs, ∃ phi ∈ phisOf b, phi.isWideFloat = true ∧ ∃ slot k v,
      c.allocaSlotIndex phi.inst = some slot ∧ c.wideFloatPhiStagingSlot phi.inst = some k ∧
      phi.incoming pred = some v ∧ regs q.home = frame slot ∧ regs q.staging = frame k ∧
      c.value? frame s v = some (regs q.incoming) := by
    intro q hq
    obtain ⟨phi, hphi, hR⟩ := exists_of_mem_right hpair hq
    obtain ⟨hphi, hwide⟩ := List.mem_filter.1 hphi
    exact ⟨phi, hphi, hwide, hR⟩
  have hnodup := (hprep.nodup b).filter fun phi => phi.isWideFloat
  have htargets : (e.stagedHomes regs).map StagedCopy.target = e.memPairs.map (regs ·.home) := by
    simp only [EdgeCopies.stagedHomes, List.map_map]
    rfl
  have htemps : (e.stagedHomes regs).map StagedCopy.temp = e.memPairs.map (regs ·.staging) := by
    simp only [EdgeCopies.stagedHomes, List.map_map]
    rfl
  have hapart : StagedApart (e.stagedHomes regs) := by
    refine ⟨?_, ?_, ?_, ?_⟩
    · rw [htargets]
      refine nodup_map_of_forall₂ hpair hnodup _ ?_
      rintro phi hphi phi' hphi' q q' ⟨x, -, -, h1, -, -, h4, -⟩ ⟨x', -, -, h1', -, -, h4', -⟩ heq
      obtain ⟨hphi, hwide⟩ := List.mem_filter.1 hphi
      obtain ⟨hphi', hwide'⟩ := List.mem_filter.1 hphi'
      have hslot : x = x' := hprep.frame (h4.symm.trans (heq.trans h4'))
      exact (hprep.ownHome b b phi hphi phi' hphi' hwide hwide' x h1 (hslot ▸ h1')).2
    · rw [htemps]
      refine nodup_map_of_forall₂ hpair hnodup _ ?_
      rintro phi hphi phi' hphi' q q' ⟨-, k, -, -, h2, -, -, h5, -⟩ ⟨-, k', -, -, h2', -, -, h5', -⟩
        heq
      have hslot : k = k' := hprep.frame (h5.symm.trans (heq.trans h5'))
      exact (hprep.ownStaging b b phi (List.mem_filter.1 hphi).1 phi' (List.mem_filter.1 hphi').1 k
        h2 (hslot ▸ h2')).2
    · intro p hp hmem
      obtain ⟨q, hq, rfl⟩ := List.mem_map.1 hp
      rw [htemps] at hmem
      obtain ⟨q', hq', heq⟩ := List.mem_map.1 hmem
      obtain ⟨phi, hphi, hwide, -, -, v, -, -, hv, -, -, hval⟩ := hphis q hq
      obtain ⟨phi', hphi', -, -, k, -, -, h2, -, -, h5, -⟩ := hphis q' hq'
      refine hhidden phi hphi hwide v hv b phi' hphi' k h2 ?_
      rw [hval, ← h5]
      exact congrArg some heq.symm
    · intro p hp hmem
      obtain ⟨q, hq, rfl⟩ := List.mem_map.1 hp
      rw [htargets] at hmem
      obtain ⟨q', hq', heq⟩ := List.mem_map.1 hmem
      obtain ⟨phi, hphi, -, -, k, -, -, h2, -, -, h5, -⟩ := hphis q hq
      obtain ⟨phi', hphi', -, slot, -, -, h1, -, -, h4, -, -⟩ := hphis q' hq'
      have hslot : slot = k := hprep.frame (h4.symm.trans (heq.trans h5))
      exact hprep.hidden b phi hphi k h2 phi'.inst (hslot ▸ h1)
  intro phi hphi hwide slot hslot v hv a ha
  obtain ⟨q, hq, slot', k, v', h1, -, h3, h4, -, h6⟩ :=
    exists_of_mem_left hpair (List.mem_filter.2 ⟨hphi, hwide⟩)
  rw [hslot] at h1
  rw [hv] at h3
  obtain rfl := Option.some.inj h1
  obtain rfl := Option.some.inj h3
  rw [ha] at h6
  rw [h.mem, ← h4, Option.some.inj h6]
  exact @copyThrough_target V D _ _ hapart s.mem ⟨regs q.home, regs q.staging, regs q.incoming⟩
    (List.mem_map_of_mem hq)

theorem emitPhiMovesForEdge_spec {code : List EdgeInst} {next' : ℕ}
    (h : c.emitPhiMovesForEdge pred (phisOf b) next = some (code, next')) (s : EdgeState V D) :
    next ≤ next' ∧
    (∀ phi ∈ phisOf b, phi.isWideFloat = false → ∀ r, c.valueToReg phi.inst = some r →
      ∀ v, phi.incoming pred = some v →
      c.value? frame s v = some ((runEdge frame s code).regs r)) ∧
    (∀ r < next, (∀ phi ∈ phisOf b, phi.isWideFloat = false → c.valueToReg phi.inst ≠ some r) →
      (runEdge frame s code).regs r = s.regs r) ∧
    (∀ a, (∀ phi ∈ phisOf b, phi.isWideFloat = true → ∀ h, c.allocaSlotIndex phi.inst = some h →
        frame h ≠ a) →
      (∀ phi ∈ phisOf b, ∀ k, c.wideFloatPhiStagingSlot phi.inst = some k → frame k ≠ a) →
      (runEdge frame s code).mem a = s.mem a) ∧
    (c.Hidden frame phisOf pred b s → c.ReadsSettled pred (phisOf b) →
      ∀ phi ∈ phisOf b, phi.isWideFloat = true → ∀ h, c.allocaSlotIndex phi.inst = some h →
        ∀ v, phi.incoming pred = some v → ∀ a, c.value? frame s v = some a →
        (runEdge frame s code).mem (frame h) = s.mem a) := by
  unfold ValueMap.emitPhiMovesForEdge at h
  simp only [Option.bind_eq_bind, Option.bind_eq_some_iff, Option.pure_def] at h
  obtain ⟨e, hcollect, heq⟩ := h
  obtain ⟨rfl, rfl⟩ := Prod.mk.inj (Option.some.inj heq)
  have hstart : EdgeCollecting c frame pred next s [] ⟨next, [], [], []⟩ :=
    ⟨le_rfl, rfl, fun _ _ => rfl, .nil, .nil⟩
  have hcol := hstart.foldlM hprep.used (phisOf b) hcollect
  rw [List.nil_append] at hcol
  have hle := hcol.le
  have hrun : runEdge frame s (e.code
      ++ e.pairs.zipIdx.map (fun p => .mov (e.next + p.2) p.1.2)
      ++ e.pairs.zipIdx.map (fun p => .mov p.1.1 (e.next + p.2))
      ++ e.memPairs.map (fun q => .homeCopy q.incoming q.staging)
      ++ e.memPairs.map (fun q => .homeCopy q.staging q.home)) =
      ⟨copyThrough e.staged (runEdge frame s e.code).regs,
        copyThrough (e.stagedHomes (copyThrough e.staged (runEdge frame s e.code).regs))
          (runEdge frame s e.code).mem⟩ := by
    rw [← @runEdge_copies V D _ frame (runEdge frame s e.code) e, ← runEdge_append]
    simp only [List.append_assoc]
  rw [hrun]
  obtain ⟨hreg, hother⟩ := hcol.regs_correct hprep
  refine ⟨by omega, hreg, fun r hr hno => ?_, fun a hhome hstaging => ?_, fun hhidden hreads => ?_⟩
  · exact (hother r (by omega) hno).trans (hcol.regs r hr)
  · exact hcol.objects_kept hprep hhome hstaging
  · exact hcol.home_correct hprep hhidden hreads

/-- **The copies of one edge are right.** -/
theorem emitPhiMovesForEdge_correct {code : List EdgeInst} {next' : ℕ}
    (h : c.emitPhiMovesForEdge pred (phisOf b) next = some (code, next'))
    (hhidden : c.Hidden frame phisOf pred b s) (hreads : c.ReadsSettled pred (phisOf b))
    {liveRegs : ℕ → Prop} {liveObjects : V → Prop} (hlive : ∀ r, liveRegs r → r < next)
    (hobjects : ∀ a, liveObjects a → ∀ b, ∀ phi ∈ phisOf b, ∀ k,
      c.wideFloatPhiStagingSlot phi.inst = some k → frame k ≠ a) :
    EdgeCorrect c frame pred (phisOf b) liveRegs liveObjects s (runEdge frame s code) := by
  obtain ⟨-, hreg, hother, hmem, hhome⟩ := emitPhiMovesForEdge_spec hprep h s
  exact ⟨hreg, hhome hhidden hreads, fun r hr hno => hother r (hlive r hr) hno,
    fun a ha hno => hmem a hno (hobjects a ha b)⟩

end Prepared

end Edge

end DssPrime
