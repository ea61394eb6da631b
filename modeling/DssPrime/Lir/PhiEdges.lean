import DssPrime.Lir.PhiMovesSound

/-!
# Phi elimination on the edges of a terminator

The copies of an edge stand in a block of their own if the terminator has several successors and the
lowering chooses where each of its branches goes; else they stand before the terminator, and before
it reads its own operands.
-/

namespace DssPrime

section Terminator

variable {V D : Type} [DecidableEq V] {c : ValueMap} {frame : ℕ → V} {pred next : ℕ}
  {s : EdgeState V D} {phisOf : ℕ → List MirPhi}

omit [DecidableEq V] in
theorem ValueMap.Prepared.mono (h : c.Prepared frame phisOf next) {next' : ℕ} (hle : next ≤ next') :
    c.Prepared frame phisOf next' :=
  { h with used := fun v r hr => (h.used v r hr).trans_le hle }

/-- The copies of an edge into block `b` leave the registers `P` and the objects `Q` alone. -/
structure Spares (c : ValueMap) (frame : ℕ → V) (phisOf : ℕ → List MirPhi) (next : ℕ)
    (P : ℕ → Prop) (Q : V → Prop) (b : ℕ) : Prop where
  used : ∀ r, P r → r < next
  regs : ∀ phi ∈ phisOf b, phi.isWideFloat = false → ∀ r, c.valueToReg phi.inst = some r → ¬ P r
  homes : ∀ phi ∈ phisOf b, phi.isWideFloat = true → ∀ h, c.allocaSlotIndex phi.inst = some h →
    ¬ Q (frame h)
  stagings : ∀ a, Q a → ∀ phi ∈ phisOf b, ∀ k, c.wideFloatPhiStagingSlot phi.inst = some k →
    frame k ≠ a

theorem inlineMoves_spares (hprep : c.Prepared frame phisOf next) {P : ℕ → Prop} {Q : V → Prop}
    {succs : List ℕ} (hspare : ∀ b ∈ succs, Spares c frame phisOf next P Q b) {n n' : ℕ}
    (hn : next ≤ n) {code : List EdgeInst}
    (h : c.inlineMoves phisOf pred succs n = some (code, n')) (s : EdgeState V D) :
    n ≤ n' ∧ (∀ r, P r → (runEdge frame s code).regs r = s.regs r) ∧
      ∀ a, Q a → (runEdge frame s code).mem a = s.mem a := by
  induction succs generalizing n code s with
  | nil =>
    obtain ⟨rfl, rfl⟩ := Prod.mk.inj (Option.some.inj h)
    exact ⟨le_rfl, fun _ _ => rfl, fun _ _ => rfl⟩
  | cons b succs ih =>
    unfold ValueMap.inlineMoves at h
    simp only [Option.bind_eq_bind, Option.bind_eq_some_iff, Option.pure_def] at h
    obtain ⟨⟨code₁, n₁⟩, hedge, ⟨code₂, n₂⟩, hrest, heq⟩ := h
    obtain ⟨rfl, rfl⟩ := Prod.mk.inj (Option.some.inj heq)
    obtain ⟨hb, hsuccs⟩ := List.forall_mem_cons.1 hspare
    obtain ⟨hle, -, hother, hmem, -⟩ := emitPhiMovesForEdge_spec (hprep.mono hn) hedge s
    obtain ⟨hle', h1, h2⟩ := ih hsuccs (hn.trans hle) hrest (runEdge frame s code₁)
    rw [runEdge_append]
    refine ⟨hle.trans hle', fun r hr => (h1 r hr).trans ?_, fun a ha => (h2 a ha).trans ?_⟩
    · exact hother r ((hb.used r hr).trans_le hn) fun phi hphi hwide hreg =>
        hb.regs phi hphi hwide r hreg hr
    · refine hmem a (fun phi hphi hwide h hslot heq => ?_) (hb.stagings a ha)
      exact hb.homes phi hphi hwide h hslot (heq ▸ ha)

theorem inlineMoves_append {before after : List ℕ} {n n' : ℕ} {code : List EdgeInst}
    (hprep : c.Prepared frame phisOf next) (hn : next ≤ n) (s : EdgeState V D)
    (h : c.inlineMoves phisOf pred (before ++ after) n = some (code, n')) :
    ∃ code₁ code₂ m, next ≤ m ∧ c.inlineMoves phisOf pred before n = some (code₁, m) ∧
      c.inlineMoves phisOf pred after m = some (code₂, n') ∧ code = code₁ ++ code₂ := by
  induction before generalizing n code with
  | nil => exact ⟨[], code, n, hn, rfl, h, rfl⟩
  | cons b before ih =>
    rw [List.cons_append] at h
    unfold ValueMap.inlineMoves at h
    simp only [Option.bind_eq_bind, Option.bind_eq_some_iff, Option.pure_def] at h
    obtain ⟨⟨code₁, n₁⟩, hedge, ⟨code₂, n₂⟩, hrest, heq⟩ := h
    obtain ⟨rfl, rfl⟩ := Prod.mk.inj (Option.some.inj heq)
    have hle := (emitPhiMovesForEdge_spec (hprep.mono hn) hedge s).1
    obtain ⟨code₃, code₄, m, hm, h3, h4, rfl⟩ := ih (hn.trans hle) hrest
    refine ⟨code₁ ++ code₃, code₄, m, hm, ?_, h4, (List.append_assoc _ _ _).symm⟩
    unfold ValueMap.inlineMoves
    rw [hedge]
    simp only [Option.bind_eq_bind, Option.bind_some, h3, Option.pure_def]

/-- The copies of an edge into another successor `other` do not touch what the edge into `succ`
reads or what is live into `succ`. -/
structure EdgesApart (c : ValueMap) (frame : ℕ → V) (phisOf : ℕ → List MirPhi) (pred : ℕ)
    (liveRegs : ℕ → Prop) (liveObjects : V → Prop) (s : EdgeState V D) (succ other : ℕ) :
    Prop where
  regs : ∀ phi ∈ phisOf other, phi.isWideFloat = false → ∀ r, c.valueToReg phi.inst = some r →
    ¬ liveRegs r ∧ ∀ phi' ∈ phisOf succ, ∀ v, phi'.incoming pred = some v →
      c.allocaSlotIndex v = none → c.valueToReg v ≠ some r
  homes : ∀ phi ∈ phisOf other, phi.isWideFloat = true → ∀ h, c.allocaSlotIndex phi.inst = some h →
    ¬ liveObjects (frame h) ∧ ∀ phi' ∈ phisOf succ, phi'.isWideFloat = true →
      ∀ v, phi'.incoming pred = some v → c.value? frame s v ≠ some (frame h)

theorem inlineMoves_correct (hprep : c.Prepared frame phisOf next) {before after : List ℕ}
    {succ n' : ℕ} {code : List EdgeInst}
    (h : c.inlineMoves phisOf pred (before ++ succ :: after) next = some (code, n'))
    (hhidden : c.Hidden frame phisOf pred succ s) (hreads : c.ReadsSettled pred (phisOf succ))
    {liveRegs : ℕ → Prop} {liveObjects : V → Prop} (hlive : ∀ r, liveRegs r → r < next)
    (hobjects : ∀ a, liveObjects a → ∀ b, ∀ phi ∈ phisOf b, ∀ k,
      c.wideFloatPhiStagingSlot phi.inst = some k → frame k ≠ a)
    (hapart : ∀ other ∈ before ++ after, other ≠ succ ∧
      EdgesApart c frame phisOf pred liveRegs liveObjects s succ other) :
    EdgeCorrect c frame pred (phisOf succ) liveRegs liveObjects s (runEdge frame s code) := by
  obtain ⟨code₁, rest, n, hn, hbefore, hrest, rfl⟩ := inlineMoves_append hprep le_rfl s h
  unfold ValueMap.inlineMoves at hrest
  simp only [Option.bind_eq_bind, Option.bind_eq_some_iff, Option.pure_def] at hrest
  obtain ⟨⟨code₂, n₂⟩, hedge, ⟨code₃, n₃⟩, hafter, heq⟩ := hrest
  obtain ⟨rfl, rfl⟩ := Prod.mk.inj (Option.some.inj heq)
  have hn₂ : n ≤ n₂ := (emitPhiMovesForEdge_spec (hprep.mono hn) hedge s).1
  rw [runEdge_append, runEdge_append]
  -- the edges before leave what is live and what the phis read
  obtain ⟨-, hregs₁, hmem₁⟩ := @inlineMoves_spares V D _ c frame pred next phisOf hprep
    (fun r => liveRegs r ∨ ∃ phi ∈ phisOf succ, ∃ v, phi.incoming pred = some v ∧
      c.allocaSlotIndex v = none ∧ c.valueToReg v = some r)
    (fun a => liveObjects a ∨ ∃ phi ∈ phisOf succ, phi.isWideFloat = true ∧
      ∃ v, phi.incoming pred = some v ∧ c.value? frame s v = some a) before
    (by
      intro other hother
      obtain ⟨-, hregs, hhomes⟩ := hapart other (List.mem_append_left _ hother)
      refine ⟨?_, ?_, ?_, ?_⟩
      · rintro r (hr | ⟨phi, -, v, -, -, hreg⟩)
        · exact hlive r hr
        · exact hprep.used v r hreg
      · rintro phi hphi hwide r hreg (hr | ⟨phi', hphi', v, hv, hslot, hreg'⟩)
        · exact (hregs phi hphi hwide r hreg).1 hr
        · exact (hregs phi hphi hwide r hreg).2 phi' hphi' v hv hslot hreg'
      · rintro phi hphi hwide h hslot (ha | ⟨phi', hphi', hwide', v, hv, hval⟩)
        · exact (hhomes phi hphi hwide h hslot).1 ha
        · exact (hhomes phi hphi hwide h hslot).2 phi' hphi' hwide' v hv hval
      · rintro a (ha | ⟨phi', hphi', hwide', v, hv, hval⟩) phi hphi k hk heq
        · exact hobjects a ha other phi hphi k hk heq
        · exact hhidden phi' hphi' hwide' v hv other phi hphi k hk (heq ▸ hval)) next n le_rfl code₁
    hbefore s
  have hval : ∀ phi ∈ phisOf succ, ∀ v, phi.incoming pred = some v →
      c.value? frame (runEdge frame s code₁) v = c.value? frame s v := by
    intro phi hphi v hv
    unfold ValueMap.value?
    cases hslot : c.allocaSlotIndex v with
    | some slot => rfl
    | none =>
      cases hreg : c.valueToReg v with
      | none => rfl
      | some r =>
        simp only [Option.map_some]
        rw [hregs₁ r (.inr ⟨phi, hphi, v, hv, hslot, hreg⟩)]
  have hhidden₁ : c.Hidden frame phisOf pred succ (runEdge frame s code₁) := by
    intro phi hphi hwide v hv
    rw [hval phi hphi v hv]
    exact hhidden phi hphi hwide v hv
  -- the edge itself
  have hcorrect := emitPhiMovesForEdge_correct (hprep.mono hn) hedge hhidden₁ hreads
    (fun r hr => (hlive r hr).trans_le hn) hobjects
  generalize runEdge frame (runEdge frame s code₁) code₂ = s₂ at hcorrect
  -- the edges after leave what is live and the phis
  obtain ⟨-, hregs₃, hmem₃⟩ := @inlineMoves_spares V D _ c frame pred next phisOf hprep
    (fun r => liveRegs r ∨ ∃ phi ∈ phisOf succ, phi.isWideFloat = false ∧
      c.valueToReg phi.inst = some r)
    (fun a => liveObjects a ∨ ∃ phi ∈ phisOf succ, phi.isWideFloat = true ∧
      ∃ h, c.allocaSlotIndex phi.inst = some h ∧ frame h = a) after
    (by
      intro other hother
      obtain ⟨hne, hregs, hhomes⟩ := hapart other (List.mem_append_right _ hother)
      refine ⟨?_, ?_, ?_, ?_⟩
      · rintro r (hr | ⟨phi, -, -, hreg⟩)
        · exact hlive r hr
        · exact hprep.used _ r hreg
      · rintro phi hphi hwide r hreg (hr | ⟨phi', hphi', hwide', hreg'⟩)
        · exact (hregs phi hphi hwide r hreg).1 hr
        · exact hne (hprep.ownReg other succ phi hphi phi' hphi' hwide hwide' r hreg hreg').1
      · rintro phi hphi hwide h hslot (ha | ⟨phi', hphi', hwide', h', hslot', heq⟩)
        · exact (hhomes phi hphi hwide h hslot).1 ha
        · obtain rfl := hprep.frame heq
          exact hne (hprep.ownHome other succ phi hphi phi' hphi' hwide hwide' _ hslot hslot').1
      · rintro a (ha | ⟨phi', hphi', hwide', h', hslot', rfl⟩) phi hphi k hk heq
        · exact hobjects a ha other phi hphi k hk heq
        · obtain rfl := hprep.frame heq
          exact hprep.hidden other phi hphi _ hk phi'.inst hslot') n₂ _ (hn.trans hn₂) code₃
    hafter s₂
  refine ⟨?_, ?_, ?_, ?_⟩
  · intro phi hphi hwide r hreg v hv
    rw [hregs₃ r (.inr ⟨phi, hphi, hwide, hreg⟩), ← hval phi hphi v hv]
    exact hcorrect.reg phi hphi hwide r hreg v hv
  · intro phi hphi hwide h hslot v hv a ha
    rw [hmem₃ _ (.inr ⟨phi, hphi, hwide, h, hslot, rfl⟩),
      ← hmem₁ a (.inr ⟨phi, hphi, hwide, v, hv, ha⟩)]
    exact hcorrect.home phi hphi hwide h hslot v hv a ((hval phi hphi v hv).trans ha)
  · intro r hr hno
    rw [hregs₃ r (.inl hr), hcorrect.others r hr hno, hregs₁ r (.inl hr)]
  · intro a ha hno
    rw [hmem₃ a (.inl ha), hcorrect.objects a ha hno, hmem₁ a (.inl ha)]

theorem splitMoves_spec (hprep : c.Prepared frame phisOf next) (s : EdgeState V D)
    {succs : List ℕ} {splits splits' : List (ℕ × List EdgeInst)} {n : ℕ} (hn : next ≤ n)
    (hsplits : ∀ x ∈ splits, phisOf x.1 ≠ [] ∧
      ∃ m m', next ≤ m ∧ c.emitPhiMovesForEdge pred (phisOf x.1) m = some (x.2, m'))
    (h : c.splitMoves phisOf pred succs splits n = some splits') :
    (∀ x ∈ splits', phisOf x.1 ≠ [] ∧
      ∃ m m', next ≤ m ∧ c.emitPhiMovesForEdge pred (phisOf x.1) m = some (x.2, m')) ∧
    (∀ x ∈ splits, x ∈ splits') ∧
    ∀ b ∈ succs, phisOf b ≠ [] → b ∈ splits'.map Prod.fst := by
  induction succs generalizing splits n with
  | nil =>
    obtain rfl := Option.some.inj h
    exact ⟨hsplits, fun x hx => hx, by simp⟩
  | cons b succs ih =>
    unfold ValueMap.splitMoves at h
    split_ifs at h with hskip
    · obtain ⟨h1, h2, h3⟩ := ih hn hsplits h
      refine ⟨h1, h2, List.forall_mem_cons.2 ⟨fun hne => ?_, h3⟩⟩
      obtain ⟨x, hx, rfl⟩ := List.mem_map.1 (hskip.resolve_left hne)
      exact List.mem_map_of_mem (h2 x hx)
    · push Not at hskip
      simp only [Option.bind_eq_bind, Option.bind_eq_some_iff] at h
      obtain ⟨⟨code, n'⟩, hedge, h⟩ := h
      have hle := (emitPhiMovesForEdge_spec (hprep.mono hn) hedge s).1
      obtain ⟨h1, h2, h3⟩ := ih (hn.trans hle) (fun x hx => by
        rcases List.mem_append.1 hx with hx | hx
        · exact hsplits x hx
        · obtain rfl := List.mem_singleton.1 hx
          exact ⟨hskip.1, n, n', hn, hedge⟩) h
      refine ⟨h1, fun x hx => h2 x (List.mem_append_left _ hx),
        List.forall_mem_cons.2 ⟨fun _ => ?_, h3⟩⟩
      exact List.mem_map_of_mem (h2 (b, code) (by simp))

/-- What the branch reads: the values of the operands, and nothing in use is changed. -/
structure OperandsRead (c : ValueMap) (frame : ℕ → V) (next : ℕ) (s s' : EdgeState V D)
    (operands reads : List ℕ) : Prop where
  mem : s'.mem = s.mem
  regs : ∀ r < next, s'.regs r = s.regs r
  values : reads.map s'.regs = operands.filterMap (c.value? frame s)

theorem operandRegs_collecting (hused : ∀ v r, c.valueToReg v = some r → r < next)
    {vs rs : List ℕ} {e e' : EdgeCopies} (hcol : EdgeCollecting c frame pred next s [] e)
    (h : c.operandRegs e vs = some (rs, e')) :
    EdgeCollecting c frame pred next s [] e' ∧ e.next ≤ e'.next ∧
      (∀ r < e.next, (runEdge frame s e'.code).regs r = (runEdge frame s e.code).regs r) ∧
      rs.map (runEdge frame s e'.code).regs = vs.filterMap (c.value? frame s) := by
  induction vs generalizing rs e with
  | nil =>
    obtain ⟨rfl, rfl⟩ := Prod.mk.inj (Option.some.inj h)
    exact ⟨hcol, le_rfl, fun _ _ => rfl, rfl⟩
  | cons v vs ih =>
    unfold ValueMap.operandRegs at h
    simp only [Option.bind_eq_bind, Option.bind_eq_some_iff, Option.pure_def] at h
    obtain ⟨⟨x, e₁⟩, hreg, ⟨rs, e₂⟩, hrest, heq⟩ := h
    obtain ⟨rfl, rfl⟩ := Prod.mk.inj (Option.some.inj heq)
    obtain ⟨hcol₁, hx⟩ := hcol.regForValue hused hreg
    obtain ⟨hcol₂, hle, hkeeps, hvals⟩ := ih hcol₁ hrest
    refine ⟨hcol₂, hx.le.trans hle, fun r hr => ?_, ?_⟩
    · exact (hkeeps r (hr.trans_le hx.le)).trans (hx.keeps r hr)
    · rw [List.map_cons, List.filterMap_cons, hx.val, hvals, hkeeps x hx.lt]

theorem operandRegs_read (hused : ∀ v r, c.valueToReg v = some r → r < next) {n : ℕ}
    (hn : next ≤ n) (s : EdgeState V D) {vs rs : List ℕ} {e : EdgeCopies}
    (h : c.operandRegs ⟨n, [], [], []⟩ vs = some (rs, e)) :
    n ≤ e.next ∧ OperandsRead c frame n s (runEdge frame s e.code) vs rs := by
  have hstart : EdgeCollecting c frame 0 n s [] ⟨n, [], [], []⟩ :=
    ⟨le_rfl, rfl, fun _ _ => rfl, .nil, .nil⟩
  obtain ⟨hcol, hle, -, hvals⟩ :=
    operandRegs_collecting (fun v r hr => (hused v r hr).trans_le hn) hstart h
  exact ⟨hle, hcol.mem, hcol.regs, hvals⟩

omit [DecidableEq V] in
theorem value?_congr (hused : ∀ v r, c.valueToReg v = some r → r < next) {s s' : EdgeState V D}
    (h : ∀ r < next, s'.regs r = s.regs r) (v : ℕ) : c.value? frame s' v = c.value? frame s v := by
  unfold ValueMap.value?
  cases hslot : c.allocaSlotIndex v with
  | some slot => rfl
  | none =>
    cases hreg : c.valueToReg v with
    | none => rfl
    | some r =>
      simp only [Option.map_some]
      rw [h r (hused v r hreg)]

section Agree

variable {phis : List MirPhi} {liveRegs : ℕ → Prop} {liveObjects : V → Prop}
  {s s₁ s' : EdgeState V D}

omit [DecidableEq V] in
/-- New registers written before the copies do not matter. -/
theorem EdgeCorrect.of_agree (hused : ∀ v r, c.valueToReg v = some r → r < next)
    (hlive : ∀ r, liveRegs r → r < next) (hregs : ∀ r < next, s₁.regs r = s.regs r)
    (hmem : s₁.mem = s.mem)
    (h : EdgeCorrect c frame pred phis liveRegs liveObjects s₁ s') :
    EdgeCorrect c frame pred phis liveRegs liveObjects s s' := by
  have hval := @value?_congr V D c frame next hused s s₁ hregs
  refine ⟨fun phi hphi hwide r hr v hv => ?_, fun phi hphi hwide h' hh v hv a ha => ?_,
    fun r hr hno => ?_, fun a ha hno => ?_⟩
  · rw [← hval]
    exact h.reg phi hphi hwide r hr v hv
  · rw [h.home phi hphi hwide h' hh v hv a (by rw [hval, ha]), hmem]
  · rw [h.others r hr hno, hregs r (hlive r hr)]
  · rw [h.objects a ha hno, hmem]

omit [DecidableEq V] in
/-- Nor do new registers written after them. -/
theorem EdgeCorrect.then_agree (hused : ∀ v r, c.valueToReg v = some r → r < next)
    (hlive : ∀ r, liveRegs r → r < next) (hregs : ∀ r < next, s'.regs r = s₁.regs r)
    (hmem : s'.mem = s₁.mem)
    (h : EdgeCorrect c frame pred phis liveRegs liveObjects s s₁) :
    EdgeCorrect c frame pred phis liveRegs liveObjects s s' := by
  refine ⟨fun phi hphi hwide r hr v hv => ?_, fun phi hphi hwide h' hh v hv a ha => ?_,
    fun r hr hno => ?_, fun a ha hno => ?_⟩
  · rw [hregs r (hused _ r hr)]
    exact h.reg phi hphi hwide r hr v hv
  · rw [hmem]
    exact h.home phi hphi hwide h' hh v hv a ha
  · rw [hregs r (hlive r hr)]
    exact h.others r hr hno
  · rw [hmem]
    exact h.objects a ha hno

end Agree

/-- No copy before the branch writes a register that the branch goes by. -/
def ValueMap.OperandsApart (c : ValueMap) (phis : List MirPhi) (operands : List ℕ) : Prop :=
  ∀ phi ∈ phis, phi.isWideFloat = false → ∀ r, c.valueToReg phi.inst = some r →
    ∀ v ∈ operands, c.allocaSlotIndex v = none → c.valueToReg v ≠ some r

/-- The copies before the branch leave the values it goes by. -/
theorem inlineMoves_values (hprep : c.Prepared frame phisOf next) {operands succs : List ℕ}
    (happart : c.OperandsApart (succs.flatMap phisOf) operands) {code : List EdgeInst} {n' : ℕ}
    (h : c.inlineMoves phisOf pred succs next = some (code, n')) (s : EdgeState V D) :
    operands.filterMap (c.value? frame (runEdge frame s code)) =
      operands.filterMap (c.value? frame s) := by
  obtain ⟨-, hregs, -⟩ := @inlineMoves_spares V D _ c frame pred next phisOf hprep
    (fun r => ∃ v ∈ operands, c.allocaSlotIndex v = none ∧ c.valueToReg v = some r)
    (fun _ => False) succs
    (by
      intro b hb
      refine ⟨?_, ?_, fun _ _ _ _ _ h => h, fun a h => h.elim⟩
      · rintro r ⟨v, -, -, hreg⟩
        exact hprep.used v r hreg
      · rintro phi hphi hwide r hreg ⟨v, hv, hslot, hreg'⟩
        exact happart phi (List.mem_flatMap.2 ⟨b, hb, hphi⟩) hwide r hreg v hv hslot hreg')
    next n' le_rfl code h s
  refine List.filterMap_congr fun v hv => ?_
  unfold ValueMap.value?
  cases hslot : c.allocaSlotIndex v with
  | some slot => rfl
  | none =>
    cases hreg : c.valueToReg v with
    | none => rfl
    | some r =>
      simp only [Option.map_some]
      rw [hregs r ⟨v, hv, hslot, hreg⟩]

theorem inlineMoves_le (hprep : c.Prepared frame phisOf next) {succs : List ℕ}
    {code : List EdgeInst} {n' : ℕ}
    (h : c.inlineMoves phisOf pred succs next = some (code, n')) (s : EdgeState V D) :
    next ≤ n' :=
  (@inlineMoves_spares V D _ c frame pred next phisOf hprep (fun _ => False) (fun _ => False) succs
    (fun _ _ => ⟨fun _ h => h.elim, fun _ _ _ _ _ h => h, fun _ _ _ _ _ h => h,
      fun _ h => h.elim⟩) next n' le_rfl code h s).1

theorem arrive_split (hprep : c.Prepared frame phisOf next) {op : MirOpcode} {succ : ℕ}
    {operands succs : List ℕ} {t : LoweredTerminator} {goesTo : List V → ℕ}
    {liveRegs : ℕ → Prop} {liveObjects : V → Prop} {s : EdgeState V D}
    (hsplit : succs.length > 1 ∧ terminatorOwnsEverySuccessorBranch op = true)
    (hlower : c.lowerTerminator phisOf op pred operands succs next = some t)
    (hsucc : succ ∈ succs) (hgoes : goesTo (operands.filterMap (c.value? frame s)) = succ)
    (hlive : ∀ r, liveRegs r → r < next)
    (hobjects : ∀ a, liveObjects a → ∀ b, ∀ phi ∈ phisOf b, ∀ k,
      c.wideFloatPhiStagingSlot phi.inst = some k → frame k ≠ a)
    (hhidden : c.Hidden frame phisOf pred succ s) (hreads : c.ReadsSettled pred (phisOf succ)) :
    (t.arrive frame goesTo s).1 = succ ∧ EdgeCorrect c frame pred (phisOf succ) liveRegs
      liveObjects s (t.arrive frame goesTo s).2 := by
  unfold ValueMap.lowerTerminator at hlower
  rw [if_pos hsplit] at hlower
  simp only [Option.bind_eq_bind, Option.bind_eq_some_iff, Option.pure_def] at hlower
  obtain ⟨⟨rs, e⟩, hops, splits, hsplits, heq⟩ := hlower
  obtain rfl := Option.some.inj heq
  obtain ⟨hle, hread⟩ := @operandRegs_read V D _ c frame next hprep.used next le_rfl s _ _ _ hops
  unfold LoweredTerminator.arrive
  simp only [hread.values, hgoes, true_and]
  refine EdgeCorrect.of_agree hprep.used hlive hread.regs hread.mem ?_
  have hhidden₁ : c.Hidden frame phisOf pred succ (runEdge frame s e.code) := by
    intro phi hphi hwide v hv
    rw [value?_congr hprep.used hread.regs]
    exact hhidden phi hphi hwide v hv
  -- every edge with phis has a block of its own
  obtain ⟨hedges, -, hcover⟩ :=
    splitMoves_spec (hprep.mono hle) s le_rfl (fun x hx => by cases hx) hsplits
  cases hlookup : splits.lookup succ with
  | some code =>
    obtain ⟨l₁, l₂, rfl, -⟩ := List.lookup_eq_some_iff.1 hlookup
    obtain ⟨-, m, m', hm, hedge⟩ := hedges (succ, code) (by simp)
    exact emitPhiMovesForEdge_correct (hprep.mono (hle.trans hm)) hedge hhidden₁ hreads
      (fun r hr => (hlive r hr).trans_le (hle.trans hm)) hobjects
  | none =>
    have hnone : phisOf succ = [] := by
      by_contra hne
      obtain ⟨x, hx, heq⟩ := List.mem_map.1 (hcover succ hsucc hne)
      have := List.lookup_eq_none_iff.1 hlookup x hx
      rw [heq] at this
      simp at this
    rw [hnone]
    exact ⟨by simp, by simp, fun _ _ _ => rfl, fun _ _ _ => rfl⟩

/-- **Phi elimination is right on every edge** whose `long double` values are not read through a phi
register that the edge changes, and, where the copies of several edges stand before the terminator,
whose successor is left alone by the other edges and whose branch goes by no register that the
copies write: control arrives where the operands of the terminator say, with every phi assigned and
nothing else that is live changed. -/
theorem lowerTerminator_correct (c : ValueMap) (frame : ℕ → V) (phisOf : ℕ → List MirPhi)
    (op : MirOpcode) (pred next succ : ℕ) (operands succs : List ℕ) (t : LoweredTerminator)
    (goesTo : List V → ℕ) (liveRegs : ℕ → Prop) (liveObjects : V → Prop) (s : EdgeState V D)
    (hprep : c.Prepared frame phisOf next)
    (hlower : c.lowerTerminator phisOf op pred operands succs next = some t)
    (hsuccs : ∀ values, goesTo values ∈ succs)
    (hgoes : goesTo (operands.filterMap (c.value? frame s)) = succ)
    (hlive : ∀ r, liveRegs r → r < next)
    (hobjects : ∀ a, liveObjects a → ∀ b, ∀ phi ∈ phisOf b, ∀ k,
      c.wideFloatPhiStagingSlot phi.inst = some k → frame k ≠ a)
    (hhidden : c.Hidden frame phisOf pred succ s) (hreads : c.ReadsSettled pred (phisOf succ))
    (hapart : terminatorOwnsEverySuccessorBranch op = false → succs.count succ = 1 ∧
      (∀ other ∈ succs, other ≠ succ →
        EdgesApart c frame phisOf pred liveRegs liveObjects s succ other) ∧
      (1 < succs.length → c.OperandsApart (succs.flatMap phisOf) operands)) :
    (t.arrive frame goesTo s).1 = succ ∧ EdgeCorrect c frame pred (phisOf succ) liveRegs
      liveObjects s (t.arrive frame goesTo s).2 := by
  have hsucc : succ ∈ succs := hgoes ▸ hsuccs _
  by_cases hsplit : succs.length > 1 ∧ terminatorOwnsEverySuccessorBranch op = true
  · exact arrive_split hprep hsplit hlower hsucc hgoes hlive hobjects hhidden hreads
  -- the copies stand before the terminator
  unfold ValueMap.lowerTerminator at hlower
  rw [if_neg hsplit] at hlower
  simp only [Option.bind_eq_bind, Option.bind_eq_some_iff, Option.pure_def] at hlower
  obtain ⟨⟨code, n⟩, hcode, ⟨rs, e⟩, hops, heq⟩ := hlower
  obtain rfl := Option.some.inj heq
  have hn := inlineMoves_le hprep hcode s
  obtain ⟨-, hread⟩ := @operandRegs_read V D _ c frame next hprep.used n hn (runEdge frame s code)
    _ _ _ hops
  have harrive : goesTo (rs.map (runEdge frame (runEdge frame s code) e.code).regs) = succ := by
    by_cases hone : 1 < succs.length
    · have howns : terminatorOwnsEverySuccessorBranch op = false := by
        simpa using fun h => hsplit ⟨hone, h⟩
      rw [hread.values, inlineMoves_values hprep ((hapart howns).2.2 hone) hcode s, hgoes]
    · -- one successor only
      obtain ⟨b, rfl⟩ : ∃ b, succs = [b] :=
        List.length_eq_one_iff.1 (by have := List.length_pos_of_mem hsucc; omega)
      rw [List.mem_singleton.1 (hsuccs _), List.mem_singleton.1 hsucc]
  unfold LoweredTerminator.arrive
  rw [runEdge_append]
  simp only [harrive, List.lookup_nil, true_and]
  refine EdgeCorrect.then_agree hprep.used hlive (fun r hr => hread.regs r (hr.trans_le hn))
    hread.mem ?_
  obtain ⟨before, after, rfl⟩ := List.append_of_mem hsucc
  refine inlineMoves_correct hprep hcode hhidden hreads hlive hobjects ?_
  intro other hother
  by_cases howns : terminatorOwnsEverySuccessorBranch op = true
  · rw [howns] at hsplit
    have hlen : before = [] ∧ after = [] := by
      simp only [List.length_append, List.length_cons, and_true, not_lt, gt_iff_lt] at hsplit
      exact ⟨List.length_eq_zero_iff.1 (by omega), List.length_eq_zero_iff.1 (by omega)⟩
    rw [hlen.1, hlen.2] at hother
    cases hother
  · obtain ⟨hcount, hall, -⟩ := hapart (by simpa using howns)
    rw [List.count_append, List.count_cons_self] at hcount
    have hne : other ≠ succ := by
      rintro rfl
      have hpos := List.count_pos_iff.2 hother
      rw [List.count_append] at hpos
      omega
    refine ⟨hne, hall other ?_ hne⟩
    rcases List.mem_append.1 hother with hmem | hmem
    · exact List.mem_append_left _ hmem
    · exact List.mem_append_right _ (List.mem_cons_of_mem _ hmem)

end Terminator

section Examples

theorem mem_of_lookup {β : Type} {l : List (ℕ × β)} {k : ℕ} {b : β} (h : l.lookup k = some b) :
    (k, b) ∈ l := by
  obtain ⟨l₁, l₂, rfl, -⟩ := List.lookup_eq_some_iff.1 h
  simp

def ValueMap.ofLists (regs slots stagings : List (ℕ × ℕ)) : ValueMap :=
  ⟨fun v => regs.lookup v, fun v => slots.lookup v, fun v => stagings.lookup v⟩

def phisIn (b : ℕ) (phis : List MirPhi) : ℕ → List MirPhi := fun b' => if b' = b then phis else []

theorem mem_phisIn {b b' : ℕ} {phis : List MirPhi} {phi : MirPhi} :
    phi ∈ phisIn b phis b' ↔ b' = b ∧ phi ∈ phis := by
  unfold phisIn
  split_ifs with h <;> simp [h]

def frameAt (slot : ℕ) : ℕ := 1000 + slot

theorem prepared_ofLists {regs slots stagings : List (ℕ × ℕ)} {b next : ℕ} {phis : List MirPhi}
    (hnodup : phis.Nodup) (hused : ∀ x ∈ regs, x.2 < next)
    (hregs : ∀ phi ∈ phis, ∀ phi' ∈ phis, ∀ x ∈ regs, ∀ x' ∈ regs, x.1 = phi.inst →
      x'.1 = phi'.inst → x.2 = x'.2 → phi = phi')
    (hslots : ∀ phi ∈ phis, ∀ phi' ∈ phis, ∀ x ∈ slots, ∀ x' ∈ slots, x.1 = phi.inst →
      x'.1 = phi'.inst → x.2 = x'.2 → phi = phi')
    (hstagings : ∀ phi ∈ phis, ∀ phi' ∈ phis, ∀ x ∈ stagings, ∀ x' ∈ stagings, x.1 = phi.inst →
      x'.1 = phi'.inst → x.2 = x'.2 → phi = phi')
    (hhidden : ∀ x ∈ stagings, ∀ y ∈ slots, x.2 ≠ y.2) :
    (ValueMap.ofLists regs slots stagings).Prepared frameAt (phisIn b phis) next := by
  refine ⟨fun x y hxy => by unfold frameAt at hxy; omega, ?_, ?_, ?_, ?_, ?_, ?_⟩
  · intro b'
    unfold phisIn
    split_ifs
    · exact hnodup
    · exact List.nodup_nil
  · intro v r hr
    exact hused _ (mem_of_lookup hr)
  · intro b₁ b₂ phi hphi phi' hphi' _ _ r hr hr'
    obtain ⟨h₁, hmem⟩ := mem_phisIn.1 hphi
    obtain ⟨h₂, hmem'⟩ := mem_phisIn.1 hphi'
    exact ⟨h₁.trans h₂.symm, hregs phi hmem phi' hmem' _ (mem_of_lookup hr) _ (mem_of_lookup hr')
      rfl rfl rfl⟩
  · intro b₁ b₂ phi hphi phi' hphi' _ _ h hh hh'
    obtain ⟨h₁, hmem⟩ := mem_phisIn.1 hphi
    obtain ⟨h₂, hmem'⟩ := mem_phisIn.1 hphi'
    exact ⟨h₁.trans h₂.symm, hslots phi hmem phi' hmem' _ (mem_of_lookup hh) _ (mem_of_lookup hh')
      rfl rfl rfl⟩
  · intro b₁ b₂ phi hphi phi' hphi' k hk hk'
    obtain ⟨h₁, hmem⟩ := mem_phisIn.1 hphi
    obtain ⟨h₂, hmem'⟩ := mem_phisIn.1 hphi'
    exact ⟨h₁.trans h₂.symm, hstagings phi hmem phi' hmem' _ (mem_of_lookup hk) _
      (mem_of_lookup hk') rfl rfl rfl⟩
  · intro b' phi hphi k hk v hv
    exact hhidden _ (mem_of_lookup hk) _ (mem_of_lookup hv) rfl

/-- A loop that steps a counter and leaves or repeats by a computed goto. -/
def counterPhis : List MirPhi := [⟨10, false, [(0, 20), (1, 21)]⟩]

def counterValues : ValueMap := .ofLists [(10, 1), (20, 2), (21, 3)] [] []

/-- A loop over an array of `long double`s that keeps the one before. -/
def walkPhis : List MirPhi := [⟨10, false, [(0, 20), (1, 21)]⟩, ⟨11, true, [(0, 22), (1, 23)]⟩]

/-- The element is read in place: its register is that of the pointer. -/
def walkValues : ValueMap :=
  .ofLists [(10, 1), (20, 2), (21, 3), (23, 1)] [(11, 0), (22, 2)] [(11, 1)]

/-- On the way out of the counter's loop, the counter is stepped although the block it goes to reads
it; the kept element is read from the stepped pointer; and a computed goto on the loop's phi goes by
the next value instead of the current one. -/
theorem arrive_counter_walk :
    (∃ t, counterValues.lowerTerminator (phisIn 1 counterPhis) .indirectBr 1 [20] [1, 2] 4 =
        some t ∧
      counterValues.Prepared frameAt (phisIn 1 counterPhis) 4 ∧
      ¬ EdgeCorrect counterValues frameAt 1 (phisIn 1 counterPhis 2) (· = 1) (fun _ => False)
        (⟨fun r => r, fun _ => 0⟩ : EdgeState ℕ ℕ)
        (t.arrive frameAt (fun _ => 2) ⟨fun r => r, fun _ => 0⟩).2) ∧
    (∃ t, walkValues.lowerTerminator (phisIn 1 walkPhis) .br 1 [] [1] 4 = some t ∧
      walkValues.Prepared frameAt (phisIn 1 walkPhis) 4 ∧
      ¬ EdgeCorrect walkValues frameAt 1 (phisIn 1 walkPhis 1) (fun _ => False) (fun _ => False)
        (⟨fun r => r, fun a => a⟩ : EdgeState ℕ ℕ)
        (t.arrive frameAt (fun _ => 1) ⟨fun r => r, fun a => a⟩).2) ∧
    ∃ t, counterValues.lowerTerminator (phisIn 1 counterPhis) .indirectBr 1 [10] [1, 2] 4 =
        some t ∧
      let goesTo : List ℕ → ℕ := fun values => if values = [1] then 2 else 1
      let s : EdgeState ℕ ℕ := ⟨fun r => r, fun _ => 0⟩
      goesTo ([10].filterMap (counterValues.value? frameAt s)) = 2 ∧
        (t.arrive frameAt goesTo s).1 = 1 := by
  refine ⟨⟨_, rfl, prepared_ofLists (by decide) (by decide) (by decide) (by decide) (by decide)
    (by decide), fun h => ?_⟩, ⟨_, rfl, prepared_ofLists (by decide) (by decide) (by decide)
    (by decide) (by decide) (by decide), fun h => ?_⟩, ⟨_, rfl, by decide, by decide⟩⟩
  · exact absurd (h.others 1 rfl (by decide)) (by decide)
  · exact absurd (h.home ⟨11, true, [(0, 22), (1, 23)]⟩ (by decide) rfl 0 rfl 23 rfl 1 rfl)
      (by decide)

def swapPhis : List MirPhi := [⟨10, false, [(0, 20), (1, 11)]⟩, ⟨11, false, [(0, 21), (1, 10)]⟩]

def swapValues : ValueMap := .ofLists [(10, 1), (11, 2), (20, 3), (21, 4)] [] []

/-- A loop that swaps two values, left by a conditional branch on the second one. -/
theorem lowerTerminator_correct_swap : ∃ t,
    swapValues.lowerTerminator (phisIn 1 swapPhis) .condBr 1 [11] [1, 2] 5 = some t ∧
    (t.arrive frameAt (fun values => if values = [2] then 1 else 2)
      ⟨fun r => r, fun _ => 0⟩).1 = 1 ∧
    EdgeCorrect swapValues frameAt 1 (phisIn 1 swapPhis 1) (· < 5) (fun _ => False)
      (⟨fun r => r, fun _ => 0⟩ : EdgeState ℕ ℕ)
      (t.arrive frameAt (fun values => if values = [2] then 1 else 2)
        ⟨fun r => r, fun _ => 0⟩).2 := by
  have hnarrow : ∀ phi ∈ swapPhis, phi.isWideFloat = false := by decide
  refine ⟨_, rfl, lowerTerminator_correct swapValues frameAt (phisIn 1 swapPhis) .condBr 1 5 1 [11]
    [1, 2] _ _ _ _ _ (prepared_ofLists (by decide) (by decide) (by decide) (by decide) (by decide)
      (by decide)) rfl (fun values => ?_) (by decide) (fun r hr => hr) (fun a ha => ha.elim) ?_ ?_
      ?_⟩
  · split_ifs <;> decide
  · intro phi hphi hwide
    rw [hnarrow phi (mem_phisIn.1 hphi).2] at hwide
    cases hwide
  · intro phi hphi hwide
    rw [hnarrow phi (mem_phisIn.1 hphi).2] at hwide
    cases hwide
  · intro howns
    cases howns

end Examples

end DssPrime
