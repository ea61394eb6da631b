import DssPrime.Opt.CopyProp
import DssPrime.Graph.Idom

/-!
# Copy propagation is sound

Both parts go along the entries in the order in which they were made (`Collapses`). The target
dominates, since on the first way into the phi's block some value comes in, and what it leads to is
not the phi. A phi and its target are equal wherever the phi dominates (`Copied`): entering the
phi's block makes them so, and its target is not assigned again before that block is entered again.
-/

namespace DssPrime.CopyProp

/-- A function the verifier passes. -/
structure SsaFunc (m : Mir) (f : ℕ) : Prop where
  func : m.IsFunc f
  verified : Verified m
  covered : ∀ P, m.IsInst P → m.instOpcode P = .phi → ∀ p, m.instBlock P ∈ m.blockSuccessors p →
    ∃ inc ∈ m.phiIncomings P, inc.pred = p
  entry : ∀ i ∈ m.blockInsts (m.funcEntry f), m.instOpcode i ≠ .phi
  types : ∀ P, m.IsInst P → m.instOpcode P = .phi → ∀ inc ∈ m.phiIncomings P,
    m.instType inc.value = m.instType P

def replaced (map : RedirectMap) (v : ℕ) : ℕ := (map.lookup v).getD v

def replaceUses (m : MirData) (map : RedirectMap) : MirData :=
  { m with
    insts := m.insts.map fun i =>
      { i with
        operands := i.operands.map (replaced map)
        incomings := i.incomings.map fun inc => { inc with value := replaced map inc.value } } }

section Ssa

variable {m : Mir} {f : ℕ} (hf : SsaFunc m f)

def DomIn (m : MirData) (f d b : ℕ) : Prop := Graph.Dom m.blockSuccessors (m.funcEntry f) d b

include hf

theorem isBlock_entry : m.IsBlock (m.funcEntry f) ∧ m.blockFunc (m.funcEntry f) = f := by
  obtain ⟨hcount, h0, hle⟩ := (m.funcBuilt hf.func).blocks
  have hb : m.IsBlock (m.funcEntry f) := ⟨h0, by simp only [MirData.blockCount] at *; omega⟩
  refine ⟨hb, (m.funcBuilt hf.func).owner _ (List.mem_map.2 ⟨0, List.mem_range.2 ?_, rfl⟩)⟩
  omega

theorem isBlock_of_reached {b : ℕ} (h : Worklist.Reaches m.blockSuccessors (m.funcEntry f) b) :
    m.IsBlock b ∧ m.blockFunc b = f := by
  obtain ⟨he, hfe⟩ := isBlock_entry hf
  obtain ⟨hb, hbf⟩ := m.isBlock_of_reaches he h
  exact ⟨hb, hbf.trans hfe⟩

theorem phi_spec {P : ℕ} (hP : P ∈ collectPhis m.toMirData f) :
    m.IsInst P ∧ m.instOpcode P = .phi ∧
      Worklist.Reaches m.blockSuccessors (m.funcEntry f) (m.instBlock P) ∧
      m.funcEntry f ≠ m.instBlock P := by
  simp only [collectPhis, List.mem_filter, List.mem_flatMap, decide_eq_true_eq] at hP
  obtain ⟨⟨b, hb, hmem⟩, hop⟩ := hP
  have hreach := hf.verified.reachable f hf.func b hb
  have hblock := (isBlock_of_reached hf hreach).1
  obtain ⟨hinst, rfl⟩ := (m.mem_blockInsts hblock).1 hmem
  refine ⟨hinst, hop, hreach, fun he => hf.entry P ?_ hop⟩
  rw [he]
  exact hmem

theorem dom_incoming {P : ℕ} (hP : m.IsInst P) {inc : MirPhiIncoming}
    (hinc : inc ∈ m.phiIncomings P)
    (hr : Worklist.Reaches m.blockSuccessors (m.funcEntry f) inc.pred) :
    DomIn m.toMirData f (m.instBlock inc.value) inc.pred := by
  have hdom := (hf.verified.phis P hP inc hinc).2
  rw [MirData.DomBlock, (isBlock_of_reached hf hr).2] at hdom
  exact hdom

theorem dom_operand {i o : ℕ} (hi : m.IsInst i) (hop : m.instOpcode i ≠ .phi)
    (ho : o ∈ m.instOperands i)
    (hr : Worklist.Reaches m.blockSuccessors (m.funcEntry f) (m.instBlock i)) :
    DomIn m.toMirData f (m.instBlock o) (m.instBlock i) := by
  have hdef := hf.verified.operands i hi hop o ho
  rw [MirData.DefBeforeUse] at hdef
  split_ifs at hdef with hsame
  · rw [hsame]
    exact Graph.Dom.refl _
  · have hdom := hdef.1
    rw [MirData.DomBlock, (isBlock_of_reached hf hr).2] at hdom
    exact hdom

end Ssa

section Arrival

variable {next : ℕ → List ℕ} {entry b d x : ℕ}

theorem first_arrival (hne : entry ≠ b) (h : Graph.Avoids next entry d x) :
    (∃ p, b ∈ next p ∧ Graph.Avoids next entry d p ∧ Graph.Avoids next entry b p) ∨
      Graph.Avoids next entry b x := by
  induction h with
  | entry _ => exact .inr (.entry hne)
  | @step u v hu hv _ ih =>
    rcases ih with ih | ih
    · exact .inl ih
    · by_cases hvb : v = b
      · exact .inl ⟨u, hvb ▸ hv, hu, ih⟩
      · exact .inr (.step ih hv hvb)

theorem first_arrival_of_reaches (hne : entry ≠ b) (h : Worklist.Reaches next entry x) :
    (∃ p, b ∈ next p ∧ Graph.Avoids next entry b p) ∨ Graph.Avoids next entry b x := by
  induction h with
  | refl => exact .inr (.entry hne)
  | @tail u v _ hv ih =>
    rcases ih with ih | ih
    · exact .inl ih
    · by_cases hvb : v = b
      · exact .inl ⟨u, hvb ▸ hv, ih⟩
      · exact .inr (.step ih hv hvb)

/-- If over every edge into a block what comes in is below `d` or below the block itself, then `d`
strictly dominates the block. -/
theorem dom_of_arrivals (hne : entry ≠ b) (hb : Worklist.Reaches next entry b)
    (h : ∀ p, b ∈ next p → Worklist.Reaches next entry p →
      Graph.Dom next entry d p ∨ Graph.Dom next entry b p) :
    Graph.Dom next entry d b ∧ d ≠ b := by
  constructor
  · intro hav
    rcases first_arrival hne hav with ⟨p, hp, hd, hpb⟩ | hpb
    · exact (h p hp hd.reaches).elim (fun hdom => hdom hd) fun hdom => hdom hpb
    · exact hpb.ne rfl
  · rintro rfl
    rcases first_arrival_of_reaches hne hb with ⟨p, hp, hpb⟩ | hpb
    · exact (h p hp hpb.reaches).elim (fun hdom => hdom hpb) fun hdom => hdom hpb
    · exact hpb.ne rfl

end Arrival

section Sound

variable {m : Mir} {f : ℕ} {map : RedirectMap} {P t v r : ℕ}

def Upwards (m : Mir) (f : ℕ) (map : RedirectMap) : Prop :=
  ∀ u t, map.lookup u = some t → DomIn m.toMirData f (m.instBlock t) (m.instBlock u) ∧
    m.instBlock t ≠ m.instBlock u

theorem Upwards.leads (hup : Upwards m f map) (h : map.Leads v r) {p : ℕ}
    (hv : DomIn m.toMirData f (m.instBlock v) p) : DomIn m.toMirData f (m.instBlock r) p := by
  refine h.rec' (Q := fun v => DomIn m.toMirData f (m.instBlock v) p →
    DomIn m.toMirData f (m.instBlock r) p) id (fun x y hx _ ih hdom => ?_) hv
  exact ih ((hup x y hx).1.trans hdom)

theorem lookup_snoc_cases {u s : ℕ} (h : (map ++ [(P, t)]).lookup u = some s) :
    map.lookup u = some s ∨ u = P ∧ s = t := by
  rw [lookup_snoc] at h
  cases hu : map.lookup u with
  | some w =>
    rw [hu] at h
    exact .inl h
  | none =>
    rw [hu] at h
    split_ifs at h with hP
    · exact .inr ⟨hP, (Option.some.inj h).symm⟩
    · cases h

/-- **Targets strictly dominate what they replace.** -/
theorem Collapses.upwards (hf : SsaFunc m f)
    (h : Collapses m.toMirData (collectPhis m.toMirData f) map) : Upwards m f map := by
  induction h with
  | nil => exact fun u t hu => by cases hu
  | @snoc map P t hmap hP _ _ _ hall _ ih =>
    intro u s hu
    rcases lookup_snoc_cases hu with hu | ⟨rfl, rfl⟩
    · exact ih u s hu
    · obtain ⟨hinst, hop, hreach, hne⟩ := phi_spec hf hP
      refine dom_of_arrivals hne hreach fun p hp hpr => ?_
      obtain ⟨inc, hinc, rfl⟩ := hf.covered u hinst hop p hp
      obtain ⟨r, hr, hru⟩ := hall inc hinc
      have hdom := ih.leads hr (dom_incoming hf hinst hinc hpr)
      rcases hru with rfl | rfl
      · exact .inr hdom
      · exact .inl hdom

theorem Collapses.justified (h : Collapses m.toMirData (collectPhis m.toMirData f) map)
    (hP : map.lookup P = some t) :
    P ∈ collectPhis m.toMirData f ∧ (∃ inc ∈ m.phiIncomings P, ∃ pre : RedirectMap,
      (∀ x y, pre.lookup x = some y → map.lookup x = some y) ∧ pre.Leads inc.value t) ∧
    ∀ inc ∈ m.phiIncomings P, ∃ pre : RedirectMap,
      (∀ x y, pre.lookup x = some y → map.lookup x = some y) ∧
      ∃ r, pre.Leads inc.value r ∧ (r = P ∨ r = t) := by
  induction h with
  | nil => cases hP
  | @snoc map Q s hmap hQ hQn hs _ hall hex ih =>
    have hsub : ∀ x y, map.lookup x = some y → (map ++ [(Q, s)]).lookup x = some y := by
      intro x y hx
      rw [lookup_snoc, hx]
      rfl
    rcases lookup_snoc_cases hP with hP | ⟨rfl, rfl⟩
    · obtain ⟨h1, ⟨inc, hinc, pre, hpre, hl⟩, h3⟩ := ih hP
      refine ⟨h1, ⟨inc, hinc, pre, fun x y hx => hsub x y (hpre x y hx), hl⟩, fun i hi => ?_⟩
      obtain ⟨pre, hpre, hl⟩ := h3 i hi
      exact ⟨pre, fun x y hx => hsub x y (hpre x y hx), hl⟩
    · obtain ⟨inc, hinc, hl⟩ := hex
      exact ⟨hQ, ⟨inc, hinc, map, hsub, hl⟩, fun i hi => ⟨map, hsub, hall i hi⟩⟩

variable {M : Machine} {label : ℕ → Option ℕ} {s s' : State M}

def Copied (m : Mir) (f : ℕ) (map : RedirectMap) (s : State M) : Prop :=
  ∀ u t, map.lookup u = some t → DomIn m.toMirData f (m.instBlock u) s.block →
    s.env u = s.env t

theorem Copied.leads {pre : RedirectMap} (hs : Copied m f map s) (hup : Upwards m f map)
    (hpre : ∀ x y, pre.lookup x = some y → map.lookup x = some y) (h : pre.Leads v r)
    (hv : DomIn m.toMirData f (m.instBlock v) s.block) :
    s.env v = s.env r ∧ DomIn m.toMirData f (m.instBlock r) s.block := by
  refine h.rec' (Q := fun v => DomIn m.toMirData f (m.instBlock v) s.block →
    s.env v = s.env r ∧ DomIn m.toMirData f (m.instBlock r) s.block)
    (fun hr => ⟨rfl, hr⟩) (fun x y hx _ ih hdom => ?_) hv
  obtain ⟨heq, hr⟩ := ih ((hup x y (hpre x y hx)).1.trans hdom)
  exact ⟨(hs x y (hpre x y hx) hdom).trans heq, hr⟩

theorem Upwards.ne_block (hup : Upwards m f map) (hP : map.lookup P = some t) {b : ℕ}
    (hb : Worklist.Reaches m.blockSuccessors (m.funcEntry f) b)
    (hdom : DomIn m.toMirData f (m.instBlock P) b) : m.instBlock t ≠ b := by
  rintro rfl
  obtain ⟨hd, hne⟩ := hup P t hP
  exact hne (hd.antisymm hdom (hdom.reaches hb))

theorem Copied.assign (hs : Copied m f map s) (hup : Upwards m f map)
    (hphis : ∀ u t, map.lookup u = some t → m.instOpcode u = .phi)
    (hb : Worklist.Reaches m.blockSuccessors (m.funcEntry f) s.block) {i : ℕ}
    (hi : m.instBlock i = s.block) (hop : m.instOpcode i ≠ .phi) (v : Option M.Val)
    (w : M.World) : Copied m f map (s.assign i v w) := by
  intro u t hu hdom
  have hui : u ≠ i := by
    rintro rfl
    exact hop (hphis u t hu)
  have hti : t ≠ i := by
    rintro rfl
    exact hup.ne_block hu hb hdom hi
  rw [State.assign_env, State.assign_env, if_neg hui, if_neg hti]
  exact hs u t hu hdom

theorem Copied.enter (hf : SsaFunc m f) (hs : Copied m f map s)
    (hc : Collapses m.toMirData (collectPhis m.toMirData f) map)
    (hb : Worklist.Reaches m.blockSuccessors (m.funcEntry f) s.block) {b : ℕ}
    (hsucc : b ∈ m.blockSuccessors s.block) (w : M.World) :
    Copied m f map (⟨enterBlock m.toMirData s.env s.block b, b, 0, w⟩ : State M) := by
  have hup := hc.upwards hf
  have hb' : Worklist.Reaches m.blockSuccessors (m.funcEntry f) b := hb.tail hsucc
  have hblock := (isBlock_of_reached hf hb').1
  intro u t hu hdom
  obtain ⟨hphis, -, hall⟩ := hc.justified hu
  obtain ⟨hinst, hop, -, -⟩ := phi_spec hf hphis
  have ht : ¬IsPhiOf m.toMirData b t := fun ht =>
    hup.ne_block hu hb' hdom ((m.mem_blockInsts hblock).1 ht.1).2
  simp only [enterBlock]
  rw [if_neg ht]
  by_cases hub : m.instBlock u = b
  · -- the phi takes what comes in over the edge
    have hphi : IsPhiOf m.toMirData b u := ⟨(m.mem_blockInsts hblock).2 ⟨hinst, hub⟩, hop⟩
    rw [if_pos hphi, phiValue]
    obtain ⟨c, hc', hcp⟩ := hf.covered u hinst hop s.block (hub ▸ hsucc)
    cases hfind : (m.phiIncomings u).find? fun inc => inc.pred = s.block with
    | none => exact absurd hcp (by simpa using List.find?_eq_none.1 hfind c hc')
    | some inc =>
      have hinc := List.mem_of_find?_eq_some hfind
      have hpred : inc.pred = s.block := by simpa using List.find?_some hfind
      obtain ⟨pre, hpre, r, hr, hru⟩ := hall inc hinc
      have hv : DomIn m.toMirData f (m.instBlock inc.value) s.block := by
        rw [← hpred]
        exact dom_incoming hf hinst hinc (hpred ▸ hb)
      obtain ⟨heq, hrd⟩ := hs.leads hup hpre hr hv
      rw [Option.bind_some, heq]
      rcases hru with rfl | rfl
      · exact hs r t hu hrd
      · rfl
  · have hphi : ¬IsPhiOf m.toMirData b u := fun h =>
      hub ((m.mem_blockInsts hblock).1 h.1).2
    rw [if_neg hphi]
    exact hs u t hu (hdom.pred hub hsucc)

theorem Copied.step (hf : SsaFunc m f) (hs : Copied m f map s)
    (hc : Collapses m.toMirData (collectPhis m.toMirData f) map)
    (hb : Worklist.Reaches m.blockSuccessors (m.funcEntry f) s.block)
    (h : DssPrime.step m.toMirData label s = .running s') :
    Copied m f map s' ∧ Worklist.Reaches m.blockSuccessors (m.funcEntry f) s'.block := by
  have hup := hc.upwards hf
  have hphis : ∀ u t, map.lookup u = some t → m.instOpcode u = .phi := fun u t hu =>
    (phi_spec hf (hc.justified hu).1).2.1
  obtain ⟨i, rfl, hidx, hcase⟩ := step_cases h
  have hblock := (isBlock_of_reached hf hb).1
  have hi : m.instBlock (m.blockInstAt s.block s.idx) = s.block :=
    ((m.mem_blockInsts hblock).1 (List.mem_map.2 ⟨_, List.mem_range.2 hidx, rfl⟩)).2
  rcases hcase with ⟨-, rfl⟩ | ⟨hop, l, -, rfl⟩ | ⟨vs, v, w, hop, -, -, -, -, -, rfl⟩ |
    ⟨vs, -, -, hterm⟩
  · exact ⟨hs, hb⟩
  · exact ⟨hs.assign hup hphis hb hi (by rw [hop]; decide) _ _, hb⟩
  · exact ⟨hs.assign hup hphis hb hi hop _ _, hb⟩
  · obtain ⟨b, hsucc, w, rfl, -⟩ := terminate_eq_running hterm
    exact ⟨hs.enter hf hc hb hsucc w, hb.tail hsucc⟩

theorem copied_of_reachable (hf : SsaFunc m f)
    (hc : Collapses m.toMirData (collectPhis m.toMirData f) map) {w : M.World}
    (h : Reachable m.toMirData label f w s) :
    Copied m f map s ∧ Worklist.Reaches m.blockSuccessors (m.funcEntry f) s.block := by
  induction h with
  | refl =>
    refine ⟨fun u t hu hdom => ?_, .refl⟩
    have hne := (phi_spec hf (hc.justified hu).1).2.2.2
    exact absurd (Graph.Avoids.entry hne) hdom
  | tail _ hstep ih => exact ih.1.step hf hc ih.2 hstep

end Sound

section Replace

variable {m : MirData} {map : RedirectMap} {M : Machine} {label : ℕ → Option ℕ} {s : State M}

theorem inst_replaceUses (i : ℕ) : (replaceUses m map).inst i =
    { m.inst i with
      operands := (m.inst i).operands.map (replaced map)
      incomings := (m.inst i).incomings.map fun inc =>
        { inc with value := replaced map inc.value } } := by
  simp only [MirData.inst, replaceUses, List.getD_eq_getElem?_getD, List.getElem?_map]
  cases m.insts[i]? <;> rfl

theorem instOpcode_replaceUses (i : ℕ) : (replaceUses m map).instOpcode i = m.instOpcode i := by
  rw [MirData.instOpcode, inst_replaceUses]
  rfl

theorem instOperands_replaceUses (i : ℕ) :
    (replaceUses m map).instOperands i = (m.instOperands i).map (replaced map) := by
  rw [MirData.instOperands, inst_replaceUses]
  rfl

theorem phiIncomings_replaceUses (i : ℕ) : (replaceUses m map).phiIncomings i =
    (m.phiIncomings i).map fun inc => { inc with value := replaced map inc.value } := by
  rw [MirData.phiIncomings, inst_replaceUses]
  rfl

theorem operation_replaceUses {i : ℕ}
    (h : ∀ o ∈ m.instOperands i, m.instType (replaced map o) = m.instType o) :
    (replaceUses m map).operation i = m.operation i := by
  have htype : ∀ j, (replaceUses m map).instType j = m.instType j := fun j => by
    rw [MirData.instType, inst_replaceUses]
    rfl
  have htypes : ((replaceUses m map).instOperands i).map (replaceUses m map).instType =
      (m.instOperands i).map m.instType := by
    rw [instOperands_replaceUses, List.map_map]
    exact List.map_congr_left fun o ho => (htype _).trans (h o ho)
  simp only [MirData.operation, htypes, instOpcode_replaceUses, MirData.instFlags,
    MirData.instPayload, MirData.instType, inst_replaceUses]
  rfl

theorem phiValue_replaceUses {env : Env M} {pred i : ℕ}
    (h : ∀ inc ∈ m.phiIncomings i, inc.pred = pred → env (replaced map inc.value) = env inc.value) :
    phiValue (replaceUses m map) env pred i = phiValue m env pred i := by
  rw [phiValue, phiValue, phiIncomings_replaceUses, List.find?_map]
  simp only [Function.comp_def]
  cases hfind : (m.phiIncomings i).find? fun inc => inc.pred = pred with
  | none => rfl
  | some inc =>
    exact h inc (List.mem_of_find?_eq_some hfind) (by simpa using List.find?_some hfind)

theorem mapM_congr {α β : Type} {os : List α} {g h : α → Option β} (hgh : ∀ o ∈ os, g o = h o) :
    os.mapM g = os.mapM h := by
  induction os with
  | nil => rfl
  | cons o os ih =>
    rw [List.mapM_cons, List.mapM_cons, hgh o List.mem_cons_self,
      ih fun x hx => hgh x (List.mem_cons_of_mem _ hx)]

theorem step_replaceUses
    (hops : ∀ i ∈ m.blockInsts s.block, m.instOpcode i ≠ .phi → ∀ o ∈ m.instOperands i,
      s.env (replaced map o) = s.env o ∧ m.instType (replaced map o) = m.instType o)
    (hphis : ∀ b ∈ m.blockSuccessors s.block, ∀ i, IsPhiOf m b i → ∀ inc ∈ m.phiIncomings i,
      inc.pred = s.block → s.env (replaced map inc.value) = s.env inc.value) :
    step (replaceUses m map) label s = step m label s := by
  have hgoto : ∀ w k, goto (replaceUses m map) s w k = goto m s w k := by
    intro w k
    have hsucc : (replaceUses m map).blockSuccessors s.block = m.blockSuccessors s.block := rfl
    rw [goto, goto, hsucc]
    cases hb : (m.blockSuccessors s.block)[k]? with
    | none => rfl
    | some b =>
      have henter : enterBlock (replaceUses m map) s.env s.block b =
          enterBlock m s.env s.block b := by
        funext i
        have hphi : IsPhiOf (replaceUses m map) b i ↔ IsPhiOf m b i := by
          rw [IsPhiOf, IsPhiOf, instOpcode_replaceUses]
          rfl
        simp only [enterBlock, hphi]
        split_ifs with hi
        · exact phiValue_replaceUses (hphis b (List.mem_of_getElem? hb) i hi)
        · rfl
      simp only [henter]
  have hinst : ∀ i ∈ m.blockInsts s.block,
      stepInst (replaceUses m map) label s i = stepInst m label s i := by
    intro i hi
    have hold : IsOldSlot (replaceUses m map) s.env i ↔ IsOldSlot m s.env i := by
      rw [IsOldSlot, IsOldSlot, instOpcode_replaceUses, instOperands_replaceUses,
        List.map_eq_nil_iff]
    have hpay : (replaceUses m map).blockAddressTarget i = m.blockAddressTarget i := by
      rw [MirData.blockAddressTarget, inst_replaceUses]
      rfl
    simp only [stepInst, instOpcode_replaceUses, hold, hpay]
    by_cases hphi : m.instOpcode i = .phi
    · simp only [hphi, true_or, if_true]
    · have hvals : operandValues (replaceUses m map) s.env i = operandValues m s.env i := by
        rw [operandValues, operandValues, instOperands_replaceUses, List.mapM_map]
        exact mapM_congr fun o ho => (hops i hi hphi o ho).1
      have hoper : (replaceUses m map).operation i = m.operation i :=
        operation_replaceUses fun o ho => (hops i hi hphi o ho).2
      have hterm : ∀ vs, terminate (replaceUses m map) label s i vs = terminate m label s i vs := by
        intro vs
        simp only [terminate, instOpcode_replaceUses, hgoto, hoper]
        rfl
      simp only [hvals, hoper, hterm]
  have hstep : ∀ m' : MirData, step m' label s = if s.idx < m'.blockInstCount s.block then
      stepInst m' label s (m'.blockInstAt s.block s.idx) else .stuck := fun _ => rfl
  rw [hstep, hstep]
  change (if s.idx < m.blockInstCount s.block then
      stepInst (replaceUses m map) label s (m.blockInstAt s.block s.idx) else .stuck) = _
  split_ifs with hidx
  · exact hinst _ (List.mem_map.2 ⟨_, List.mem_range.2 hidx, rfl⟩)
  · rfl

end Replace

section Main

variable {m : Mir} {f : ℕ} {map : RedirectMap} {v r : ℕ}

theorem type_leads (hf : SsaFunc m f)
    (hc : Collapses m.toMirData (collectPhis m.toMirData f) map) (h : map.Leads v r) :
    m.instType r = m.instType v := by
  induction hc generalizing v r with
  | nil =>
    obtain ⟨l, h⟩ := h
    cases h with
    | stop _ => rfl
    | step hv _ => cases hv
  | @snoc map P t hmap hP hPn ht hne hall hex ih =>
    refine h.rec' (Q := fun v => m.instType r = m.instType v) rfl fun x y hx _ hy => ?_
    rcases lookup_snoc_cases hx with hx | ⟨rfl, rfl⟩
    · obtain ⟨s, hs⟩ := hmap.acyclic y
      exact hy.trans ((ih hs).symm.trans (ih (hs.step hx)))
    · obtain ⟨hinst, hop, -, -⟩ := phi_spec hf hP
      obtain ⟨inc, hinc, hl⟩ := hex
      exact hy.trans ((ih hl).trans (hf.types x hinst hop inc hinc))

/-- **Copy propagation is sound.** The analysis of a function ends without an abort, and no target
of its map is redirected itself. -/
theorem copyProp_sound (m : Mir) (f : ℕ) :
    ∃ out, analyze m.toMirData f = .ok (some out) ∧
      (∀ x t, out.lookup x = some t → out.lookup t = none) ∧
      (SsaFunc m f →
        (∀ x t, out.lookup x = some t → m.instOpcode x = .phi ∧
          DomIn m.toMirData f (m.instBlock t) (m.instBlock x) ∧ m.instBlock t ≠ m.instBlock x) ∧
        ∀ (M : Machine) (label : ℕ → Option ℕ) (w : M.World) (s : State M),
          (Reachable m.toMirData label f w s →
            step (replaceUses m.toMirData out) label s = step m.toMirData label s) ∧
          (Reachable (replaceUses m.toMirData out) label f w s ↔
            Reachable m.toMirData label f w s)) := by
  obtain ⟨collapsed, out, hout, hc, hkeys, hleads⟩ := analyze_spec m.toMirData f
  refine ⟨out, hout, fun x t hx => (hkeys t).mpr (hleads x t hx).last, fun hf => ?_⟩
  have hup := hc.upwards hf
  have hreplaced : ∀ v, collapsed.Leads v (replaced out v) := by
    intro v
    rw [replaced]
    cases hv : out.lookup v with
    | none => exact RedirectMap.Leads.stop ((hkeys v).mp hv)
    | some t => exact hleads v t hv
  have hsame : ∀ (M : Machine) (label : ℕ → Option ℕ) (w : M.World) (s : State M),
      Reachable m.toMirData label f w s →
        step (replaceUses m.toMirData out) label s = step m.toMirData label s := by
    intro M label w s hs
    obtain ⟨hcop, hb⟩ := copied_of_reachable hf hc hs
    have hblock := (isBlock_of_reached hf hb).1
    have henv : ∀ v, DomIn m.toMirData f (m.instBlock v) s.block →
        s.env (replaced out v) = s.env v := fun v hv =>
      (hcop.leads hup (fun _ _ => id) (hreplaced v) hv).1.symm
    refine step_replaceUses (fun i hi hop o ho => ⟨henv o ?_, type_leads hf hc (hreplaced o)⟩)
      fun b hb' i hphi inc hinc hpred => henv _ ?_
    · obtain ⟨hinst, hib⟩ := (m.mem_blockInsts hblock).1 hi
      rw [← hib]
      exact dom_operand hf hinst hop ho (hib ▸ hb)
    · have hb'' := (isBlock_of_reached hf (hb.tail hb')).1
      have hinst := ((m.mem_blockInsts hb'').1 hphi.1).1
      rw [← hpred]
      exact dom_incoming hf hinst hinc (hpred ▸ hb)
  refine ⟨fun x t hx => ?_, fun M label w s => ⟨hsame M label w s, fun h => ?_, fun h => ?_⟩⟩
  · obtain ⟨l, hl⟩ := hleads x t hx
    cases hl with
    | stop hn => cases ((hkeys x).mpr hn).symm.trans hx
    | @step _ u _ _ hu hl =>
      obtain ⟨hd, hne⟩ := hup x u hu
      obtain ⟨-, hop, hreach, -⟩ := phi_spec hf (hc.justified hu).1
      refine ⟨hop, hup.leads ⟨_, hl⟩ hd, fun heq => hne ?_⟩
      have hback : DomIn m.toMirData f (m.instBlock t) (m.instBlock u) :=
        hup.leads ⟨_, hl⟩ (Graph.Dom.refl _)
      exact hd.antisymm (heq ▸ hback) hreach
  · induction h with
    | refl => exact .refl
    | tail _ hstep ih => exact ih.tail ((hsame M label w _ ih).symm.trans hstep)
  · induction h with
    | refl => exact .refl
    | tail hs hstep ih => exact ih.tail ((hsame M label w _ hs).trans hstep)

def onePhiData : MirData where
  insts := [default, ⟨.arg, default, 1, [], [], 0, 0⟩, ⟨.br, default, 0, [], [], 0, 0⟩,
    ⟨.phi, default, 1, [], [⟨1, 1⟩], 0, 0⟩, ⟨.ret, default, 0, [3], [], 0, 0⟩]
  instBlocks := [0, 1, 1, 2, 2]
  blocks := [default, ⟨1, 2, [2], 1⟩, ⟨3, 2, [], 1⟩]
  funcs := [default, ⟨0, 1, 2, 7, .global, .default, false, false, false, false⟩]
  globals := [default]
  literals := []
  aliasingMode := .permissive
  charTypesAliasAll := true

def onePhi : Mir := ⟨onePhiData, by decide⟩

theorem ssaFunc_onePhi : SsaFunc onePhi 1 where
  func := by decide
  verified :=
    { reachable := by
        intro f hf b hb
        obtain rfl : f = 1 := by
          have hlt : f < 2 := hf.2
          have h0 := hf.1
          omega
        have hb : b ∈ [1, 2] := hb
        rcases List.mem_pair.1 hb with rfl | rfl
        · exact .refl
        · exact .single (by decide : 2 ∈ onePhi.blockSuccessors 1)
      operands := by
        intro u hu _ o ho
        have hlt : u < 5 := hu.2
        interval_cases u
        case «4» =>
          obtain rfl := List.mem_singleton.1 ho
          exact (by decide : 3 < 4)
        all_goals cases ho
      phis := by
        intro u hu inc hinc
        have hlt : u < 5 := hu.2
        interval_cases u
        case «3» =>
          obtain rfl := List.mem_singleton.1 hinc
          exact ⟨by decide, Graph.Dom.refl 1⟩
        all_goals cases hinc }
  covered := by
    intro P hP hop p hp
    have hlt : P < 5 := hP.2
    interval_cases P
    case «3» =>
      obtain rfl : p = 1 := by
        rcases p with _ | _ | _ | p
        · cases hp
        · rfl
        · cases hp
        · cases hp
      exact ⟨⟨1, 1⟩, List.mem_singleton.2 rfl, rfl⟩
    all_goals exact absurd hop (by decide)
  entry := by decide
  types := by
    intro P hP hop inc hinc
    have hlt : P < 5 := hP.2
    interval_cases P
    case «3» =>
      obtain rfl := List.mem_singleton.1 hinc
      rfl
    all_goals exact absurd hop (by decide)

theorem copyProp_sound_onePhi : analyze onePhiData 1 = .ok (some [(3, 1)]) ∧
    DomIn onePhiData 1 1 2 := by
  obtain ⟨out, hout, -, hsound⟩ := copyProp_sound onePhi 1
  have hone : analyze onePhiData 1 = .ok (some [(3, 1)]) := by rfl
  obtain rfl : out = [(3, 1)] := Option.some.inj (Except.ok.inj (hout.symm.trans hone))
  exact ⟨hone, ((hsound ssaFunc_onePhi).1 3 1 rfl).2.1⟩

end Main

end DssPrime.CopyProp
