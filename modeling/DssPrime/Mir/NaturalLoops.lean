import DssPrime.Mir.DomTreeExact

/-!
# Natural loops

A back edge is an edge whose target dominates its source; the loop of a header is grown from the
sources of the back edges to it, backwards over the predecessor map and not past the header. The
model of `naturalLoopsCore` with the sweep that chooses the sources, `mirBackEdgeCandidates`.

The predecessor map does not know what the entry reaches, so blocks it does not reach are in the
body when they lead into the loop.
-/

namespace DssPrime

open DssPrime.Graph

inductive MirLoopAbort where
  | candidateRange
  | candidateOrder
  | noBlocks
  | notContiguous
  | headerMissing
  | gaveUpInBody
  | outOfFuel

/-- A loop with its back edges. -/
structure MirNaturalLoop where
  header : ℕ
  body : List ℕ
  backEdgeSources : List ℕ

def MirDomTree.GaveUp (t : MirDomTree) (s : ℕ) : Prop := s < t.size ∧ t.gaveUp s = true

instance (t : MirDomTree) (s : ℕ) : Decidable (t.GaveUp s) := inferInstanceAs (Decidable (_ ∧ _))

def backHeaders (m : MirData) (t : MirDomTree) (i : ℕ) : List ℕ :=
  if t.GaveUp i then []
  else (m.blockSuccessors i).filter fun s =>
    ¬ (s = 0 ∨ s ≥ m.blockCount) ∧ mirDominatesBlock s i t = .dominates

def addBackEdges (m : MirData) (t : MirDomTree) (byHeader : ℕ → List ℕ) (i : ℕ) : ℕ → List ℕ :=
  (backHeaders m t i).foldl (fun by' s => Function.update by' s (by' s ++ [i])) byHeader

/-- The blocks the flood goes to from `n`: its predecessors, but not past the header. -/
def loopPreds (t : MirDomTree) (preds : List (List ℕ)) (header n : ℕ) : List ℕ :=
  if n = header then []
  else if n ≥ preds.length then []
  else (preds.getD n []).filter fun p => ¬ t.GaveUp p

def loopBody (fuel : ℕ) (t : MirDomTree) (preds : List (List ℕ)) (header : ℕ)
    (backSources : List ℕ) : Except MirLoopAbort (List ℕ) :=
  match Worklist.run (loopPreds t preds header) fuel backSources.reverse
      (backSources.foldl (fun inBody b => inBody.insert b) [header]) with
  | none => .error .outOfFuel
  | some inBody =>
    if header ∉ inBody then .error .headerMissing
    else if ∃ slot ∈ inBody, t.GaveUp slot then .error .gaveUpInBody
    else .ok (inBody.mergeSort (· ≤ ·))

/-- The loops with a back edge from one of the candidates.  The map from headers to sources is
walked in any order and the loops are sorted by header, so it is walked in that order here. -/
def naturalLoopsCore (fuel : ℕ) (m : MirData) (t : MirDomTree) (preds : List (List ℕ))
    (candidates : List ℕ) : Except MirLoopAbort (List MirNaturalLoop) :=
  let byHeader := candidates.foldl (addBackEdges m t) fun _ => []
  ((List.range m.blockCount).filter fun h => byHeader h ≠ []).mapM fun h => do
    let body ← loopBody fuel t preds h (byHeader h)
    return ⟨h, body, byHeader h⟩

/-- The candidates are blocks of the module in strictly ascending order. -/
def checkCandidates (bc : ℕ) : Option ℕ → List ℕ → Except MirLoopAbort Unit
  | _, [] => .ok ()
  | last, s :: rest =>
    if s < 1 ∨ s ≥ bc then .error .candidateRange
    else if ∃ l ∈ last, s ≤ l then .error .candidateOrder
    else checkCandidates bc (some s) rest

def mirNaturalLoops (fuel : ℕ) (m : MirData) (t : MirDomTree) (preds : List (List ℕ))
    (candidates : List ℕ) : Except MirLoopAbort (List MirNaturalLoop) := do
  checkCandidates m.blockCount none candidates
  naturalLoopsCore fuel m t preds candidates

/-- The blocks that may have a back edge of function `f`: its own, and those its order lists
besides. -/
def mirBackEdgeCandidates (m : MirData) (f : ℕ) (rpo : List ℕ) : Except MirLoopAbort (List ℕ) :=
  let bc := m.blockCount
  let nb := m.funcBlockCount f
  if nb = 0 then .error .noBlocks
  else
    let first := m.funcBlockAt f 0
    if m.funcBlockAt f (nb - 1) ≠ first + nb - 1 then .error .notContiguous
    else
      let lastEx := first + nb
      let start := if first < 1 then 1 else first
      let out := (List.range' start (lastEx - start)).filter (· < bc)
      let outside := rpo.filter fun s =>
        ¬ (s < 1 ∨ s ≥ bc) ∧ ¬ (s ≥ first ∧ s < lastEx)
      if outside = [] then .ok out else .ok (unique ((out ++ outside).mergeSort (· ≤ ·)))

theorem mem_foldl_addBackEdges {m : MirData} {t : MirDomTree} (cs : List ℕ)
    (byHeader : ℕ → List ℕ) (h i : ℕ) :
    i ∈ cs.foldl (addBackEdges m t) byHeader h ↔
      i ∈ byHeader h ∨ i ∈ cs ∧ h ∈ backHeaders m t i := by
  have inner : ∀ (hs : List ℕ) (c : ℕ) (byHeader : ℕ → List ℕ),
      i ∈ hs.foldl (fun by' s => Function.update by' s (by' s ++ [c])) byHeader h ↔
        i ∈ byHeader h ∨ i = c ∧ h ∈ hs := by
    intro hs c
    induction hs with
    | nil => simp
    | cons s hs ih =>
      intro byHeader
      rw [List.foldl_cons, ih, List.mem_cons]
      by_cases hs : h = s
      · subst hs
        simp only [Function.update_self, List.mem_append, List.mem_singleton]
        tauto
      · simp only [Function.update_of_ne hs, hs, false_or]
  induction cs generalizing byHeader with
  | nil => simp
  | cons c cs ih =>
    rw [List.foldl_cons]
    refine (ih _).trans ?_
    rw [addBackEdges, inner, List.mem_cons, or_assoc, or_and_right]
    refine or_congr_right (or_congr_left (and_congr_right ?_))
    rintro rfl
    exact Iff.rfl

theorem length_foldl_addBackEdges {m : MirData} {t : MirDomTree} (cs : List ℕ)
    (byHeader : ℕ → List ℕ) (h : ℕ) :
    (cs.foldl (addBackEdges m t) byHeader h).length ≤
      (byHeader h).length + (cs.map fun c => (m.blockSuccessors c).length).sum := by
  have inner : ∀ (hs : List ℕ) (c : ℕ) (byHeader : ℕ → List ℕ),
      (hs.foldl (fun by' s => Function.update by' s (by' s ++ [c])) byHeader h).length ≤
        (byHeader h).length + hs.length := by
    intro hs c
    induction hs with
    | nil => simp
    | cons s hs ih =>
      intro byHeader
      rw [List.foldl_cons, List.length_cons]
      refine (ih _).trans ?_
      by_cases hs : h = s
      · subst hs
        simp only [Function.update_self, List.length_append, List.length_singleton]
        omega
      · simp only [Function.update_of_ne hs]
        omega
  induction cs generalizing byHeader with
  | nil => simp
  | cons c cs ih =>
    have hlen : (backHeaders m t c).length ≤ (m.blockSuccessors c).length := by
      rw [backHeaders]
      split_ifs
      · exact Nat.zero_le _
      · exact List.length_filter_le ..
    rw [List.foldl_cons, List.map_cons, List.sum_cons]
    refine (ih _).trans ?_
    have := inner (backHeaders m t c) c byHeader
    rw [← addBackEdges] at this
    omega

def ReachesAvoiding (next : ℕ → List ℕ) (h x b : ℕ) : Prop :=
  x ≠ h ∧ Relation.ReflTransGen (fun u v => v ∈ next u ∧ v ≠ h) x b

theorem ReachesAvoiding.ne {next : ℕ → List ℕ} {h x b : ℕ} (hx : ReachesAvoiding next h x b) :
    b ≠ h := by
  rcases Relation.ReflTransGen.cases_tail hx.2 with rfl | ⟨u, -, hu⟩
  · exact hx.1
  · exact hu.2

theorem ReachesAvoiding.dom {next : ℕ → List ℕ} {entry h x b : ℕ}
    (hx : ReachesAvoiding next h x b) (hb : Dom next entry h b) : Dom next entry h x := by
  intro hav
  refine hb ?_
  have hpath := hx.2
  clear hx hb
  induction hpath with
  | refl => exact hav
  | tail _ huv ih => exact .step ih huv.1 huv.2

theorem mem_foldl_insert (bs : List ℕ) (l : List ℕ) (x : ℕ) :
    x ∈ bs.foldl (fun inBody b => inBody.insert b) l ↔ x ∈ l ∨ x ∈ bs := by
  induction bs generalizing l with
  | nil => simp
  | cons b bs ih =>
    rw [List.foldl_cons, ih, List.mem_insert_iff, List.mem_cons]
    tauto

theorem nodup_foldl_insert (bs : List ℕ) {l : List ℕ} (hl : l.Nodup) :
    (bs.foldl (fun inBody b => inBody.insert b) l).Nodup := by
  induction bs generalizing l with
  | nil => exact hl
  | cons b bs ih => exact ih (hl.insert)

namespace Mir

variable (m : Mir)

section

variable {t : MirDomTree} (hgave : ∀ b, t.gaveUp b = false)

include hgave

theorem mem_loopPreds {h n p : ℕ} :
    p ∈ loopPreds t (mirBuildPredecessors m.toMirData) h n ↔ n ≠ h ∧ n ∈ m.blockSuccessors p := by
  have hfilter : ∀ l : List ℕ, l.filter (fun p => decide (¬ t.GaveUp p)) = l := by
    intro l
    refine List.filter_eq_self.2 fun p _ => ?_
    simp [MirDomTree.GaveUp, hgave]
  rw [loopPreds, hfilter]
  by_cases hn : n = h
  · simp [hn]
  rw [if_neg hn, and_iff_right hn]
  by_cases hlen : n ≥ (mirBuildPredecessors m.toMirData).length
  · rw [if_pos hlen]
    refine iff_of_false (by simp) fun hp => ?_
    rw [length_mirBuildPredecessors] at hlen
    have := (m.isBlock_of_mem_succs hp).2.2
    omega
  · rw [if_neg hlen]
    exact ⟨fun hp => (m.mem_preds (m.isBlock_of_mem_preds hp)).1 hp,
      fun hp => (m.mem_preds (m.isBlock_of_mem_succs hp).1).2 hp⟩

theorem reaches_loopPreds {h b x : ℕ} (hx : x ≠ h) :
    Worklist.Reaches (loopPreds t (mirBuildPredecessors m.toMirData) h) b x ↔
      ReachesAvoiding m.blockSuccessors h x b := by
  constructor
  · intro hr
    refine ⟨hx, ?_⟩
    induction hr with
    | refl => exact .refl
    | tail _ hy ih =>
      obtain ⟨hne, hsucc⟩ := (m.mem_loopPreds hgave).1 hy
      exact .head ⟨hsucc, hne⟩ (ih hne)
  · rintro ⟨-, hpath⟩
    induction hpath using Relation.ReflTransGen.head_induction_on with
    | refl => exact .refl
    | head huv _ ih => exact .tail (ih huv.2) ((m.mem_loopPreds hgave).2 ⟨huv.2, huv.1⟩)

/-- **The body of a loop.** -/
theorem loopBody_spec {fuel h : ℕ} {bs : List ℕ} (hh : m.IsBlock h) (hbs : ∀ b ∈ bs, m.IsBlock b)
    (hfuel : bs.length + m.blockCount ≤ fuel) :
    ∃ body, loopBody fuel t (mirBuildPredecessors m.toMirData) h bs = .ok body ∧
      body.Pairwise (· ≤ ·) ∧
      ∀ x, x ∈ body ↔ x = h ∨ ∃ b ∈ bs, ReachesAvoiding m.blockSuccessors h x b := by
  set next := loopPreds t (mirBuildPredecessors m.toMirData) h with hnext
  set seed := bs.foldl (fun inBody b => inBody.insert b) [h] with hseed
  have hmem : ∀ x, x ∈ seed ↔ x = h ∨ x ∈ bs := fun x => by
    rw [hseed, mem_foldl_insert, List.mem_singleton]
  have hU : ∀ x ∈ Finset.range m.blockCount, ∀ y ∈ next x, y ∈ Finset.range m.blockCount := by
    intro x _ y hy
    exact Finset.mem_range.2 (m.isBlock_of_mem_succs ((m.mem_loopPreds hgave).1 hy).2).1.2
  have hseedU : ∀ x ∈ seed, x ∈ Finset.range m.blockCount := by
    intro x hx
    rcases (hmem x).1 hx with rfl | hx
    · exact Finset.mem_range.2 hh.2
    · exact Finset.mem_range.2 (hbs x hx).2
  have hwork : ∀ x ∈ bs.reverse, x ∈ seed := fun x hx =>
    (hmem x).2 (.inr (List.mem_reverse.1 hx))
  have hbudget : bs.reverse.length + (Finset.range m.blockCount).card ≤ fuel + seed.length := by
    rw [List.length_reverse, Finset.card_range]
    omega
  obtain ⟨r, hr⟩ :=
    Worklist.run_isSome hU hseedU hwork (nodup_foldl_insert bs (by simp)) hbudget
  have hclosed : ∀ x ∈ seed, x ∉ bs.reverse → ∀ y ∈ next x, y ∈ seed := by
    intro x hx hxw y hy
    rcases (hmem x).1 hx with rfl | hx
    · exact absurd rfl ((m.mem_loopPreds hgave).1 hy).1
    · exact absurd (List.mem_reverse.2 hx) hxw
  obtain ⟨hsub, hstep, hreach⟩ := Worklist.run_spec hr hclosed
  have hbody : ∀ x, x ∈ r ↔ x = h ∨ ∃ b ∈ bs, ReachesAvoiding m.blockSuccessors h x b := by
    intro x
    constructor
    · intro hx
      by_cases hxh : x = h
      · exact .inl hxh
      obtain ⟨s, hs, hsx⟩ := hreach hwork x hx
      rcases (hmem s).1 hs with rfl | hs
      · rcases Relation.ReflTransGen.cases_head hsx with rfl | ⟨u, hu, -⟩
        · exact absurd rfl hxh
        · exact absurd rfl ((m.mem_loopPreds hgave).1 hu).1
      · exact .inr ⟨s, hs, (m.reaches_loopPreds hgave hxh).1 hsx⟩
    · rintro (rfl | ⟨b, hb, hx⟩)
      · exact hsub x ((hmem x).2 (.inl rfl))
      · have hbx := (m.reaches_loopPreds hgave hx.1).2 hx
        induction hbx with
        | refl => exact hsub b ((hmem b).2 (.inr hb))
        | @tail u v hbu huv ih =>
          obtain ⟨hne, -⟩ := (m.mem_loopPreds hgave).1 huv
          exact hstep u (ih ((m.reaches_loopPreds hgave hne).1 hbu)) v huv
  refine ⟨r.mergeSort (· ≤ ·), ?_, ?_, fun x => by rw [List.mem_mergeSort, hbody]⟩
  · have hgu : ¬ ∃ slot ∈ r, t.GaveUp slot := by
      rintro ⟨slot, -, hslot⟩
      simp [MirDomTree.GaveUp, hgave] at hslot
    rw [loopBody]
    simp only [← hseed, ← hnext, hr]
    rw [if_neg (not_not.2 ((hbody h).2 (.inl rfl))), if_neg hgu]
  · exact List.pairwise_mergeSort' (· ≤ ·) r

end

/-- An edge of function `f` from `b` back to `h`: the header dominates a source that is reached,
or the source is the header. -/
def BackEdge (f b h : ℕ) : Prop :=
  b ∈ m.funcBlocks f ∧ h ∈ m.blockSuccessors b ∧
    (Worklist.Reaches m.blockSuccessors (m.funcEntry f) b ∧
      Dom m.blockSuccessors (m.funcEntry f) h b ∨ h = b)

section

variable {f : ℕ} (hf : m.IsFunc f)

include hf

theorem isBlock_of_mem_funcBlocks {b : ℕ} (hb : b ∈ m.funcBlocks f) : m.IsBlock b := by
  obtain ⟨hb1, hb2⟩ := m.mem_funcBlocks.1 hb
  obtain ⟨-, h2, h3⟩ := (m.funcBuilt hf).blocks
  exact ⟨by omega, by omega⟩

theorem mirBackEdgeCandidates_eq :
    mirBackEdgeCandidates m.toMirData f (mirReversePostOrder m.toMirData (m.funcEntry f)) =
      .ok (List.range' (m.funcEntry f) (m.funcBlockCount f)) := by
  obtain ⟨h1, h2, h3⟩ := (m.funcBuilt hf).blocks
  obtain ⟨he, hfunc⟩ := m.isBlock_funcEntry hf
  have hfirst : m.funcBlockAt f 0 = m.funcEntry f := rfl
  have hlast : m.funcBlockAt f (m.funcBlockCount f - 1) =
      m.funcEntry f + m.funcBlockCount f - 1 := by
    rw [MirData.funcBlockAt, MirData.funcEntry]
    omega
  have hfilter : (List.range' (m.funcEntry f) (m.funcBlockCount f)).filter
      (fun s => decide (s < m.blockCount)) =
      List.range' (m.funcEntry f) (m.funcBlockCount f) := by
    refine List.filter_eq_self.2 fun s hs => ?_
    have := List.mem_range'_1.1 hs
    simp only [decide_eq_true_eq]
    omega
  have houtside : (mirReversePostOrder m.toMirData (m.funcEntry f)).filter (fun s =>
      decide (¬ (s < 1 ∨ s ≥ m.blockCount) ∧
        ¬ (s ≥ m.funcEntry f ∧ s < m.funcEntry f + m.funcBlockCount f))) = [] := by
    refine List.filter_eq_nil_iff.2 fun s hs => ?_
    have hreach := (m.mem_mirReversePostOrder he).1 hs
    obtain ⟨hsb, hsf⟩ := m.isBlock_of_reaches he hreach
    have hmem := m.mem_funcBlocks.1 (m.mem_funcBlocks_blockFunc hsb).2
    rw [hsf, hfunc] at hmem
    rw [decide_eq_true_eq]
    exact fun h => h.2 hmem
  rw [mirBackEdgeCandidates]
  simp only [if_neg h1, hfirst, hlast, ne_eq, not_true_eq_false, if_false,
    if_neg (show ¬ m.funcEntry f < 1 by omega), Nat.add_sub_cancel_left, hfilter]
  exact if_pos houtside

omit hf in
theorem checkCandidates_range' (n : ℕ) : ∀ (k s : ℕ) (last : Option ℕ), 1 ≤ s → s + k ≤ n →
    (∀ l ∈ last, l < s) → checkCandidates n last (List.range' s k) = .ok () := by
  intro k
  induction k with
  | zero => exact fun s last _ _ _ => rfl
  | succ k ih =>
    intro s last hs hn hlast
    rw [List.range'_succ, checkCandidates, if_neg (by omega), if_neg]
    · exact ih (s + 1) (some s) (by omega) (by omega) (by simp)
    · rintro ⟨l, hl, hle⟩
      exact absurd (hlast l hl) (by omega)

theorem mem_byHeader_iff {t : MirDomTree} (hsize : t.size = m.blockCount)
    (hgave : ∀ b, t.gaveUp b = false)
    (T : IdomTree m.blockSuccessors (m.funcEntry f) m.blockCount t.idom) (h b : ℕ) :
    b ∈ (List.range' (m.funcEntry f) (m.funcBlockCount f)).foldl (addBackEdges m.toMirData t)
        (fun _ => []) h ↔ m.BackEdge f b h := by
  obtain ⟨he, -⟩ := m.isBlock_funcEntry hf
  have hcand : b ∈ List.range' (m.funcEntry f) (m.funcBlockCount f) ↔ b ∈ m.funcBlocks f := by
    rw [List.mem_range'_1, m.mem_funcBlocks]
  rw [mem_foldl_addBackEdges, or_iff_right List.not_mem_nil, hcand, BackEdge]
  refine and_congr_right fun hb => ?_
  have hgu : ¬ t.GaveUp b := by simp [MirDomTree.GaveUp, hgave]
  rw [backHeaders, if_neg hgu, List.mem_filter, decide_eq_true_eq]
  refine and_congr_right fun hsucc => ?_
  have hhb := (m.isBlock_of_mem_succs hsucc).2
  obtain ⟨-, hreached, hoff⟩ := m.mirDominatesBlock_spec he hsize T h b
  rw [and_iff_right (by have := hhb.1; have := hhb.2; omega)]
  by_cases hbr : Worklist.Reaches m.blockSuccessors (m.funcEntry f) b
  · rw [hreached hbr]
    refine ⟨fun hd => .inl ⟨hbr, hd⟩, ?_⟩
    rintro (hd | rfl)
    · exact hd.2
    · exact Dom.refl h
  · rw [hoff hbr]
    refine ⟨fun hd => .inr hd.1, ?_⟩
    rintro (hd | rfl)
    · exact absurd hd.1 hbr
    · exact ⟨rfl, (m.isBlock_of_mem_funcBlocks hf hb).1⟩

omit hf in
theorem collectLoops_ok {fuel : ℕ} {t : MirDomTree} {preds : List (List ℕ)} {byHeader : ℕ → List ℕ}
    {P : ℕ → List ℕ → Prop} (hs : List ℕ)
    (hbody : ∀ h ∈ hs, ∃ body, loopBody fuel t preds h (byHeader h) = .ok body ∧ P h body) :
    ∃ loops, hs.mapM (fun h => do
        let body ← loopBody fuel t preds h (byHeader h)
        return (⟨h, body, byHeader h⟩ : MirNaturalLoop)) = Except.ok loops ∧
      loops.map MirNaturalLoop.header = hs ∧
      ∀ L ∈ loops, L.backEdgeSources = byHeader L.header ∧ P L.header L.body := by
  induction hs with
  | nil => exact ⟨[], rfl, rfl, by simp⟩
  | cons h hs ih =>
    obtain ⟨hh, hbody⟩ := List.forall_mem_cons.1 hbody
    obtain ⟨body, hrun, hP⟩ := hh
    obtain ⟨loops, hmap, hheads, hspec⟩ := ih hbody
    refine ⟨⟨h, body, byHeader h⟩ :: loops, ?_, by rw [List.map_cons, hheads],
      List.forall_mem_cons.2 ⟨⟨rfl, hP⟩, hspec⟩⟩
    rw [List.mapM_cons, hrun, hmap]
    rfl

/-- **The natural loops of a function are exact.** -/
theorem mirNaturalLoops_exact (moduleId : ℕ) :
    ∃ N, ∀ fuel ≥ N, ∃ t candidates loops,
      computeMirDomTree fuel (m.domInput moduleId (m.funcEntry f) (m.isBlock_funcEntry hf).1) =
          .ok t ∧
        mirBackEdgeCandidates m.toMirData f
            (mirReversePostOrder m.toMirData (m.funcEntry f)) = .ok candidates ∧
        mirNaturalLoops fuel m.toMirData t (mirBuildPredecessors m.toMirData) candidates =
          .ok loops ∧
        (loops.map MirNaturalLoop.header).Pairwise (· < ·) ∧
        (∀ h, h ∈ loops.map MirNaturalLoop.header ↔ ∃ b, m.BackEdge f b h) ∧
        ∀ L ∈ loops,
          (∀ b, b ∈ L.backEdgeSources ↔ m.BackEdge f b L.header) ∧
          (∀ x, x ∈ L.body ↔ x = L.header ∨
            ∃ b, m.BackEdge f b L.header ∧ ReachesAvoiding m.blockSuccessors L.header x b) ∧
          ∀ x ∈ L.body, Dom m.blockSuccessors (m.funcEntry f) L.header x := by
  obtain ⟨he, -⟩ := m.isBlock_funcEntry hf
  obtain ⟨-, h2, h3⟩ := (m.funcBuilt hf).blocks
  obtain ⟨N, hN⟩ := m.computeMirDomTree_spec he moduleId
  set cs := List.range' (m.funcEntry f) (m.funcBlockCount f) with hcs
  refine ⟨max N ((cs.map fun c => (m.blockSuccessors c).length).sum + m.blockCount),
    fun fuel hfuel => ?_⟩
  obtain ⟨t, ht, hsize, hgave, T⟩ := hN fuel (le_trans (le_max_left ..) hfuel)
  have hbudget := le_trans (le_max_right ..) hfuel
  have hmemBy := m.mem_byHeader_iff hf hsize hgave T
  rw [← hcs] at hmemBy
  set byHeader := cs.foldl (addBackEdges m.toMirData t) fun _ => [] with hby
  have hbody : ∀ h, byHeader h ≠ [] → ∃ body,
      loopBody fuel t (mirBuildPredecessors m.toMirData) h (byHeader h) = .ok body ∧
        ∀ x, x ∈ body ↔
          x = h ∨ ∃ b, m.BackEdge f b h ∧ ReachesAvoiding m.blockSuccessors h x b := by
    intro h hne
    obtain ⟨b, hb⟩ := List.exists_mem_of_ne_nil _ hne
    have hedge := (hmemBy h b).1 hb
    have hlen := length_foldl_addBackEdges (m := m.toMirData) (t := t) cs (fun _ => []) h
    rw [← hby, List.length_nil, Nat.zero_add] at hlen
    obtain ⟨body, hrun, -, hmem⟩ := m.loopBody_spec hgave
      (m.isBlock_of_mem_succs hedge.2.1).2
      (fun b hb => m.isBlock_of_mem_funcBlocks hf ((hmemBy h b).1 hb).1)
      (show (byHeader h).length + m.blockCount ≤ fuel by omega)
    refine ⟨body, hrun, fun x => ?_⟩
    simp only [hmem, hmemBy]
  obtain ⟨loops, hrun, hheads, hspec⟩ :=
    collectLoops_ok ((List.range m.blockCount).filter fun h => byHeader h ≠ []) fun h hh =>
      hbody h (by simpa using (List.mem_filter.1 hh).2)
  refine ⟨t, cs, loops, ht, m.mirBackEdgeCandidates_eq hf, ?_, ?_, fun h => ?_, fun L hL => ?_⟩
  · rw [mirNaturalLoops, checkCandidates_range' m.blockCount _ _ none (by omega) h3 (by simp)]
    exact hrun
  · rw [hheads]
    exact (List.pairwise_lt_range).filter _
  · rw [hheads, List.mem_filter, List.mem_range]
    constructor
    · rintro ⟨-, hne⟩
      obtain ⟨b, hb⟩ := List.exists_mem_of_ne_nil _ (of_decide_eq_true hne)
      exact ⟨b, (hmemBy h b).1 hb⟩
    · rintro ⟨b, hb⟩
      refine ⟨(m.isBlock_of_mem_succs hb.2.1).2.2, decide_eq_true ?_⟩
      exact List.ne_nil_of_mem ((hmemBy h b).2 hb)
  · obtain ⟨hsources, hmem⟩ := hspec L hL
    refine ⟨fun b => by rw [hsources, hmemBy], hmem, fun x hx => ?_⟩
    rcases (hmem x).1 hx with rfl | ⟨b, hb, hxb⟩
    · exact Dom.refl _
    · rcases hb.2.2 with ⟨-, hd⟩ | he
      · exact hxb.dom hd
      · exact absurd he.symm hxb.ne

end

end Mir

theorem mirNaturalLoops_exact_strayBlocks :
    ∃ N, ∀ fuel ≥ N, ∃ t candidates loops,
      computeMirDomTree fuel (strayBlocks.domInput 1 1 (by decide)) = .ok t ∧
      mirBackEdgeCandidates strayBlocks.toMirData 1 [1, 2, 4, 3] = .ok candidates ∧
      mirNaturalLoops fuel strayBlocks.toMirData t (mirBuildPredecessors strayBlocks.toMirData)
        candidates = .ok loops ∧
      (∀ h, h ∈ loops.map MirNaturalLoop.header ↔ ∃ b, strayBlocks.BackEdge 1 b h) ∧
      ∀ L ∈ loops, ∀ x, x ∈ L.body ↔ x = L.header ∨ ∃ b, strayBlocks.BackEdge 1 b L.header ∧
        ReachesAvoiding strayBlocks.blockSuccessors L.header x b := by
  obtain ⟨N, hN⟩ := strayBlocks.mirNaturalLoops_exact (show strayBlocks.IsFunc 1 by decide) 1
  refine ⟨N, fun fuel hfuel => ?_⟩
  obtain ⟨t, candidates, loops, ht, hc, hl, -, hheads, hloops⟩ := hN fuel hfuel
  exact ⟨t, candidates, loops, ht, hc, hl, hheads, fun L hL => (hloops L hL).2.1⟩

theorem mirNaturalLoops_unreached :
    ∃ t, computeMirDomTree 4 (strayBlocks.domInput 1 1 (by decide)) = .ok t ∧
      mirNaturalLoops 9 strayBlocks.toMirData t (mirBuildPredecessors strayBlocks.toMirData)
        [1, 2, 3, 4, 5, 6] = .ok [⟨2, [2, 3, 5], [3]⟩] ∧
      ¬ Worklist.Reaches strayBlocks.blockSuccessors 1 5 := by
  have hsort : [5, 3, 2].mergeSort (fun a b : ℕ => decide (a ≤ b)) = [2, 3, 5] := by
    simp [List.mergeSort, List.MergeSort.Internal.splitInTwo, List.splitAt, List.splitAt.go]
  refine ⟨_, rfl, ?_, fun h => ?_⟩
  · rw [← hsort]
    rfl
  · have := (strayBlocks.mem_mirReversePostOrder (show strayBlocks.IsBlock 1 by decide)).2 h
    exact absurd this (by decide)

end DssPrime
