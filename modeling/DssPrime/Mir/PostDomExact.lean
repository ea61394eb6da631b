import DssPrime.Mir.DomTreeExact

/-!
# The post-dominator tree of a function

`computePostDomInto` turns the edges of a function round, adds a virtual exit after every block that
the entry reaches and that leaves the function, walks that graph from the virtual exit and runs the
fixpoint on the reverse post-order.

An exit that the entry does not reach is no exit here: a block that leads only to such exits is not
in the tree.
-/

namespace DssPrime

open DssPrime.Graph

namespace PostDomBuffers

/-- The buffers hold the graph turned around. -/
structure Transposes (E : ℕ → ℕ → Prop) (B : PostDomBuffers) : Prop where
  preds : ∀ b s, s ∈ B.revPreds b ↔ E b s
  succs : ∀ b s, b ∈ B.revSuccs s ↔ E b s

theorem Transposes.congr {E E' : ℕ → ℕ → Prop} {B : PostDomBuffers} (h : Transposes E B)
    (hE : ∀ b s, E b s ↔ E' b s) : Transposes E' B :=
  ⟨fun b s => (h.preds b s).trans (hE b s), fun b s => (h.succs b s).trans (hE b s)⟩

theorem Transposes.pushEdge {E : ℕ → ℕ → Prop} {B : PostDomBuffers} (h : Transposes E B)
    (b s : ℕ) : Transposes (fun b' s' => E b' s' ∨ b' = b ∧ s' = s) (B.pushEdge b s) where
  preds b' s' := by
    rw [← h.preds]
    unfold PostDomBuffers.pushEdge PostDomBuffers.pushRevSucc PostDomBuffers.pushRevPred
    by_cases hb : b' = b
    · subst hb
      simp
    · simp [hb]
  succs b' s' := by
    rw [← h.succs]
    unfold PostDomBuffers.pushEdge PostDomBuffers.pushRevSucc PostDomBuffers.pushRevPred
    by_cases hs : s' = s
    · subst hs
      simp
    · simp [hs]

def Leaves (m : MirData) (b : ℕ) : Prop :=
  m.blockInstCount b ≠ 0 ∧ (m.instOpcode (m.blockInstAt b (m.blockInstCount b - 1)) = .ret ∨
    m.instOpcode (m.blockInstAt b (m.blockInstCount b - 1)) = .unreachable)

def BlockEdge (m : MirData) (reachable : List ℕ) (b s : ℕ) : Prop :=
  (s ∈ m.blockSuccessors b ∧ s ≠ 0 ∧ s < m.blockCount) ∨
    s = m.blockCount ∧ b ∈ reachable ∧ Leaves m b

theorem Transposes.foldl_succs {m : MirData} {E : ℕ → ℕ → Prop} (b : ℕ) (ss : List ℕ)
    {B : PostDomBuffers} (h : Transposes E B) :
    Transposes (fun b' s' => E b' s' ∨ b' = b ∧ s' ∈ ss ∧ s' ≠ 0 ∧ s' < m.blockCount)
      (ss.foldl (fun B s => if s = 0 ∨ s ≥ m.blockCount then B else B.pushEdge b s) B) := by
  induction ss generalizing E B with
  | nil => exact h.congr fun b' s' => by simp
  | cons s ss ih =>
    rw [List.foldl_cons]
    split_ifs with hs
    · refine (ih h).congr fun b' s' => or_congr_right (and_congr_right fun _ => ?_)
      rw [List.mem_cons]
      constructor
      · rintro ⟨hmem, h0⟩
        exact ⟨.inr hmem, h0⟩
      · rintro ⟨rfl | hmem, h0, hlt⟩
        · omega
        · exact ⟨hmem, h0, hlt⟩
    · refine (ih (h.pushEdge b s)).congr fun b' s' => ?_
      rw [or_assoc, ← and_or_left, List.mem_cons]
      refine or_congr_right (and_congr_right fun _ => ?_)
      constructor
      · rintro (rfl | ⟨hmem, h0⟩)
        · exact ⟨.inl rfl, by omega, by omega⟩
        · exact ⟨.inr hmem, h0⟩
      · rintro ⟨rfl | hmem, h0⟩
        · exact .inl rfl
        · exact .inr ⟨hmem, h0⟩

/-- **The edges of one block.** -/
theorem Transposes.pushBlock {m : MirData} {reachable : List ℕ} {E : ℕ → ℕ → Prop}
    {B : PostDomBuffers} (h : Transposes E B) (b : ℕ) :
    Transposes (fun b' s' => E b' s' ∨ b' = b ∧ BlockEdge m reachable b s')
      (pushBlock m reachable B b) := by
  have hsuccs := h.foldl_succs (m := m) b (m.blockSuccessors b)
  have hskip : ¬ (b ∈ reachable ∧ Leaves m b) →
      Transposes (fun b' s' => E b' s' ∨ b' = b ∧ BlockEdge m reachable b s')
        ((m.blockSuccessors b).foldl
          (fun B s => if s = 0 ∨ s ≥ m.blockCount then B else B.pushEdge b s) B) := by
    refine fun hno => hsuccs.congr fun b' s' => or_congr_right (and_congr_right fun _ => ?_)
    exact (or_iff_left fun hv => hno hv.2).symm
  unfold PostDomBuffers.pushBlock
  simp only
  split_ifs with hr hn ht
  · exact hskip fun hv => hv.2.1 hn
  · refine (hsuccs.pushEdge b m.blockCount).congr fun b' s' => ?_
    rw [or_assoc, ← and_or_left, BlockEdge]
    refine or_congr_right (and_congr_right fun _ => or_congr_right ?_)
    exact ⟨fun hs => ⟨hs, hr, hn, ht⟩, And.left⟩
  · exact hskip fun hv => ht hv.2.2
  · exact hskip fun hv => hr hv.1

theorem Transposes.foldl_pushBlock {m : MirData} {reachable : List ℕ} (bs : List ℕ)
    {E : ℕ → ℕ → Prop} {B : PostDomBuffers} (h : Transposes E B) :
    Transposes (fun b s => E b s ∨ b ∈ bs ∧ BlockEdge m reachable b s)
      (bs.foldl (PostDomBuffers.pushBlock m reachable) B) := by
  induction bs generalizing E B with
  | nil => exact h.congr fun b s => by simp
  | cons b bs ih =>
    refine (ih (h.pushBlock b)).congr fun b' s' => ?_
    rw [or_assoc, List.mem_cons, or_and_right]
    refine or_congr_right (or_congr_left (and_congr_right ?_))
    rintro rfl
    exact Iff.rfl

theorem walk_of_run {succs : ℕ → List ℕ} (fuel : ℕ) {stack : List (ℕ × ℕ)}
    {visited : ℕ → Bool} {seen order r : List ℕ} (hv : ∀ x, visited x = true ↔ x ∈ seen)
    (h : PostOrder.run succs fuel (stack.map fun f => (f.1, (succs f.1).drop f.2)) seen order =
      some r) : ∃ v, walk succs fuel stack visited order = .ok (v, r) := by
  induction fuel generalizing stack visited seen order with
  | zero =>
    cases stack with
    | nil =>
      obtain rfl := Option.some.inj h
      exact ⟨visited, by rw [walk]⟩
    | cons f stack => simp [PostOrder.run] at h
  | succ fuel ih =>
    cases stack with
    | nil =>
      obtain rfl := Option.some.inj h
      exact ⟨visited, by rw [walk]⟩
    | cons f stack =>
      obtain ⟨slot, k⟩ := f
      rw [walk]
      cases hs : (succs slot)[k]? with
      | none =>
        have hdrop : (succs slot).drop k = [] :=
          List.drop_eq_nil_of_le (List.getElem?_eq_none_iff.1 hs)
        rw [List.map_cons, hdrop, PostOrder.run] at h
        exact ih hv h
      | some s =>
        have hdrop : (succs slot).drop k = s :: (succs slot).drop (k + 1) := by
          obtain ⟨hk, rfl⟩ := List.getElem?_eq_some_iff.1 hs
          exact List.drop_eq_getElem_cons hk
        rw [List.map_cons, hdrop, PostOrder.run] at h
        by_cases hvis : visited s = true
        · rw [if_pos ((hv s).1 hvis)] at h
          simp only [hvis, if_true]
          exact ih hv h
        · rw [if_neg fun hm => hvis ((hv s).2 hm)] at h
          simp only [hvis, if_false, Bool.false_eq_true]
          refine ih (show ∀ x, Function.update visited s true x = true ↔ x ∈ s :: seen from
            fun x => ?_) (by simpa using h)
          by_cases hx : x = s
          · subst hx
            simp
          · rw [Function.update_of_ne hx, hv, List.mem_cons, or_iff_right hx]

theorem walk_mono {succs : ℕ → List ℕ} {fuel fuel' : ℕ} (hle : fuel ≤ fuel')
    {stack : List (ℕ × ℕ)} {visited : ℕ → Bool} {order : List ℕ} {r : (ℕ → Bool) × List ℕ}
    (h : walk succs fuel stack visited order = .ok r) :
    walk succs fuel' stack visited order = .ok r := by
  induction fuel generalizing fuel' stack visited order with
  | zero =>
    cases stack with
    | nil =>
      rw [walk] at h ⊢
      exact h
    | cons f stack => simp [walk] at h
  | succ fuel ih =>
    obtain ⟨fuel', rfl⟩ : ∃ k, fuel' = k + 1 := ⟨fuel' - 1, by omega⟩
    cases stack with
    | nil =>
      rw [walk] at h ⊢
      exact h
    | cons f stack =>
      obtain ⟨slot, k⟩ := f
      rw [walk] at h ⊢
      cases hs : (succs slot)[k]? with
      | none =>
        simp only [hs] at h ⊢
        exact ih (by omega) h
      | some s =>
        simp only [hs] at h ⊢
        split_ifs at h ⊢
        · exact ih (by omega) h
        · exact ih (by omega) h

end PostDomBuffers

namespace Graph

/-- Some path leaves without passing `a`. -/
inductive EscapesAvoiding {α : Type*} (next : α → List α) (exit : α → Prop) (a : α) : α → Prop
  | exit {v : α} : exit v → v ≠ a → EscapesAvoiding next exit a v
  | step {u v : α} : u ≠ a → v ∈ next u → EscapesAvoiding next exit a v →
      EscapesAvoiding next exit a u

def PostDom {α : Type*} (next : α → List α) (exit : α → Prop) (a v : α) : Prop :=
  ¬ EscapesAvoiding next exit a v

def CanExit {α : Type*} (next : α → List α) (exit : α → Prop) (v : α) : Prop :=
  ∃ e, exit e ∧ Worklist.Reaches next v e

end Graph

namespace Mir

variable (m : Mir)

def IsExit (f b : ℕ) : Prop :=
  b ∈ m.funcBlocks f ∧ Worklist.Reaches m.blockSuccessors (m.funcEntry f) b ∧
    PostDomBuffers.Leaves m.toMirData b

/-- The closest strict post-dominator of a block, which is the virtual exit when no other block
post-dominates it. -/
def IsIpdom (f d b : ℕ) : Prop :=
  d = m.blockCount ∧ (∀ w, PostDom m.blockSuccessors (m.IsExit f) w b → w = b) ∨
    d ≠ m.blockCount ∧ PostDom m.blockSuccessors (m.IsExit f) d b ∧ d ≠ b ∧
      ∀ w, PostDom m.blockSuccessors (m.IsExit f) w b → w ≠ b →
        PostDom m.blockSuccessors (m.IsExit f) w d

def ExitEdge (f b s : ℕ) : Prop :=
  b ∈ m.funcBlocks f ∧ s ∈ m.blockSuccessors b ∨ s = m.blockCount ∧ m.IsExit f b

section

variable {f : ℕ} (hf : m.IsFunc f)

include hf

theorem lt_of_mem_funcBlocks {b : ℕ} (hb : b ∈ m.funcBlocks f) : b < m.blockCount := by
  obtain ⟨-, hlt⟩ := m.mem_funcBlocks.1 hb
  obtain ⟨-, -, h3⟩ := (m.funcBuilt hf).blocks
  omega

theorem transposes_exitEdge :
    PostDomBuffers.Transposes (m.ExitEdge f)
      ((m.funcBlocks f).foldl (PostDomBuffers.pushBlock m.toMirData
        (mirReversePostOrder m.toMirData (m.funcEntry f))) (.fresh m.blockCount)) := by
  have hfresh : PostDomBuffers.Transposes (fun _ _ => False) (.fresh m.blockCount) :=
    ⟨fun b s => by simp [PostDomBuffers.fresh], fun b s => by simp [PostDomBuffers.fresh]⟩
  refine (hfresh.foldl_pushBlock _).congr fun b s => ?_
  rw [false_or, PostDomBuffers.BlockEdge, ExitEdge, IsExit,
    m.mem_mirReversePostOrder (m.isBlock_funcEntry hf).1]
  constructor
  · rintro ⟨hb, ⟨hs, -⟩ | ⟨rfl, hr⟩⟩
    · exact .inl ⟨hb, hs⟩
    · exact .inr ⟨rfl, hb, hr⟩
  · rintro (⟨hb, hs⟩ | ⟨rfl, hb, hr⟩)
    · have hsb := (m.isBlock_of_mem_succs hs).2
      exact ⟨hb, .inl ⟨hs, hsb.1, hsb.2⟩⟩
    · exact ⟨hb, .inr ⟨rfl, hr⟩⟩

theorem mem_funcBlocks_of_succ {b s : ℕ} (hs : s ∈ m.blockSuccessors b)
    (hsf : s ∈ m.funcBlocks f) : b ∈ m.funcBlocks f := by
  obtain ⟨hbb, hsb⟩ := m.isBlock_of_mem_succs hs
  have hfunc := ((m.blockBuilt hbb).succs s hs).2
  rw [(m.funcBuilt hf).owner s hsf] at hfunc
  exact hfunc ▸ (m.mem_funcBlocks_blockFunc hbb).2

variable {next : ℕ → List ℕ} (hnext : ∀ b s, b ∈ next s ↔ m.ExitEdge f b s)

include hnext

theorem reaches_turned {v : ℕ} (hv : v ≠ m.blockCount) :
    Worklist.Reaches next m.blockCount v ↔ CanExit m.blockSuccessors (m.IsExit f) v := by
  constructor
  · intro h
    induction h with
    | refl => exact absurd rfl hv
    | @tail u w _ hw ih =>
      rcases (hnext w u).1 hw with ⟨hwf, huw⟩ | ⟨rfl, hexit⟩
      · obtain ⟨e, he, hue⟩ := ih (m.isBlock_of_mem_succs huw).2.2.ne
        exact ⟨e, he, .head huw hue⟩
      · exact ⟨w, hexit, .refl⟩
  · rintro ⟨e, he, hve⟩
    have key : Worklist.Reaches next m.blockCount v ∧ v ∈ m.funcBlocks f := by
      induction hve using Relation.ReflTransGen.head_induction_on with
      | refl => exact ⟨.single ((hnext e m.blockCount).2 (.inr ⟨rfl, he⟩)), he.1⟩
      | @head b s hbs _ ih =>
        obtain ⟨hr, hsf⟩ := ih (m.isBlock_of_mem_succs hbs).2.2.ne
        have hbf := m.mem_funcBlocks_of_succ hf hbs hsf
        exact ⟨hr.tail ((hnext b s).2 (.inl ⟨hbf, hbs⟩)), hbf⟩
    exact key.1

theorem avoids_turned {a v : ℕ} (ha : a ≠ m.blockCount) (hv : v ≠ m.blockCount) :
    Avoids next m.blockCount a v ↔ EscapesAvoiding m.blockSuccessors (m.IsExit f) a v := by
  constructor
  · intro h
    induction h with
    | entry => exact absurd rfl hv
    | @step u w _ hw hne ih =>
      rcases (hnext w u).1 hw with ⟨hwf, huw⟩ | ⟨rfl, hexit⟩
      · exact .step hne huw (ih (m.isBlock_of_mem_succs huw).2.2.ne)
      · exact .exit hexit hne
  · intro h
    have key : Avoids next m.blockCount a v ∧ v ∈ m.funcBlocks f := by
      clear hv
      induction h with
      | @exit v he hne =>
        exact ⟨.step (.entry (Ne.symm ha)) ((hnext v m.blockCount).2 (.inr ⟨rfl, he⟩)) hne, he.1⟩
      | @step b s hne hbs _ ih =>
        have hbf := m.mem_funcBlocks_of_succ hf hbs ih.2
        exact ⟨.step ih.1 ((hnext b s).2 (.inl ⟨hbf, hbs⟩)) hne, hbf⟩
    exact key.1

theorem dom_turned {a v : ℕ} (ha : a ≠ m.blockCount) (hv : v ≠ m.blockCount) :
    Dom next m.blockCount a v ↔ PostDom m.blockSuccessors (m.IsExit f) a v :=
  not_congr (m.avoids_turned hf hnext ha hv)

omit hnext in
theorem not_postDom_blockCount {v : ℕ} (hv : CanExit m.blockSuccessors (m.IsExit f) v) :
    ¬ PostDom m.blockSuccessors (m.IsExit f) m.blockCount v := by
  obtain ⟨e, he, hve⟩ := hv
  refine not_not.2 ?_
  induction hve using Relation.ReflTransGen.head_induction_on with
  | refl => exact .exit he (m.lt_of_mem_funcBlocks hf he.1).ne
  | head hbs _ ih => exact .step (m.isBlock_of_mem_succs hbs).1.2.ne hbs ih

omit hf hnext in
theorem dom_blockCount_iff {a : ℕ} : Dom next m.blockCount a m.blockCount ↔ a = m.blockCount := by
  constructor
  · intro h
    by_contra hne
    exact h (.entry (Ne.symm hne))
  · rintro rfl
    exact Dom.refl _

/-- **The immediate dominators of the turned graph are the immediate post-dominators.** -/
theorem isIdom_turned {d v : ℕ} (hv : v ≠ m.blockCount)
    (hexit : CanExit m.blockSuccessors (m.IsExit f) v) :
    IsIdom next m.blockCount d v ↔ m.IsIpdom f d v := by
  have hvr := (m.reaches_turned hf hnext hv).2 hexit
  constructor
  · intro h
    by_cases hd : d = m.blockCount
    · subst hd
      refine .inl ⟨rfl, fun w hw => ?_⟩
      by_contra hne
      have hwn : w ≠ m.blockCount := by
        rintro rfl
        exact m.not_postDom_blockCount hf hexit hw
      have := h.closest w ((m.dom_turned hf hnext hwn hv).2 hw) hne
      exact hwn ((m.dom_blockCount_iff).1 this)
    · refine .inr ⟨hd, (m.dom_turned hf hnext hd hv).1 h.dom, h.ne, fun w hw hne => ?_⟩
      have hwn : w ≠ m.blockCount := by
        rintro rfl
        exact m.not_postDom_blockCount hf hexit hw
      exact (m.dom_turned hf hnext hwn hd).1
        (h.closest w ((m.dom_turned hf hnext hwn hv).2 hw) hne)
  · rintro (⟨rfl, h⟩ | ⟨hd, hdom, hne, hclosest⟩)
    · refine ⟨dom_entry v, Ne.symm hv, fun w hw hne => ?_⟩
      by_cases hwn : w = m.blockCount
      · exact hwn ▸ Dom.refl _
      · exact absurd (h w ((m.dom_turned hf hnext hwn hv).1 hw)) hne
    · refine ⟨(m.dom_turned hf hnext hd hv).2 hdom, hne, fun w hw hwv => ?_⟩
      by_cases hwn : w = m.blockCount
      · exact hwn ▸ dom_entry d
      · exact (m.dom_turned hf hnext hwn hd).2
          (hclosest w ((m.dom_turned hf hnext hwn hv).1 hw) hwv)

omit hnext in
theorem computeMirPostDomTree_spec :
    ∃ next, (∀ b s, b ∈ next s ↔ m.ExitEdge f b s) ∧
      ∃ N, ∀ fuel ≥ N, ∃ t, computeMirPostDomTree fuel m.toMirData f = .ok t ∧
        t.virtualExit = m.blockCount ∧ (∀ b, t.gaveUp b = false) ∧
        IdomTree next m.blockCount (m.blockCount + 1) t.ipdom := by
  have hE := m.transposes_exitEdge hf
  obtain ⟨-, hvis, hcore, htree⟩ := PostDomBuffers.grown_foldl
    (PostDomBuffers.grown_pushBlock m.toMirData
      (mirReversePostOrder m.toMirData (m.funcEntry f))) (m.funcBlocks f) (.fresh m.blockCount)
  obtain ⟨B, hB⟩ : ∃ B, B = (m.funcBlocks f).foldl (PostDomBuffers.pushBlock m.toMirData
    (mirReversePostOrder m.toMirData (m.funcEntry f))) (.fresh m.blockCount) := ⟨_, rfl⟩
  rw [← hB] at hE hvis hcore htree
  have hlt : ∀ {b s}, b ∈ B.revSuccs s → b < m.blockCount + 1 := by
    intro b s hb
    have hbf : b ∈ m.funcBlocks f := ((hE.succs b s).1 hb).elim And.left fun h => h.2.1
    exact Nat.lt_succ_of_lt (m.lt_of_mem_funcBlocks hf hbf)
  obtain ⟨wfuel, order, hwalk⟩ : ∃ wfuel order,
      PostOrder.walk B.revSuccs wfuel m.blockCount = some order :=
    ⟨_, PostOrder.walk_isSome (U := Finset.range (m.blockCount + 1))
      (fun x _ y hy => Finset.mem_range.2 (hlt hy))
      (Finset.mem_range.2 (Nat.lt_succ_self m.blockCount)) (le_refl _)⟩
  have horder : ∀ v ∈ order, v < m.blockCount + 1 := by
    intro v hv
    rcases Relation.ReflTransGen.cases_tail ((PostOrder.mem_iff hwalk).1 hv) with he | ⟨u, -, hu⟩
    · omega
    · exact hlt hu
  have hpreds : ∀ u ∈ order, ∀ v ∈ order, (u ∈ B.revPreds v ↔ v ∈ B.revSuccs u) :=
    fun u _ v _ => (hE.preds v u).trans (hE.succs v u).symm
  obtain ⟨N, hN⟩ := ChkArrays.runChkCoreInto_exact hwalk horder hpreds
  have hvisited : ∀ x, Function.update B.visited m.blockCount true x = true ↔
      x ∈ [m.blockCount] := by
    intro x
    rw [hvis]
    by_cases hx : x = m.blockCount
    · simp [hx]
    · simp [hx, PostDomBuffers.fresh]
  obtain ⟨visited, hrun⟩ : ∃ v, PostDomBuffers.walk B.revSuccs wfuel [(m.blockCount, 0)]
      (Function.update B.visited m.blockCount true) [] = .ok (v, order) :=
    PostDomBuffers.walk_of_run wfuel hvisited hwalk
  refine ⟨B.revSuccs, hE.succs, max N wfuel, fun fuel hfuel => ?_⟩
  obtain ⟨core, hchk, hgave, T⟩ := hN fuel (le_trans (le_max_left ..) hfuel)
  have hwalkf := PostDomBuffers.walk_mono (le_trans (le_max_right ..) hfuel) hrun
  refine ⟨⟨core.idom, fun _ => false, m.blockCount⟩, ?_, rfl, fun _ => rfl, T⟩
  have hcount : ¬ m.funcBlockCount f = 0 := (m.funcBuilt hf).blocks.1
  have hstart : ({ PostDomBuffers.fresh m.blockCount with
      order := []
      touchedRev := []
      touchedNodes := []
      tree := { (PostDomBuffers.fresh m.blockCount).tree with virtualExit := m.blockCount } } :
      PostDomBuffers) = .fresh m.blockCount := rfl
  have htaken : order.foldl (PostDomBuffers.take core) B.tree =
      ⟨core.idom, fun _ => false, m.blockCount⟩ := by
    rw [PostDomBuffers.foldl_take, htree]
    refine congrArg₂ (fun i g => MirPostDomTree.mk i g m.blockCount) (funext fun s => ?_)
      (funext fun s => ?_)
    · by_cases hs : s ∈ order
      · rw [if_pos hs]
      · rw [if_neg hs, T.off fun h => hs ((PostOrder.mem_iff hwalk).2 h)]
        rfl
    · rw [hgave, PostDomBuffers.fresh, ite_self]
  rw [computeMirPostDomTree, PostDomBuffers.computePostDomInto]
  simp only [hstart, if_neg hcount, ← hB, hwalkf, hcore]
  have hfresh : (PostDomBuffers.fresh m.blockCount).core = .unset := rfl
  rw [hfresh]
  simp only [bind, Except.bind, hchk, htaken]
  rfl

omit hnext in
/-- **The post-dominators of a function are exact.**  A block from which some path leads to an
exit has its closest strict post-dominator, the other blocks have none; and the query answers
for such a block whether every path from it to an exit goes through the other one. -/
theorem computeMirPostDomTree_exact :
    ∃ N, ∀ fuel ≥ N, ∃ t, computeMirPostDomTree fuel m.toMirData f = .ok t ∧
      t.virtualExit = m.blockCount ∧ (∀ b, t.gaveUp b = false) ∧
      (∀ b, b ≠ m.blockCount → CanExit m.blockSuccessors (m.IsExit f) b →
        (∃ d, t.ipdom b = some d) ∧ ∀ d, t.ipdom b = some d ↔ m.IsIpdom f d b) ∧
      (∀ b, b ≠ m.blockCount → ¬ CanExit m.blockSuccessors (m.IsExit f) b → t.ipdom b = none) ∧
      ∀ a b, m.IsBlock a → m.IsBlock b → CanExit m.blockSuccessors (m.IsExit f) b →
        (mirPostDominatesBlock a b t = .dominates ↔
          PostDom m.blockSuccessors (m.IsExit f) a b) := by
  obtain ⟨next, hnext, N, hN⟩ := m.computeMirPostDomTree_spec hf
  refine ⟨N, fun fuel hfuel => ?_⟩
  obtain ⟨t, ht, hvirtual, hgave, T⟩ := hN fuel hfuel
  refine ⟨t, ht, hvirtual, hgave, fun b hb hexit => ?_, fun b hb hexit => ?_,
    fun a b ha hb hexit => ?_⟩
  · have hbr := (m.reaches_turned hf hnext hb).2 hexit
    exact ⟨Option.ne_none_iff_exists'.1 (T.reached b hbr), fun d =>
      (T.up_eq_some_iff hbr hb).trans (m.isIdom_turned hf hnext hb hexit)⟩
  · exact T.off fun h => hexit ((m.reaches_turned hf hnext hb).1 h)
  · have hbr := (m.reaches_turned hf hnext hb.2.ne).2 hexit
    obtain ⟨pos, hT, hpos⟩ := T.rooted
    have hz : (0 : ℕ) ∉ {v | Worklist.Reaches next m.blockCount v} := by
      intro h0
      rcases Relation.ReflTransGen.cases_tail h0 with he | ⟨u, -, hu⟩
      · exact absurd hb.2 (by omega)
      · have h0f : 0 ∈ m.funcBlocks f := ((hnext 0 u).1 hu).elim And.left fun h => h.2.1
        have := m.mem_funcBlocks.1 h0f
        exact (m.funcBuilt hf).blocks.2.1 (by omega)
    have hle := hpos b hbr
    obtain ⟨h1, h2⟩ := idomWalk_eq hT hz (a := a) (T.reached b hbr)
      (show pos b ≤ t.virtualExit + 3 by omega)
    rw [T.above_iff b a hbr, m.dom_turned hf hnext ha.2.ne hb.2.ne] at h1 h2
    rw [mirPostDominatesBlock, if_neg (not_or.2 ⟨ha.1, hb.1⟩)]
    by_cases hab : a = b
    · subst hab
      rw [if_pos rfl]
      refine iff_of_true rfl ((m.dom_turned hf hnext ha.2.ne ha.2.ne).1 (Dom.refl a))
    · rw [if_neg hab, if_neg (by have := hb.2; omega)]
      by_cases hd : PostDom m.blockSuccessors (m.IsExit f) a b
      · exact iff_of_true (h1 ⟨hd, hab⟩) hd
      · refine iff_of_false ?_ hd
        rw [h2 fun h => hd h.1]
        simp

end

end Mir

theorem computeMirPostDomTree_exact_strayBlocks :
    strayBlocks.IsFunc 1 ∧ ∃ N, ∀ fuel ≥ N, ∃ t,
      computeMirPostDomTree fuel strayBlocks.toMirData 1 = .ok t ∧ t.virtualExit = 7 ∧
      (∃ d, t.ipdom 3 = some d ∧ strayBlocks.IsIpdom 1 d 3) ∧
      ∀ a, strayBlocks.IsBlock a → (mirPostDominatesBlock a 3 t = .dominates ↔
        PostDom strayBlocks.blockSuccessors (strayBlocks.IsExit 1) a 3) := by
  have hf : strayBlocks.IsFunc 1 := by decide
  refine ⟨hf, ?_⟩
  obtain ⟨N, hN⟩ := strayBlocks.computeMirPostDomTree_exact hf
  refine ⟨N, fun fuel hfuel => ?_⟩
  obtain ⟨t, ht, hv, -, hipdom, -, hquery⟩ := hN fuel hfuel
  -- block 3 leaves through blocks 2 and 4
  have h4 : Worklist.Reaches strayBlocks.blockSuccessors 1 4 :=
    (strayBlocks.mem_mirReversePostOrder (show strayBlocks.IsBlock 1 by decide)).1 (by decide)
  have hexit : CanExit strayBlocks.blockSuccessors (strayBlocks.IsExit 1) 3 :=
    ⟨4, ⟨by decide, h4, by decide, .inl (by decide)⟩,
      (Relation.ReflTransGen.single (show 2 ∈ strayBlocks.blockSuccessors 3 by decide)).tail
        (show 4 ∈ strayBlocks.blockSuccessors 2 by decide)⟩
  obtain ⟨⟨d, hd⟩, hiff⟩ := hipdom 3 (by decide) hexit
  exact ⟨t, ht, hv, ⟨d, hd, (hiff d).1 hd⟩, fun a ha => hquery a 3 ha (by decide) hexit⟩

theorem computeMirPostDomTree_unreachedExit :
    (∃ t, computeMirPostDomTree 30 strayBlocks.toMirData 1 = .ok t ∧ t.ipdom 6 = none) ∧
      PostDomBuffers.Leaves strayBlocks.toMirData 6 ∧ 6 ∈ strayBlocks.funcBlocks 1 :=
  ⟨⟨_, rfl, by decide⟩, ⟨by decide, .inl (by decide)⟩, by decide⟩

end DssPrime
