import DssPrime.Mir.DomExact

/-!
# The dominator tree of a function

A block that the entry does not reach is not in the tree. Every block dominates it, there being no
path to it, but the query denies that of all but the block itself.
-/

namespace DssPrime

open DssPrime.Graph

theorem idomWalk_eq {S : Set ℕ} {pos : ℕ → ℕ} {root : ℕ} {idom : ℕ → Option ℕ}
    (T : Rooted S pos root idom) (h0 : 0 ∉ S) {a b steps : ℕ} (hb : idom b ≠ none)
    (hs : pos b ≤ steps) :
    (Above idom root a b ∧ a ≠ b → idomWalk idom a steps b = .dominates) ∧
      (¬ (Above idom root a b ∧ a ≠ b) → idomWalk idom a steps b = .doesNot) := by
  induction steps generalizing b with
  | zero =>
    have hroot : b = root := by
      by_contra hr
      obtain ⟨q, hq⟩ := Option.ne_none_iff_exists'.1 hb
      have := T.pos_lt b q hr hq
      omega
    subst hroot
    refine ⟨fun h => absurd (above_root_iff.1 h.1) h.2, fun _ => ?_⟩
    rw [idomWalk]
    simp only [T.root_up, or_true, if_true]
  | succ steps ih =>
    by_cases hr : b = root
    · subst hr
      refine ⟨fun h => absurd (above_root_iff.1 h.1) h.2, fun _ => ?_⟩
      rw [idomWalk]
      simp only [T.root_up, or_true, if_true]
    · obtain ⟨q, hq⟩ := Option.ne_none_iff_exists'.1 hb
      have hqn := T.up_ne b q hq
      have hlt := T.pos_lt b q hr hq
      have hq0 : ¬ (q = 0 ∨ q = b) := by
        rintro (rfl | rfl)
        · exact h0 (T.mem _ hqn)
        · omega
      have hwalk : idomWalk idom a (steps + 1) b =
          if q = a then .dominates else idomWalk idom a steps q := by
        rw [idomWalk]
        simp only [hq, if_neg hq0]
      rw [hwalk]
      obtain ⟨h1, h2⟩ := ih (b := q) hqn (by omega)
      by_cases hqa : q = a
      · subst hqa
        refine ⟨fun _ => if_pos rfl, fun h => absurd ⟨.up hr hq .here, ?_⟩ h⟩
        rintro rfl
        omega
      · have hiff : Above idom root a b ∧ a ≠ b ↔ Above idom root a q ∧ a ≠ q := by
          rw [above_iff_of_up hr hq]
          constructor
          · rintro ⟨rfl | h, hne⟩
            · exact absurd rfl hne
            · exact ⟨h, Ne.symm hqa⟩
          · rintro ⟨h, -⟩
            refine ⟨.inr h, ?_⟩
            rintro rfl
            have := T.pos_le h
            omega
        rw [if_neg hqa, hiff]
        exact ⟨h1, h2⟩

namespace Mir

variable (m : Mir)

theorem mem_order_lt {entry : ℕ} (he : m.IsBlock entry) :
    ∀ b ∈ mirReversePostOrder m.toMirData entry, b < m.blockCount := fun _ hb =>
  (m.isBlock_of_reaches he ((m.mem_mirReversePostOrder he).1 hb)).1.2

def domInput (moduleId entry : ℕ) (he : m.IsBlock entry) : MirDomInput where
  moduleId := moduleId
  blockCount := m.blockCount
  entry := entry
  order := mirReversePostOrder m.toMirData entry
  preds := mirBuildPredecessors m.toMirData
  order_lt := m.mem_order_lt he

theorem mem_preds {u v : ℕ} (hu : m.IsBlock u) :
    u ∈ (mirBuildPredecessors m.toMirData).getD v [] ↔ v ∈ m.blockSuccessors u := by
  rw [mem_mirBuildPredecessors]
  exact ⟨fun h => h.2.2.2, fun h => ⟨(m.isBlock_of_mem_succs h).2.2, hu.1, hu.2, h⟩⟩

theorem isBlock_of_mem_preds {u v : ℕ}
    (hu : u ∈ (mirBuildPredecessors m.toMirData).getD v []) : m.IsBlock u := by
  obtain ⟨-, h0, hlt, -⟩ := mem_mirBuildPredecessors.1 hu
  exact ⟨h0, hlt⟩

theorem runChkCoreInto_spec {entry : ℕ} (he : m.IsBlock entry) :
    ∃ N, ∀ fuel ≥ N, ∃ core,
      ChkArrays.unset.runChkCoreInto fuel m.blockCount entry
          (mirReversePostOrder m.toMirData entry)
          (fun b => (mirBuildPredecessors m.toMirData).getD b []) = .ok core ∧
        (∀ b, core.gaveUp b = false) ∧
        IdomTree m.blockSuccessors entry m.blockCount core.idom := by
  obtain ⟨wfuel, hwalk⟩ := m.walk_mirReversePostOrder he
  refine ChkArrays.runChkCoreInto_exact hwalk (m.mem_order_lt he) fun u hu v _ => ?_
  exact m.mem_preds (m.isBlock_of_reaches he ((m.mem_mirReversePostOrder he).1 hu)).1

theorem computeMirDomTree_of_core {moduleId entry fuel : ℕ} (he : m.IsBlock entry)
    {core : ChkArrays}
    (hrun : ChkArrays.unset.runChkCoreInto fuel m.blockCount entry
      (mirReversePostOrder m.toMirData entry)
      (fun b => (mirBuildPredecessors m.toMirData).getD b []) = .ok core)
    (hgave : ∀ b, core.gaveUp b = false)
    (T : IdomTree m.blockSuccessors entry m.blockCount core.idom) :
    computeMirDomTree fuel (m.domInput moduleId entry he) =
      .ok ⟨m.blockCount, core.idom, fun _ => false⟩ := by
  have hidom : (fun s => if s ∈ List.range m.blockCount then core.idom s else none) =
      core.idom := by
    funext s
    by_cases hs : s < m.blockCount
    · rw [if_pos (List.mem_range.2 hs)]
    · rw [if_neg (fun h => hs (List.mem_range.1 h)), T.off fun h =>
        hs (m.isBlock_of_reaches he h).1.2]
  have hne : ¬ (m.domInput moduleId entry he).entry = 0 := he.1
  rw [computeMirDomTree, if_neg hne]
  have hgv : (fun s => if s ∈ List.range m.blockCount then core.gaveUp s else false) =
      fun _ => false := funext fun s => by rw [hgave, ite_self]
  simp only [domInput, hrun, MirDomTree.foldl_take, MirDomTree.unset]
  exact congrArg₂ (fun i g => Except.ok (MirDomTree.mk m.blockCount i g)) hidom hgv

/-- **The dominator tree of a function.** -/
theorem computeMirDomTree_spec {entry : ℕ} (he : m.IsBlock entry) (moduleId : ℕ) :
    ∃ N, ∀ fuel ≥ N, ∃ t, computeMirDomTree fuel (m.domInput moduleId entry he) = .ok t ∧
      t.size = m.blockCount ∧ (∀ b, t.gaveUp b = false) ∧
      IdomTree m.blockSuccessors entry m.blockCount t.idom := by
  obtain ⟨N, hN⟩ := m.runChkCoreInto_spec he
  refine ⟨N, fun fuel hfuel => ?_⟩
  obtain ⟨core, hrun, hgave, T⟩ := hN fuel hfuel
  exact ⟨_, m.computeMirDomTree_of_core he hrun hgave T, rfl, fun _ => rfl, T⟩

/-- **The query on the tree.** -/
theorem mirDominatesBlock_spec {entry : ℕ} (he : m.IsBlock entry) {t : MirDomTree}
    (hsize : t.size = m.blockCount) (T : IdomTree m.blockSuccessors entry m.blockCount t.idom)
    (a b : ℕ) :
    mirDominatesBlock a b t ≠ .gaveUp ∧
      (Worklist.Reaches m.blockSuccessors entry b →
        (mirDominatesBlock a b t = .dominates ↔ Dom m.blockSuccessors entry a b)) ∧
      (¬ Worklist.Reaches m.blockSuccessors entry b →
        (mirDominatesBlock a b t = .dominates ↔ a = b ∧ b ≠ 0)) := by
  have hblock : ∀ {v}, Worklist.Reaches m.blockSuccessors entry v → m.IsBlock v := fun hv =>
    (m.isBlock_of_reaches he hv).1
  obtain ⟨pos, hT, hpos⟩ := T.rooted
  unfold mirDominatesBlock
  by_cases h0 : a = 0 ∨ b = 0
  · rw [if_pos h0]
    refine ⟨by simp, fun hb => ?_, fun _ => ?_⟩
    · have hb0 := (hblock hb).1
      have ha0 := h0.resolve_right hb0
      simp only [reduceCtorEq, false_iff]
      intro hd
      exact (hblock (hd.reaches hb)).1 ha0
    · simp only [reduceCtorEq, false_iff]
      rintro ⟨rfl, hb0⟩
      exact hb0 (h0.elim id id)
  rw [if_neg h0]
  obtain ⟨ha0, hb0⟩ := not_or.1 h0
  by_cases hab : a = b
  · subst hab
    rw [if_pos rfl]
    exact ⟨by simp, fun _ => iff_of_true rfl (Dom.refl a), fun _ => iff_of_true rfl ⟨rfl, hb0⟩⟩
  rw [if_neg hab]
  by_cases hb : Worklist.Reaches m.blockSuccessors entry b
  · rw [if_neg (by rw [hsize]; exact not_le.2 (hblock hb).2)]
    have hz : (0 : ℕ) ∉ {v | Worklist.Reaches m.blockSuccessors entry v} := fun h =>
      (hblock h).1 rfl
    have hle := hpos b hb
    obtain ⟨h1, h2⟩ := idomWalk_eq hT hz (a := a) (T.reached b hb)
      (show pos b ≤ t.size + 2 by omega)
    rw [T.above_iff b a hb] at h1 h2
    by_cases hd : Dom m.blockSuccessors entry a b
    · rw [h1 ⟨hd, hab⟩]
      exact ⟨by simp, fun _ => iff_of_true rfl hd, fun hn => absurd hb hn⟩
    · rw [h2 fun h => hd h.1]
      exact ⟨by simp, fun _ => iff_of_false (by simp) hd, fun hn => absurd hb hn⟩
  · have hwalk : (if b ≥ t.size then MirDomResult.doesNot else idomWalk t.idom a (t.size + 2) b) =
        .doesNot := by
      split_ifs
      · rfl
      · rw [idomWalk]
        simp only [T.off hb]
    rw [hwalk]
    exact ⟨by simp, fun h => absurd h hb, fun _ => iff_of_false (by simp) fun h => hab h.1⟩

/-- **The dominators of a function are exact.**  The fixpoint ends, gives nothing up and stores
for every block that the entry reaches its one immediate dominator; the query on the tree answers
for such a block whether every path from the entry goes through the other one. -/
theorem computeMirDomTree_exact {entry : ℕ} (he : m.IsBlock entry) (moduleId : ℕ) :
    ∃ N, ∀ fuel ≥ N, ∃ core t,
      ChkArrays.unset.runChkCoreInto fuel m.blockCount entry
          (mirReversePostOrder m.toMirData entry)
          (fun b => (mirBuildPredecessors m.toMirData).getD b []) = .ok core ∧
        computeMirDomTree fuel (m.domInput moduleId entry he) = .ok t ∧
        (∀ b, core.gaveUp b = false ∧ t.gaveUp b = false ∧ t.idom b = core.idom b) ∧
        core.idom entry = some entry ∧
        (∀ b, Worklist.Reaches m.blockSuccessors entry b → b ≠ entry →
          (∃ d, core.idom b = some d) ∧
            ∀ d, core.idom b = some d ↔ IsIdom m.blockSuccessors entry d b) ∧
        (∀ b, ¬ Worklist.Reaches m.blockSuccessors entry b → core.idom b = none) ∧
        ∀ a b, mirDominatesBlock a b t ≠ .gaveUp ∧
          (Worklist.Reaches m.blockSuccessors entry b →
            (mirDominatesBlock a b t = .dominates ↔ Dom m.blockSuccessors entry a b)) ∧
          (¬ Worklist.Reaches m.blockSuccessors entry b →
            (mirDominatesBlock a b t = .dominates ↔ a = b ∧ b ≠ 0)) := by
  obtain ⟨N, hN⟩ := m.runChkCoreInto_spec he
  refine ⟨N, fun fuel hfuel => ?_⟩
  obtain ⟨core, hrun, hgave, T⟩ := hN fuel hfuel
  refine ⟨core, _, hrun, m.computeMirDomTree_of_core he hrun hgave T,
    fun b => ⟨hgave b, rfl, rfl⟩, T.root_up, fun b hb hr => ⟨?_, ?_⟩, fun b hb => T.off hb, ?_⟩
  · exact Option.ne_none_iff_exists'.1 (T.reached b hb)
  · exact fun d => T.up_eq_some_iff hb hr
  · exact m.mirDominatesBlock_spec he rfl T

end Mir

/-- A function whose blocks `2` and `3` are a loop, with two blocks that the entry does not
reach: `5` jumps into the loop and `6` returns. -/
def strayBlocks : Mir where
  insts := [default, { (default : MirInst) with opcode := .br },
    { (default : MirInst) with opcode := .const },
    { (default : MirInst) with opcode := .condBr, operands := [2] },
    { (default : MirInst) with opcode := .br }, { (default : MirInst) with opcode := .ret },
    { (default : MirInst) with opcode := .br }, { (default : MirInst) with opcode := .ret }]
  instBlocks := [0, 1, 2, 2, 3, 4, 5, 6]
  blocks := [default, ⟨1, 1, [2], 1⟩, ⟨2, 2, [3, 4], 1⟩, ⟨4, 1, [2], 1⟩, ⟨5, 1, [], 1⟩,
    ⟨6, 1, [3], 1⟩, ⟨7, 1, [], 1⟩]
  funcs := [default, { (default : MirFunc) with blockStart := 1, blockCount := 6 }]
  globals := []
  literals := []
  aliasingMode := .permissive
  charTypesAliasAll := true
  built := by decide

theorem computeMirDomTree_exact_strayBlocks :
    strayBlocks.IsBlock 1 ∧ ∃ N, ∀ fuel ≥ N, ∃ core t,
      ChkArrays.unset.runChkCoreInto fuel 7 1 [1, 2, 4, 3]
          (fun b => (mirBuildPredecessors strayBlocks.toMirData).getD b []) = .ok core ∧
        computeMirDomTree fuel (strayBlocks.domInput 1 1 (by decide)) = .ok t ∧
        (∃ d, core.idom 3 = some d ∧ IsIdom strayBlocks.blockSuccessors 1 d 3) ∧
        core.idom 6 = none ∧
        ∀ a, mirDominatesBlock a 3 t = .dominates ↔ Dom strayBlocks.blockSuccessors 1 a 3 := by
  have he : strayBlocks.IsBlock 1 := by decide
  refine ⟨he, ?_⟩
  obtain ⟨N, hN⟩ := strayBlocks.computeMirDomTree_exact he 1
  refine ⟨N, fun fuel hfuel => ?_⟩
  obtain ⟨core, t, hcore, ht, -, -, hidom, hnone, hquery⟩ := hN fuel hfuel
  have h3 := (strayBlocks.mem_mirReversePostOrder he).1 (show 3 ∈ _ by decide)
  have h6 : ¬ Worklist.Reaches strayBlocks.blockSuccessors 1 6 := fun h =>
    absurd ((strayBlocks.mem_mirReversePostOrder he).2 h) (by decide)
  obtain ⟨⟨d, hd⟩, hiff⟩ := hidom 3 h3 (by decide)
  exact ⟨core, t, hcore, ht, ⟨d, hd, (hiff d).1 hd⟩, hnone 6 h6, fun a => (hquery a 3).2.1 h3⟩

/-- The entry dominates a block that it does not reach, and the query denies it. -/
theorem mirDominatesBlock_unreached :
    ∃ t, computeMirDomTree 4 (strayBlocks.domInput 1 1 (by decide)) = .ok t ∧
      mirDominatesBlock 1 6 t = .doesNot ∧ Dom strayBlocks.blockSuccessors 1 1 6 :=
  ⟨_, rfl, by decide, dom_entry 6⟩

end DssPrime
