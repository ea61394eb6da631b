import DssPrime.Mir.Basic
import DssPrime.Graph.Dominance

/-!
# The control-flow graph of a module

The successor lists of the blocks are the edges; `mirBuildPredecessors` inverts them once for
the whole module, and `mirReversePostOrder` is the order in which most passes walk a function.
`Verified` is what the verifier has checked of a module when a pass runs.
-/

namespace DssPrime

def mirBuildPredecessors (m : MirData) : List (List ℕ) :=
  (List.range m.blockCount).map fun b =>
    (List.range m.blockCount).flatMap fun i =>
      if i = 0 then [] else ((m.blockSuccessors i).filter (· = b)).map fun _ => i

theorem mem_mirBuildPredecessors {m : MirData} {b i : ℕ} :
    i ∈ (mirBuildPredecessors m).getD b [] ↔
      b < m.blockCount ∧ i ≠ 0 ∧ i < m.blockCount ∧ b ∈ m.blockSuccessors i := by
  by_cases hb : b < m.blockCount
  · rw [mirBuildPredecessors, List.getD_eq_getElem?_getD, List.getElem?_map,
      List.getElem?_range hb]
    simp only [Option.map_some, Option.getD_some, List.mem_flatMap, List.mem_range]
    constructor
    · rintro ⟨j, hj, hi⟩
      split_ifs at hi with h0
      · simp at hi
      · simp only [List.mem_map, List.mem_filter, decide_eq_true_eq] at hi
        obtain ⟨x, ⟨hx, rfl⟩, rfl⟩ := hi
        exact ⟨hb, h0, hj, hx⟩
    · rintro ⟨-, h0, hi, hs⟩
      refine ⟨i, hi, ?_⟩
      rw [if_neg h0]
      exact List.mem_map.2 ⟨b, List.mem_filter.2 ⟨hs, by simp⟩, rfl⟩
  · have : (mirBuildPredecessors m).length ≤ b := by
      simpa [mirBuildPredecessors] using hb
    rw [List.getD_eq_getElem?_getD, List.getElem?_eq_none this]
    simp [hb]

theorem length_mirBuildPredecessors (m : MirData) :
    (mirBuildPredecessors m).length = m.blockCount := by
  simp [mirBuildPredecessors]

def cfgNext (m : MirData) (b : ℕ) : List ℕ := (m.blockSuccessors b).filter (· ≠ 0)

/-- The blocks reachable from `entry`, in reverse post-order.  The walk has no cap: one step per
block and edge of the module is enough. -/
def mirReversePostOrder (m : MirData) (entry : ℕ) : List ℕ :=
  if entry = 0 then []
  else (PostOrder.walk (cfgNext m)
    ((List.range m.blockCount).map fun b => (cfgNext m b).length + 1).sum entry).getD []

namespace Mir

variable (m : Mir)

theorem cfgNext_eq (b : ℕ) : cfgNext m.toMirData b = m.blockSuccessors b := by
  refine List.filter_eq_self.2 fun s hs => ?_
  simpa using (m.isBlock_of_mem_succs hs).2.1

theorem isBlock_funcEntry {f : ℕ} (hf : m.IsFunc f) :
    m.IsBlock (m.funcEntry f) ∧ m.blockFunc (m.funcEntry f) = f := by
  obtain ⟨h1, h2, h3⟩ := (m.funcBuilt hf).blocks
  have hpos := Nat.pos_of_ne_zero h1
  exact ⟨⟨h2, lt_of_lt_of_le (Nat.lt_add_of_pos_right hpos) h3⟩,
    (m.funcBuilt hf).owner _ (m.mem_funcBlocks.2 ⟨le_refl _, Nat.lt_add_of_pos_right hpos⟩)⟩

theorem walk_mirReversePostOrder {entry : ℕ} (he : m.IsBlock entry) :
    ∃ fuel, PostOrder.walk m.blockSuccessors fuel entry =
      some (mirReversePostOrder m.toMirData entry) := by
  have hnext : cfgNext m.toMirData = m.blockSuccessors := funext m.cfgNext_eq
  set fuel := ((List.range m.blockCount).map fun b => (m.blockSuccessors b).length + 1).sum
    with hfuel
  have hsum : ∑ x ∈ Finset.range m.blockCount, ((m.blockSuccessors x).length + 1) ≤ fuel :=
    le_of_eq rfl
  obtain ⟨r, hr⟩ := PostOrder.walk_isSome
    (fun x _ y hy => Finset.mem_range.2 (m.isBlock_of_mem_succs hy).2.2)
    (Finset.mem_range.2 he.2) hsum
  refine ⟨fuel, ?_⟩
  rw [mirReversePostOrder, if_neg he.1, hnext, ← hfuel, hr]
  rfl

theorem mem_mirReversePostOrder {entry b : ℕ} (he : m.IsBlock entry) :
    b ∈ mirReversePostOrder m.toMirData entry ↔ Worklist.Reaches m.blockSuccessors entry b := by
  obtain ⟨fuel, h⟩ := m.walk_mirReversePostOrder he
  exact PostOrder.mem_iff h

theorem isBlock_of_reaches {b c : ℕ} (hb : m.IsBlock b)
    (h : Worklist.Reaches m.blockSuccessors b c) :
    m.IsBlock c ∧ m.blockFunc c = m.blockFunc b := by
  induction h with
  | refl => exact ⟨hb, rfl⟩
  | tail _ hcd ih =>
    have hs := (m.blockBuilt ih.1).succs _ hcd
    exact ⟨hs.1, hs.2.trans ih.2⟩

end Mir

def MirData.DomBlock (m : MirData) (d b : ℕ) : Prop :=
  Graph.Dom m.blockSuccessors (m.funcEntry (m.blockFunc b)) d b

/-- The definition `o` comes before the use `u`: earlier in the same block, or in a block that
dominates the block of the use and is laid out before it. -/
def MirData.DefBeforeUse (m : MirData) (o u : ℕ) : Prop :=
  if m.instBlock o = m.instBlock u then o < u
  else m.DomBlock (m.instBlock o) (m.instBlock u) ∧ m.instBlock o < m.instBlock u

/-- What the verifier has checked of the control flow and the definitions of a module. -/
structure Verified (m : Mir) : Prop where
  reachable : ∀ f, m.IsFunc f → ∀ b ∈ m.funcBlocks f,
    Worklist.Reaches m.blockSuccessors (m.funcEntry f) b
  operands : ∀ u, m.IsInst u → m.instOpcode u ≠ .phi → ∀ o ∈ m.instOperands u,
    m.DefBeforeUse o u
  /-- Phis name predecessors, and their values are defined where the edge starts. -/
  phis : ∀ u, m.IsInst u → ∀ inc ∈ m.phiIncomings u,
    m.instBlock u ∈ m.blockSuccessors inc.pred ∧ m.DomBlock (m.instBlock inc.value) inc.pred

end DssPrime
