import DssPrime.Mir.DomScratch
import DssPrime.Graph.Idom

/-!
# The fixpoint finds the immediate dominators

`ChkArrays.runChkCoreInto` on the reverse post-order of a graph refines a tree of parents
(`Graph.Refining`): an intersection finds the node where two ways to the root meet and never runs
out of its steps, since each step lowers the larger of two positions; a slot is relaxed to the node
at which its predecessors meet; and every round that changes something moves a slot up, so the
rounds end.
-/

namespace DssPrime

open DssPrime.Graph

namespace ChkArrays

/-- The indices are those of the order. -/
structure Indexed (order : List ℕ) (a : ChkArrays) : Prop where
  mem : ∀ v ∈ order, a.rpoIndex v = some (order.idxOf v)
  off : ∀ v, v ∉ order → a.rpoIndex v = none

def posIn (order : List ℕ) (v : ℕ) : ℕ := order.idxOf v

theorem index_foldl (l : List ℕ) (k : ℕ) (hn : l.Nodup) (a : ChkArrays) :
    (l.zipIdx k).foldl
        (fun a b => { a with rpoIndex := Function.update a.rpoIndex b.1 (some b.2) }) a =
      { a with rpoIndex := fun v => if v ∈ l then some (k + l.idxOf v) else a.rpoIndex v } := by
  induction l generalizing k a with
  | nil => simp
  | cons x l ih =>
    obtain ⟨hx, hn⟩ := List.nodup_cons.1 hn
    rw [List.zipIdx_cons, List.foldl_cons, ih (k + 1) hn]
    congr 1
    funext v
    by_cases hv : v = x
    · subst hv
      simp [hx]
    · by_cases hl : v ∈ l
      · simp [hl, hv, List.idxOf_cons_ne l (Ne.symm hv)]
        omega
      · simp [hl, hv]

theorem indexed_index {order : List ℕ} (hn : order.Nodup) :
    Indexed order (index order unset) ∧ (index order unset).idom = unset.idom ∧
      (index order unset).gaveUp = unset.gaveUp := by
  rw [index, index_foldl order 0 hn]
  refine ⟨⟨fun v hv => ?_, fun v hv => ?_⟩, rfl, rfl⟩
  · simp [hv]
  · simp [hv, unset]

section

variable {order : List ℕ} {root : ℕ} {a : ChkArrays} (hidx : Indexed order a)
  (T : Rooted {v | v ∈ order} (posIn order) root a.idom)

include hidx in
theorem Indexed.rpo_eq {v : ℕ} (hv : v ∈ order) : a.rpo v = posIn order v := by
  rw [rpo, hidx.mem v hv]
  rfl

include hidx in
theorem Indexed.ne_none {v : ℕ} (hv : v ∈ order) : a.rpoIndex v ≠ none := by
  rw [hidx.mem v hv]
  exact Option.some_ne_none _

include hidx T

theorem climb_spec {steps f g : ℕ} (hf : a.idom f ≠ none) (hg : a.idom g ≠ none)
    (hs : max (posIn order f) (posIn order g) ≤ steps) :
    ∃ f' steps', a.climb steps f g = some (f', steps') ∧ a.idom f' ≠ none ∧
      posIn order f' ≤ posIn order g ∧ posIn order f' ≤ posIn order f ∧ steps' ≤ steps ∧
      steps + posIn order g ≤ steps' + max (posIn order f) (posIn order g) ∧
      ∀ w, Above a.idom root w f ∧ Above a.idom root w g ↔
        Above a.idom root w f' ∧ Above a.idom root w g := by
  induction steps generalizing f with
  | zero =>
    have hle : ¬ posIn order g < posIn order f := by omega
    refine ⟨f, 0, ?_, hf, by omega, le_refl _, le_refl _, by omega, fun w => Iff.rfl⟩
    rw [climb, if_neg (by rwa [hidx.rpo_eq (T.mem f hf), hidx.rpo_eq (T.mem g hg)])]
  | succ steps ih =>
    by_cases hlt : posIn order g < posIn order f
    · obtain ⟨q, hq⟩ := Option.ne_none_iff_exists'.1 hf
      have hqn := T.up_ne f q hq
      obtain ⟨hr, -⟩ := T.above_climb (w := root) hg hlt hq
      have hqlt := T.pos_lt f q hr hq
      obtain ⟨f', steps', hc, hf', hle, hle', hst, hcost, habove⟩ := ih hqn (by omega)
      refine ⟨f', steps', ?_, hf', hle, by omega, by omega, by omega, fun w => ?_⟩
      · rw [climb, if_pos (by rwa [hidx.rpo_eq (T.mem f hf), hidx.rpo_eq (T.mem g hg)])]
        simp only [hq, if_neg (hidx.ne_none (T.mem q hqn))]
        exact hc
      · rw [(T.above_climb hg hlt hq).2, habove]
    · refine ⟨f, steps + 1, ?_, hf, by omega, le_refl _, le_refl _, by omega, fun w => Iff.rfl⟩
      rw [climb, if_neg (by rwa [hidx.rpo_eq (T.mem f hf), hidx.rpo_eq (T.mem g hg)])]

/-- **Twice the larger position is enough for an intersection**, which finds what is above
both. -/
theorem intersectLoop_spec {rounds steps f g : ℕ} (hf : a.idom f ≠ none) (hg : a.idom g ≠ none)
    (hs : 2 * max (posIn order f) (posIn order g) ≤ steps) (hr : steps ≤ rounds) :
    ∃ z, a.intersectLoop rounds steps f g = some z ∧ a.idom z ≠ none ∧
      ∀ w, Above a.idom root w z ↔ Above a.idom root w f ∧ Above a.idom root w g := by
  induction rounds generalizing steps f g with
  | zero =>
    obtain rfl : f = g := T.inj (T.mem f hf) (T.mem g hg) (by omega)
    obtain rfl : steps = 0 := by omega
    exact ⟨f, by rw [intersectLoop, if_pos rfl], hf, fun w => (and_self_iff).symm⟩
  | succ rounds ih =>
    by_cases hfg : f = g
    · subst hfg
      refine ⟨f, ?_, hf, fun w => (and_self_iff).symm⟩
      cases steps with
      | zero => rw [intersectLoop, if_pos rfl]
      | succ steps => rw [intersectLoop, if_pos rfl]
    · have hne : posIn order f ≠ posIn order g := fun he =>
        hfg (T.inj (T.mem f hf) (T.mem g hg) he)
      obtain ⟨steps, rfl⟩ : ∃ s, steps = s + 1 := ⟨steps - 1, by omega⟩
      obtain ⟨f', steps', hc, hf', hle, hle', hst, hcost, habove⟩ :=
        climb_spec hidx T hf hg (show max (posIn order f) (posIn order g) ≤ steps by omega)
      obtain ⟨g', steps'', hc', hg', hle₂, hle₂', hst', hcost', habove'⟩ :=
        climb_spec hidx T hg hf' (show max (posIn order g) (posIn order f') ≤ steps' by omega)
      obtain ⟨z, hz, hzn, hza⟩ :=
        ih hf' hg' (show 2 * max (posIn order f') (posIn order g') ≤ steps'' by omega) (by omega)
      refine ⟨z, ?_, hzn, fun w => ?_⟩
      · rw [intersectLoop, if_neg hfg, if_neg (not_or.2 ⟨hidx.ne_none (T.mem f hf),
          hidx.ne_none (T.mem g hg)⟩)]
        simp only [hc, hc']
        exact hz
      · rw [hza, habove]
        exact and_comm.trans ((habove' w).symm.trans and_comm)

def Candidate (a : ChkArrays) (root : ℕ) (ps : List ℕ) (o : Option ℕ) : Prop :=
  (o = none ∧ ∀ p ∈ ps, a.idom p = none) ∨
    ∃ q, o = some q ∧ a.idom q ≠ none ∧ (∃ p ∈ ps, a.idom p ≠ none) ∧
      ∀ w, Above a.idom root w q ↔ ∀ p ∈ ps, a.idom p ≠ none → Above a.idom root w p

theorem meet_spec {cap : ℕ} (hcap : 2 * order.length ≤ cap) {b p : ℕ} {ps : List ℕ}
    {o : Option ℕ} (ho : Candidate a root ps o) :
    ∃ o', meet cap b (o, a) p = (o', a) ∧ Candidate a root (ps ++ [p]) o' := by
  by_cases hp : a.idom p = none
  · refine ⟨o, ?_, ?_⟩
    · unfold meet
      simp only [hp, if_true, ite_self]
    · rcases ho with ⟨rfl, hps⟩ | ⟨q, rfl, hq, ⟨x, hx, hxn⟩, habove⟩
      · refine .inl ⟨rfl, fun x hx => ?_⟩
        rcases List.mem_append.1 hx with hx | hx
        · exact hps x hx
        · exact List.mem_singleton.1 hx ▸ hp
      · refine .inr ⟨q, rfl, hq, ⟨x, List.mem_append_left _ hx, hxn⟩, fun w => ?_⟩
        rw [habove, List.forall_mem_append, List.forall_mem_singleton]
        exact (and_iff_left fun hn => absurd hp hn).symm
  · have hpi := hidx.ne_none (T.mem p hp)
    rcases ho with ⟨rfl, hps⟩ | ⟨q, rfl, hq, -, habove⟩
    · refine ⟨some p, ?_, .inr ⟨p, rfl, hp, ⟨p, by simp, hp⟩, fun w => ?_⟩⟩
      · unfold meet
        simp only [if_neg hpi, if_neg hp]
      · rw [List.forall_mem_append, List.forall_mem_singleton]
        exact ⟨fun h => ⟨fun x hx hn => absurd (hps x hx) hn, fun _ => h⟩, fun h => h.2 hp⟩
    · have hle : ∀ {v}, a.idom v ≠ none → posIn order v < order.length := fun hv =>
        List.idxOf_lt_length_of_mem (T.mem _ hv)
      have h1 := hle hq
      have h2 := hle hp
      obtain ⟨z, hz, hzn, hza⟩ :=
        intersectLoop_spec hidx T hq hp
          (show 2 * max (posIn order q) (posIn order p) ≤ cap by omega) (le_refl cap)
      refine ⟨some z, ?_, .inr ⟨z, rfl, hzn, ⟨p, by simp, hp⟩, fun w => ?_⟩⟩
      · unfold meet
        simp only [if_neg hpi, if_neg hp, intersect, hz]
      · rw [hza, habove, List.forall_mem_append, List.forall_mem_singleton]
        exact and_congr_right fun _ => ⟨fun h _ => h, fun h => h hp⟩

theorem foldl_meet_spec {cap : ℕ} (hcap : 2 * order.length ≤ cap) (b : ℕ) (ps : List ℕ) :
    ∃ o, ps.foldl (meet cap b) (none, a) = (o, a) ∧ Candidate a root ps o := by
  induction ps using List.reverseRecOn with
  | nil => exact ⟨none, rfl, .inl ⟨rfl, by simp⟩⟩
  | append_singleton ps p ih =>
    obtain ⟨o, ho, hc⟩ := ih
    rw [List.foldl_append, ho]
    exact meet_spec hidx T hcap hc

end

section

variable {next : ℕ → List ℕ} {order : List ℕ} {root i b cap : ℕ} {preds : ℕ → List ℕ}
  {a : ChkArrays} (O : Ordered next {v | v ∈ order} (posIn order) root)
  (hcap : 2 * order.length ≤ cap)
  (hpreds : ∀ u ∈ order, ∀ v ∈ order, (u ∈ preds v ↔ v ∈ next u))

include O hcap hpreds

/-- **A slot is relaxed to the node at which its predecessors meet.** -/
theorem relax_spec (hidx : Indexed order a)
    (R : Refining next {v | v ∈ order} (posIn order) root i a.idom) (hb : b ∈ order)
    (hr : b ≠ root) (hi : posIn order b = i) (c : Bool) :
    ∃ q, Meets next root a.idom b q ∧ a.idom q ≠ none ∧
      relax cap preds (a, c) b =
        ({ a with idom := Function.update a.idom b (some q) },
          c || decide (a.idom b ≠ some q)) := by
  obtain ⟨o, ho, hc⟩ := foldl_meet_spec hidx R.toRooted hcap b (preds b)
  rcases hc with ⟨-, hnone⟩ | ⟨q, rfl, hq, -, habove⟩
  · -- the predecessor that comes earlier is in the tree
    obtain ⟨u, hu, hnext, hlt⟩ := O.parent b hb hr
    exact absurd (hnone u ((hpreds u hu b hb).2 hnext)) (R.done u hu (hi ▸ hlt))
  · refine ⟨q, fun w => (habove w).trans ⟨fun h u hu hnext => ?_, fun h p hp hn => ?_⟩, hq, ?_⟩
    · exact h u ((hpreds u (R.mem u hu) b hb).2 hnext) hu
    · exact h p hn ((hpreds p (R.mem p hn) b hb).1 hp)
    · unfold relax
      simp only [ho]
      by_cases hne : a.idom b = some q
      · rw [if_neg (fun h => h.2 hne), ← hne, Function.update_eq_self]
        simp
      · rw [if_pos ⟨Option.some_ne_none q, hne⟩]
        simp [hne]

/-- The sum of the positions of the dominators; a slot without one counts as the last. -/
def weight (order : List ℕ) (a : ChkArrays) : ℕ :=
  ∑ v ∈ order.toFinset, (a.idom v).elim order.length (posIn order)

theorem foldl_relax_spec (hn : order.Nodup) {pre l : List ℕ} (hsplit : order = pre ++ l)
    (hroot : root ∈ pre) (hidx : Indexed order a)
    (R : Refining next {v | v ∈ order} (posIn order) root pre.length a.idom) (c : Bool) :
    ∃ a' c', l.foldl (relax cap preds) (a, c) = (a', c') ∧ Indexed order a' ∧
      a'.gaveUp = a.gaveUp ∧
      Refining next {v | v ∈ order} (posIn order) root order.length a'.idom ∧
      (c' = false → c = false ∧ a' = a ∧
        ∀ b ∈ l, ∃ q, a.idom b = some q ∧ Meets next root a.idom b q) ∧
      weight order a' ≤ weight order a ∧
        (c' = true → c = true ∨ weight order a' < weight order a) := by
  induction l generalizing pre a c with
  | nil =>
    rw [List.append_nil] at hsplit
    exact ⟨a, c, rfl, hidx, rfl, hsplit ▸ R, fun h => ⟨h, rfl, by simp⟩, le_refl _, .inl⟩
  | cons b l ih =>
    have hb : b ∈ order := by rw [hsplit]; simp
    have hbpre : b ∉ pre := fun h => by
      rw [hsplit] at hn
      exact (List.disjoint_of_nodup_append hn) h List.mem_cons_self
    have hr : b ≠ root := fun h => hbpre (h ▸ hroot)
    have hi : posIn order b = pre.length := by
      rw [posIn, hsplit, List.idxOf_append_of_notMem hbpre, List.idxOf_cons_self, add_zero]
    obtain ⟨q, hm, hq, hrelax⟩ := relax_spec O hcap hpreds hidx R hb hr hi c
    have hstep := R.step O hb hr hi hq hm
    have hlow : a.idom b ≠ some q →
        weight order { a with idom := Function.update a.idom b (some q) } < weight order a :=
      fun hne => R.weight_lt (List.mem_toFinset.2 hb)
        (List.idxOf_lt_length_of_mem (R.mem q hq)) hne
        fun q₀ hq₀ => R.above_of_meets O hb hr hi hm hq₀
    obtain ⟨a', c', hfold, hidx', hgave, R', hsame, hle, hlt⟩ :=
      ih (a := { a with idom := Function.update a.idom b (some q) })
        (show order = (pre ++ [b]) ++ l by rw [hsplit]; simp) (List.mem_append_left _ hroot)
          ⟨hidx.mem, hidx.off⟩
        (by simpa using hstep) (c || decide (a.idom b ≠ some q))
    refine ⟨a', c', by rw [List.foldl_cons, hrelax, hfold], hidx', hgave, R', ?_, ?_, ?_⟩
    · intro hc'
      obtain ⟨hc, rfl, hl⟩ := hsame hc'
      have hbq : a.idom b = some q := by
        by_contra hne
        simp [hne] at hc
      have hsamea : ({ a with idom := Function.update a.idom b (some q) } : ChkArrays) = a := by
        rw [← hbq, Function.update_eq_self]
      rw [hsamea] at hl ⊢
      refine ⟨(Bool.or_eq_false_iff.1 hc).1, rfl, List.forall_mem_cons.2 ⟨⟨q, hbq, hm⟩, hl⟩⟩
    · by_cases hne : a.idom b = some q
      · refine hle.trans (le_of_eq ?_)
        rw [← hne, Function.update_eq_self]
      · exact hle.trans (hlow hne).le
    · intro hc'
      rcases hlt hc' with hc | hlt
      · rcases Bool.or_eq_true_iff.1 hc with hc | hne
        · exact .inl hc
        · exact .inr (lt_of_le_of_lt hle (hlow (of_decide_eq_true hne)))
      · refine .inr (lt_of_lt_of_le hlt ?_)
        by_cases hne : a.idom b = some q
        · rw [← hne, Function.update_eq_self]
        · exact (hlow hne).le

/-- **The rounds end**: every round that changes something lowers the weight. -/
theorem iterate_spec (hn : order.Nodup) {tl : List ℕ} (htl : order = root :: tl) (fuel : ℕ)
    (hidx : Indexed order a) (R : Refining next {v | v ∈ order} (posIn order) root 1 a.idom)
    (hf : weight order a < fuel) :
    ∃ a', iterate cap order preds fuel a = .ok a' ∧ a'.gaveUp = a.gaveUp ∧
      Refining next {v | v ∈ order} (posIn order) root order.length a'.idom ∧
      ∀ b ∈ order, b ≠ root → ∃ q, a'.idom b = some q ∧ Meets next root a'.idom b q := by
  induction fuel generalizing a with
  | zero => omega
  | succ fuel ih =>
    obtain ⟨a', c', hfold, hidx', hgave, R', hsame, -, hlt⟩ :=
      foldl_relax_spec O hcap hpreds hn (show order = [root] ++ tl from htl) (by simp) hidx R
        false
    have htail : order.tail = tl := by rw [htl]; rfl
    rw [iterate, htail, hfold]
    cases c' with
    | false =>
      obtain ⟨-, rfl, hmeets⟩ := hsame rfl
      refine ⟨a', rfl, rfl, R', fun b hb hr => hmeets b ?_⟩
      rw [htl] at hb
      exact (List.mem_cons.1 hb).resolve_left hr
    | true =>
      have hw := (hlt rfl).resolve_left (by simp)
      have hwrap := R'.wrap fun v hv => List.idxOf_lt_length_of_mem hv
      obtain ⟨a'', hit, hgave', hrest⟩ := ih hidx' hwrap (by omega)
      exact ⟨a'', hit, hgave'.trans hgave, hrest⟩

end

theorem ordered_walk {next : ℕ → List ℕ} {fuel root : ℕ} {order : List ℕ}
    (hwalk : PostOrder.walk next fuel root = some order) :
    Ordered next {v | v ∈ order} (posIn order) root ∧ ∃ tl, order = root :: tl := by
  have hroot : root ∈ order := (PostOrder.mem_iff hwalk).2 .refl
  have htl : ∃ tl, order = root :: tl := by
    cases horder : order with
    | nil => simp [horder] at hroot
    | cons x tl =>
      rcases PostOrder.parent hwalk (l := []) horder with rfl | ⟨u, hu, -⟩
      · exact ⟨tl, rfl⟩
      · simp at hu
  refine ⟨⟨?_, hroot, ?_, ?_, ?_⟩, htl⟩
  · obtain ⟨tl, rfl⟩ := htl
    exact List.idxOf_cons_self
  · intro u hu v hv
    exact (PostOrder.mem_iff hwalk).2 (((PostOrder.mem_iff hwalk).1 hu).tail hv)
  · intro u hu v _ he
    exact (List.idxOf_inj hu).1 he
  · intro v hv hr
    obtain ⟨l, t, hsplit⟩ := List.append_of_mem hv
    rcases PostOrder.parent hwalk hsplit with he | ⟨u, hu, hnext⟩
    · exact absurd he hr
    · have hn := PostOrder.nodup hwalk
      have hvl : v ∉ l := fun h => by
        rw [hsplit] at hn
        exact (List.disjoint_of_nodup_append hn) h List.mem_cons_self
      refine ⟨u, hsplit ▸ List.mem_append_left _ hu, hnext, ?_⟩
      rw [posIn, posIn, hsplit, List.idxOf_append_of_mem hu, List.idxOf_append_of_notMem hvl]
      have := List.idxOf_lt_length_of_mem hu
      omega

/-- **The fixpoint on a reverse post-order ends, gives nothing up and finds the immediate
dominators**, of any graph. -/
theorem runChkCoreInto_exact {next : ℕ → List ℕ} {wfuel nodeCount root : ℕ} {order : List ℕ}
    {preds : ℕ → List ℕ} (hwalk : PostOrder.walk next wfuel root = some order)
    (hlt : ∀ v ∈ order, v < nodeCount)
    (hpreds : ∀ u ∈ order, ∀ v ∈ order, (u ∈ preds v ↔ v ∈ next u)) :
    ∃ N, ∀ fuel ≥ N, ∃ core,
      unset.runChkCoreInto fuel nodeCount root order preds = .ok core ∧
        (∀ v, core.gaveUp v = false) ∧ IdomTree next root nodeCount core.idom := by
  obtain ⟨O, tl, htl⟩ := ordered_walk hwalk
  have hn := PostOrder.nodup hwalk
  obtain ⟨hidx, hidom, hgave⟩ := indexed_index hn
  set start : ChkArrays := { index order unset with
    idom := Function.update (index order unset).idom root (some root) } with hstart
  have hle : order.length ≤ nodeCount := by
    rw [← List.toFinset_card_of_nodup hn, ← Finset.card_range nodeCount]
    exact Finset.card_le_card fun v hv => Finset.mem_range.2 (hlt v (List.mem_toFinset.1 hv))
  have hcap : 2 * order.length ≤ nodeCount * 2 + 4 := by omega
  have R : Refining next {v | v ∈ order} (posIn order) root 1 start.idom := by
    rw [hstart, hidom]
    exact refining_start O
  refine ⟨weight order start + 1, fun fuel hfuel => ?_⟩
  obtain ⟨core, hrun, hgave', R', hmeets⟩ :=
    iterate_spec O hcap hpreds hn htl fuel (a := start) ⟨hidx.mem, hidx.off⟩ R (by omega)
  have hall : ∀ v ∈ order, core.idom v ≠ none := fun v hv =>
    R'.done v hv (List.idxOf_lt_length_of_mem hv)
  have hm : ∀ v ∈ order, v ≠ root → ∀ q, core.idom v = some q → Meets next root core.idom v q := by
    intro v hv hr q hq
    obtain ⟨q', hq', hmq⟩ := hmeets v hv hr
    rwa [Option.some.inj (hq.symm.trans hq')]
  refine ⟨core, ?_, fun v => ?_,
    ⟨posIn order, ?_, fun v hv => ?_⟩, fun v hv => ?_, fun v w hv => ?_⟩
  · rw [runChkCoreInto, if_neg (not_le.2 (hlt root O.root_mem))]
    exact hrun
  · rw [hgave', hstart, hgave]
    rfl
  · have hset : {v | v ∈ order} = {v | Worklist.Reaches next root v} :=
      Set.ext fun v => PostOrder.mem_iff hwalk
    exact hset ▸ R'.toRooted
  · have := List.idxOf_lt_length_of_mem ((PostOrder.mem_iff hwalk).2 hv)
    exact lt_of_lt_of_le this (by omega)
  · exact hall v ((PostOrder.mem_iff hwalk).2 hv)
  · exact R'.above_iff_dom O hall hm ((PostOrder.mem_iff hwalk).2 hv)

end ChkArrays

end DssPrime
