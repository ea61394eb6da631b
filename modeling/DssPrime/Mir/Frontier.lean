import DssPrime.Mir.DomTreeExact

/-!
# The dominance frontier

The frontier is computed by climbing from the predecessors of every block with at least two of them.
For a block that is not the entry this finds the frontier as it is defined: with one predecessor the
climb has nothing to do. The entry is different. One edge back to it is enough to put it into the
frontier of every block it dominates, the entry among them, and the climb, which stops at the
dominator of the join, cannot get to the entry itself.

The iterated frontier is the least set that holds the frontiers of its roots and is closed under
taking frontiers (`mirIteratedDominanceFrontier_isLeast`).
-/

namespace DssPrime

open DssPrime.Graph

namespace Graph

/-- Block `y` is in the frontier of `b`: `b` dominates a predecessor of `y` that the entry
reaches and does not strictly dominate `y`. -/
def InFrontier {α : Type*} (next : α → List α) (entry b y : α) : Prop :=
  ∃ p, Worklist.Reaches next entry p ∧ y ∈ next p ∧ Dom next entry b p ∧
    ¬ (Dom next entry b y ∧ b ≠ y)

variable {α : Type*} {next : α → List α} {entry b d p y : α}

theorem IsIdom.strict_iff (h : IsIdom next entry d y) (hy : Worklist.Reaches next entry y) :
    Dom next entry b y ∧ b ≠ y ↔ Dom next entry b d := by
  refine ⟨fun hb => h.closest b hb.1 hb.2, fun hb => ⟨hb.trans h.dom, ?_⟩⟩
  rintro rfl
  exact h.ne (h.dom.antisymm hb hy)

theorem isIdom_of_pred_unique (hy : Worklist.Reaches next entry y) (hne : y ≠ entry)
    (hp : ∀ u, y ∈ next u → u = p) : IsIdom next entry p y where
  dom hav := by
    cases hav with
    | entry => exact hne rfl
    | step hu hnext _ => exact hu.ne (hp _ hnext)
  ne := by
    rintro rfl
    -- a node that only itself leads to is not reached
    have key : ∀ v, Worklist.Reaches next entry v → v ≠ p := by
      intro v hv
      induction hv with
      | refl => exact Ne.symm hne
      | tail _ hnext ih =>
        rintro rfl
        exact ih (hp _ hnext)
    exact key p hy rfl
  closest w hw hwy := by
    rcases Relation.ReflTransGen.cases_tail hy with he | ⟨u, -, hu⟩
    · exact absurd he.symm (Ne.symm hne)
    · exact hp u hu ▸ hw.pred hwy hu

end Graph

namespace MirFrontier

theorem mem_push {F : MirFrontier} {slot b s z : ℕ} :
    z ∈ (F.push slot b).df s ↔ z ∈ F.df s ∨ z = b ∧ s = slot := by
  unfold push
  by_cases hs : s = slot
  · subst hs
    simp
  · simp [hs]

section

variable {S : Set ℕ} {pos : ℕ → ℕ} {root : ℕ} {t : MirDomTree} (T : Rooted S pos root t.idom)
  (h0 : 0 ∉ S)

include T h0

theorem climb_spec {b d runner steps : ℕ} (hr : t.idom runner ≠ none)
    (hd : Above t.idom root d runner) (hs : pos runner ≤ steps) (F : MirFrontier) :
    ∃ F', climb t b d steps runner F = .ok F' ∧
      ∀ s z, z ∈ F'.df s ↔
        z ∈ F.df s ∨ z = b ∧ Above t.idom root s runner ∧ ¬ Above t.idom root s d := by
  induction steps generalizing runner F with
  | zero =>
    have hroot : runner = root := by
      by_contra hne
      obtain ⟨q, hq⟩ := Option.ne_none_iff_exists'.1 hr
      have := T.pos_lt runner q hne hq
      omega
    subst hroot
    obtain rfl := above_root_iff.1 hd
    refine ⟨F, ?_, fun s z => ⟨.inl, fun h => h.elim id fun h => absurd h.2.1 h.2.2⟩⟩
    rw [climb, if_neg (fun h => h.2 rfl)]
  | succ steps ih =>
    by_cases hrd : runner = d
    · subst hrd
      refine ⟨F, ?_, fun s z => ⟨.inl, fun h => h.elim id fun h => absurd h.2.1 h.2.2⟩⟩
      rw [climb, if_neg (fun h => h.2 rfl)]
    · have hroot : runner ≠ root := by
        rintro rfl
        exact hrd (above_root_iff.1 hd).symm
      obtain ⟨q, hq⟩ := Option.ne_none_iff_exists'.1 hr
      have hdq := ((above_iff_of_up hroot hq).1 hd).resolve_left (Ne.symm hrd)
      have hqn := T.up_ne runner q hq
      have hlt := T.pos_lt runner q hroot hq
      have hr0 : runner ≠ 0 := fun h => h0 (h ▸ T.mem runner hr)
      have hq0 : ¬ (q = 0 ∨ q = runner) := by
        rintro (rfl | rfl)
        · exact h0 (T.mem _ hqn)
        · omega
      obtain ⟨F', hF', hmem⟩ := ih hqn hdq (by omega) (F.push runner b)
      refine ⟨F', ?_, fun s z => ?_⟩
      · rw [climb, if_pos ⟨hr0, hrd⟩]
        simp only [hq, if_neg hq0]
        exact hF'
      · have hnd : ¬ Above t.idom root runner d := fun h => by
          have := T.pos_le h
          have := T.pos_le hdq
          omega
        rw [hmem, mem_push, above_iff_of_up hroot hq]
        constructor
        · rintro ((h | ⟨rfl, rfl⟩) | ⟨rfl, h, hn⟩)
          · exact .inl h
          · exact .inr ⟨rfl, .inl rfl, hnd⟩
          · exact .inr ⟨rfl, .inr h, hn⟩
        · rintro (h | ⟨rfl, rfl | h, hn⟩)
          · exact .inl (.inl h)
          · exact .inl (.inr ⟨rfl, rfl⟩)
          · exact .inr ⟨rfl, h, hn⟩

omit T h0 in
theorem climb_off {b d runner steps : ℕ} (hr : t.idom runner = none) (hr0 : runner ≠ 0)
    (hrd : runner ≠ d) (F : MirFrontier) :
    climb t b d (steps + 1) runner F = .ok (F.push runner b) := by
  rw [climb, if_pos ⟨hr0, hrd⟩]
  simp only [hr]

theorem foldlM_climb_spec {b d steps : ℕ} (hd : t.idom d ≠ none)
    (hs : ∀ v, t.idom v ≠ none → pos v ≤ steps + 1) (ps : List ℕ)
    (hps : ∀ p ∈ ps, p ≠ 0 ∧ (t.idom p ≠ none → Above t.idom root d p)) (F : MirFrontier) :
    ∃ F', ps.foldlM (fun F p => climb t b d (steps + 1) p F) F = .ok F' ∧
      ∀ s, t.idom s ≠ none → ∀ z, z ∈ F'.df s ↔ z ∈ F.df s ∨ z = b ∧
        ∃ p ∈ ps, t.idom p ≠ none ∧ Above t.idom root s p ∧ ¬ Above t.idom root s d := by
  induction ps generalizing F with
  | nil => exact ⟨F, rfl, fun s _ z => by simp⟩
  | cons p ps ih =>
    obtain ⟨⟨hp0, hp⟩, hps⟩ := List.forall_mem_cons.1 hps
    obtain ⟨F₁, hF₁, hmem₁⟩ : ∃ F₁, climb t b d (steps + 1) p F = .ok F₁ ∧
        ∀ s, t.idom s ≠ none → ∀ z, z ∈ F₁.df s ↔ z ∈ F.df s ∨ z = b ∧
          t.idom p ≠ none ∧ Above t.idom root s p ∧ ¬ Above t.idom root s d := by
      by_cases hpn : t.idom p = none
      · refine ⟨_, climb_off hpn hp0 (by rintro rfl; exact hd hpn) F, fun s hs z => ?_⟩
        rw [mem_push]
        refine or_congr_right (iff_of_false ?_ fun h => h.2.1 hpn)
        rintro ⟨-, rfl⟩
        exact hs hpn
      · obtain ⟨F₁, hF₁, hmem⟩ := climb_spec T h0 (b := b) hpn (hp hpn) (hs p hpn) F
        refine ⟨F₁, hF₁, fun s _ z => ?_⟩
        rw [hmem, and_iff_right (b := Above t.idom root s p ∧ _) hpn]
    obtain ⟨F', hF', hmem⟩ := ih hps F₁
    refine ⟨F', ?_, fun s hsn z => ?_⟩
    · rw [List.foldlM_cons, hF₁]
      exact hF'
    · rw [hmem s hsn, hmem₁ s hsn, List.exists_mem_cons_iff, or_assoc, ← and_or_left]

end

end MirFrontier

namespace Mir

variable (m : Mir)

def Climbed (entry : ℕ) (idom : ℕ → Option ℕ) (i s : ℕ) : Prop :=
  2 ≤ ((mirBuildPredecessors m.toMirData).getD i []).length ∧ ∃ d, idom i = some d ∧
    ∃ p, Worklist.Reaches m.blockSuccessors entry p ∧ i ∈ m.blockSuccessors p ∧
      Dom m.blockSuccessors entry s p ∧ ¬ Dom m.blockSuccessors entry s d

section

variable {entry : ℕ} (he : m.IsBlock entry) {t : MirDomTree} (hsize : t.size = m.blockCount)
  (hgave : ∀ b, t.gaveUp b = false)
  (T : IdomTree m.blockSuccessors entry m.blockCount t.idom)

include T

theorem reaches_iff {v : ℕ} : t.idom v ≠ none ↔ Worklist.Reaches m.blockSuccessors entry v := by
  refine ⟨fun h => ?_, T.reached v⟩
  by_contra hv
  exact h (T.off hv)

include he hsize hgave

omit he hsize hgave in
theorem above_idom_of_pred {i d : ℕ} (hid : t.idom i = some d) {p : ℕ}
    (hp : p ∈ (mirBuildPredecessors m.toMirData).getD i []) :
    p ≠ 0 ∧ (t.idom p ≠ none → Above t.idom entry d p) := by
  have hpb := m.isBlock_of_mem_preds hp
  refine ⟨hpb.1, fun hpn => ?_⟩
  have hpr := (m.reaches_iff T).1 hpn
  rw [T.above_iff p d hpr]
  by_cases hie : i = entry
  · subst hie
    obtain rfl := Option.some.inj (T.root_up.symm.trans hid)
    exact dom_entry p
  · have hidom := T.isIdom hie hid
    exact hidom.dom.pred hidom.ne ((m.mem_preds hpb).1 hp)

theorem contribution_spec (i : ℕ) (F : MirFrontier) :
    ∃ F', MirFrontier.contribution t (mirBuildPredecessors m.toMirData) F i = .ok F' ∧
      ∀ s, Worklist.Reaches m.blockSuccessors entry s → ∀ z, z ∈ F'.df s ↔
        z ∈ F.df s ∨ z = i ∧ m.Climbed entry t.idom i s := by
  have hblock : ∀ {v}, Worklist.Reaches m.blockSuccessors entry v → m.IsBlock v := fun hv =>
    (m.isBlock_of_reaches he hv).1
  obtain ⟨pos, hT, hpos⟩ := T.rooted
  have hz : (0 : ℕ) ∉ {v | Worklist.Reaches m.blockSuccessors entry v} := fun h =>
    (hblock h).1 rfl
  have hskip : (∀ s, ¬ m.Climbed entry t.idom i s) → ∀ s,
      Worklist.Reaches m.blockSuccessors entry s → ∀ z, z ∈ F.df s ↔
        z ∈ F.df s ∨ z = i ∧ m.Climbed entry t.idom i s := fun hno s _ z =>
    (or_iff_left fun h => hno s h.2).symm
  cases hid : t.idom i with
  | none =>
    refine ⟨F, ?_, hskip ?_⟩
    · rw [MirFrontier.contribution, MirDomTree.validIdom, hid]
      simp
    · rintro s ⟨-, d, hd, -⟩
      simp [hid] at hd
  | some d =>
    have hi : Worklist.Reaches m.blockSuccessors entry i :=
      hT.mem i (hid ▸ Option.some_ne_none d)
    have hib := hblock hi
    have hdr := hT.mem d (hT.up_ne i d hid)
    by_cases hlen : ((mirBuildPredecessors m.toMirData).getD i []).length < 2
    · refine ⟨F, ?_, hskip fun s h => absurd h.1 (by omega)⟩
      rw [MirFrontier.contribution, if_neg (by have := hib.1; omega),
        if_neg (by simp [hgave])]
      exact if_pos hlen
    · have hvalid : t.validIdom i = some d := by
        rw [MirDomTree.validIdom, if_pos (by rw [hsize]; exact hib.2), hid]
        exact Option.filter_some_pos (by simpa using (hblock hdr).1)
      have hps : ∀ p ∈ (mirBuildPredecessors m.toMirData).getD i [],
          p ≠ 0 ∧ (t.idom p ≠ none → Above t.idom entry d p) := fun p hp =>
        m.above_idom_of_pred T hid hp
      have hcap : ∀ v, t.idom v ≠ none → pos v ≤ t.size * 2 + 3 + 1 := fun v hv => by
        have := hpos v (hT.mem v hv)
        omega
      obtain ⟨F', hF', hmem⟩ :=
        MirFrontier.foldlM_climb_spec hT hz (b := i) (T.reached d hdr) hcap _ hps F
      refine ⟨F', ?_, fun s hsr z => ?_⟩
      · rw [MirFrontier.contribution, if_neg (by have := hib.1; omega),
          if_neg (by simp [hgave])]
        simp only [if_neg hlen, hvalid]
        exact hF'
      · rw [hmem s (T.reached s hsr)]
        refine or_congr_right (and_congr_right fun _ => ?_)
        constructor
        · rintro ⟨p, hp, hpn, hsp, hsd⟩
          have hpr := (m.reaches_iff T).1 hpn
          exact ⟨by omega, d, hid, p, hpr, (m.mem_preds (m.isBlock_of_mem_preds hp)).1 hp,
            (T.above_iff p s hpr).1 hsp, fun h => hsd ((T.above_iff d s hdr).2 h)⟩
        · rintro ⟨-, d', hd', p, hpr, hip, hsp, hsd⟩
          obtain rfl := Option.some.inj (hid.symm.trans hd')
          exact ⟨p, (m.mem_preds (hblock hpr)).2 hip, T.reached p hpr, (T.above_iff p s hpr).2 hsp,
            fun h => hsd ((T.above_iff d s hdr).1 h)⟩

theorem mirDominanceFrontier_spec (moduleId : ℕ) :
    ∃ df, mirDominanceFrontier (m.domInput moduleId entry he) t = .ok df ∧
      ∀ s, Worklist.Reaches m.blockSuccessors entry s → ∀ z, z ∈ df s ↔
        m.Climbed entry t.idom z s := by
  have key : ∀ (is : List ℕ) (F : MirFrontier), ∃ F',
      is.foldlM (MirFrontier.contribution t (mirBuildPredecessors m.toMirData)) F = .ok F' ∧
      ∀ s, Worklist.Reaches m.blockSuccessors entry s → ∀ z, z ∈ F'.df s ↔
        z ∈ F.df s ∨ z ∈ is ∧ m.Climbed entry t.idom z s := by
    intro is
    induction is with
    | nil => exact fun F => ⟨F, rfl, fun s _ z => by simp⟩
    | cons i is ih =>
      intro F
      obtain ⟨F₁, hF₁, hmem₁⟩ := m.contribution_spec he hsize hgave T i F
      obtain ⟨F', hF', hmem⟩ := ih F₁
      refine ⟨F', by rw [List.foldlM_cons, hF₁]; exact hF', fun s hs z => ?_⟩
      rw [hmem s hs, hmem₁ s hs, List.mem_cons, or_assoc, or_and_right]
      refine or_congr_right (or_congr_left (and_congr_right ?_))
      rintro rfl
      exact Iff.rfl
  obtain ⟨F, hF, hmem⟩ := key (List.range m.blockCount) ⟨fun _ => [], []⟩
  refine ⟨F.df, ?_, fun s hs z => ?_⟩
  · rw [mirDominanceFrontier]
    simp only [domInput]
    rw [hF]
    rfl
  · rw [hmem s hs, or_iff_right (by simp), and_iff_right_of_imp]
    rintro ⟨-, d, hd, -⟩
    exact List.mem_range.2 (m.isBlock_of_reaches he
      ((m.reaches_iff T).1 (hd ▸ Option.some_ne_none d))).1.2

omit hsize hgave in
theorem climbed_iff {y : ℕ} (b : ℕ) (hy : y ≠ entry) :
    m.Climbed entry t.idom y b ↔ InFrontier m.blockSuccessors entry b y := by
  constructor
  · rintro ⟨-, d, hd, p, hp, hnext, hbp, hbd⟩
    have hyr := hp.tail hnext
    exact ⟨p, hp, hnext, hbp, fun h => hbd (((T.isIdom hy hd).strict_iff hyr).1 h)⟩
  · rintro ⟨p, hp, hnext, hbp, hnot⟩
    have hyr := hp.tail hnext
    obtain ⟨d, hd⟩ := Option.ne_none_iff_exists'.1 (T.reached y hyr)
    have hidom := T.isIdom hy hd
    rw [hidom.strict_iff hyr] at hnot
    refine ⟨?_, d, hd, p, hp, hnext, hbp, hnot⟩
    -- with one predecessor the dominator would be the predecessor
    by_contra hlen
    have hmem := (m.mem_preds (m.isBlock_of_reaches he hp).1).2 hnext
    have hone : ∀ u, y ∈ m.blockSuccessors u → u = p := by
      intro u hu
      have hu' := (m.mem_preds (m.isBlock_of_mem_succs hu).1).2 hu
      generalize (mirBuildPredecessors m.toMirData).getD y [] = ps at hmem hu' hlen
      match ps, hmem, hu', hlen with
      | [x], hmem, hu', _ => rw [List.mem_singleton.1 hmem, List.mem_singleton.1 hu']
      | _ :: _ :: _, _, _, hlen => simp at hlen
    exact hnot (((isIdom_of_pred_unique hyr hy hone).unique hidom hyr) ▸ hbp)

omit he hsize hgave T in
theorem not_climbed_entry : ¬ m.Climbed entry t.idom entry entry := by
  rintro ⟨-, d, -, p, -, -, -, hd⟩
  exact hd (dom_entry d)

end

end Mir

namespace MirIdf

def Closed (frontier : ℕ → Set ℕ) (S : List ℕ) (X : Set ℕ) : Prop :=
  (∀ b ∈ S, frontier b ⊆ X) ∧ ∀ b ∈ X, frontier b ⊆ X

def frontierAt (size : ℕ) (df : ℕ → List ℕ) (b : ℕ) : List ℕ := if b < size then df b else []

/-- The invariant of the iterated frontier. -/
structure Sound (size : ℕ) (df : ℕ → List ℕ) (S : List ℕ) (st : MirIdf) : Prop where
  roots : ∀ b ∈ S, b ∈ st.onWorklist
  idf_on : ∀ y ∈ st.idf, y ∈ st.onWorklist
  looked : ∀ b ∈ st.onWorklist, b ∈ st.worklist ∨ ∀ y ∈ frontierAt size df b, y ∈ st.idf
  least : ∀ X, Closed (fun b => {y | y ∈ frontierAt size df b}) S X →
    (∀ y ∈ st.idf, y ∈ X) ∧ ∀ b ∈ st.onWorklist, b ∈ S ∨ b ∈ X

/-- The blocks still to look at, and those that may still be put there. -/
def left (U : Finset ℕ) (st : MirIdf) : ℕ :=
  st.worklist.length + (U.filter (· ∉ st.onWorklist)).card

theorem foldl_push_spec {U : Finset ℕ} (ys : List ℕ) (hU : ∀ y ∈ ys, y ∈ U) (st : MirIdf)
    (hon : ∀ y ∈ st.idf, y ∈ st.onWorklist) :
    (∀ x, x ∈ (ys.foldl push st).idf ↔ x ∈ st.idf ∨ x ∈ ys) ∧
      (∀ x, x ∈ (ys.foldl push st).onWorklist ↔ x ∈ st.onWorklist ∨ x ∈ ys) ∧
      (∀ x, x ∈ (ys.foldl push st).worklist ↔ x ∈ st.worklist ∨ x ∈ ys ∧ x ∉ st.onWorklist) ∧
      left U (ys.foldl push st) ≤ left U st := by
  induction ys generalizing st with
  | nil => simp
  | cons y ys ih =>
    obtain ⟨hy, hU⟩ := List.forall_mem_cons.1 hU
    rw [List.foldl_cons]
    by_cases hidf : y ∈ st.idf
    · have hpush : push st y = st := if_pos hidf
      have hyon := hon y hidf
      obtain ⟨h1, h2, h3, h4⟩ := ih hU st hon
      rw [hpush]
      refine ⟨fun x => ?_, fun x => ?_, fun x => ?_, h4⟩
      · rw [h1, List.mem_cons]
        by_cases hx : x = y <;> simp [hx, hidf]
      · rw [h2, List.mem_cons]
        by_cases hx : x = y <;> simp [hx, hyon]
      · rw [h3, List.mem_cons]
        by_cases hx : x = y <;> simp [hx, hyon]
    · by_cases hyon : y ∈ st.onWorklist
      · have hpush : push st y = { st with idf := st.idf ++ [y] } := by
          rw [push, if_neg hidf, if_pos hyon]
        obtain ⟨h1, h2, h3, h4⟩ := ih hU { st with idf := st.idf ++ [y] } (by
          intro x hx
          rcases List.mem_append.1 hx with hx | hx
          · exact hon x hx
          · exact List.mem_singleton.1 hx ▸ hyon)
        rw [hpush]
        refine ⟨fun x => ?_, fun x => ?_, fun x => ?_, h4⟩
        · rw [h1, List.mem_append, List.mem_singleton, List.mem_cons, or_assoc]
        · rw [h2, List.mem_cons]
          by_cases hx : x = y <;> simp [hx, hyon]
        · rw [h3, List.mem_cons]
          by_cases hx : x = y <;> simp [hx, hyon]
      · have hpush : push st y =
            ⟨y :: st.worklist, y :: st.onWorklist, st.idf ++ [y]⟩ := by
          rw [push, if_neg hidf, if_neg hyon]
        obtain ⟨h1, h2, h3, h4⟩ := ih hU ⟨y :: st.worklist, y :: st.onWorklist, st.idf ++ [y]⟩ (by
          intro x hx
          rcases List.mem_append.1 hx with hx | hx
          · exact List.mem_cons_of_mem _ (hon x hx)
          · exact List.mem_singleton.1 hx ▸ List.mem_cons_self)
        rw [hpush]
        refine ⟨fun x => ?_, fun x => ?_, fun x => ?_, h4.trans (le_of_eq ?_)⟩
        · rw [h1, List.mem_append, List.mem_singleton, List.mem_cons, or_assoc]
        · rw [h2, List.mem_cons, List.mem_cons]
          tauto
        · rw [h3, List.mem_cons, List.mem_cons, List.mem_cons]
          by_cases hx : x = y <;> simp [hx, hyon]
        · -- the block leaves those that may still be put on the worklist
          have hsplit : U.filter (· ∉ y :: st.onWorklist) =
              (U.filter (· ∉ st.onWorklist)).erase y := by
            ext x
            simp only [Finset.mem_filter, Finset.mem_erase, List.mem_cons, not_or]
            tauto
          have hmem : y ∈ U.filter (· ∉ st.onWorklist) := Finset.mem_filter.2 ⟨hy, hyon⟩
          have hpos := Finset.card_pos.2 ⟨y, hmem⟩
          rw [left, left, hsplit, Finset.card_erase_of_mem hmem, List.length_cons]
          omega

theorem Sound.round {size b : ℕ} {df : ℕ → List ℕ} {S worklist on idf : List ℕ}
    (h : Sound size df S ⟨b :: worklist, on, idf⟩) {U : Finset ℕ} (hb : b ∈ on)
    (hU : ∀ y ∈ frontierAt size df b, y ∈ U) :
    Sound size df S ((frontierAt size df b).foldl push ⟨worklist, on, idf⟩) := by
  obtain ⟨h1, h2, h3, -⟩ := foldl_push_spec (U := U) (frontierAt size df b) hU
    ⟨worklist, on, idf⟩ h.idf_on
  refine ⟨fun x hx => (h2 x).2 (.inl (h.roots x hx)), fun y hy => ?_, fun x hx => ?_,
    fun X hX => ?_⟩
  · exact (h2 y).2 (((h1 y).1 hy).imp_left (h.idf_on y))
  · by_cases hxb : x = b
    · exact .inr fun y hy => (h1 y).2 (.inr (hxb ▸ hy))
    · by_cases hxon : x ∈ on
      · rcases h.looked x hxon with hw | hl
        · exact .inl ((h3 x).2 (.inl ((List.mem_cons.1 hw).resolve_left hxb)))
        · exact .inr fun y hy => (h1 y).2 (.inl (hl y hy))
      · exact .inl ((h3 x).2 (.inr ⟨((h2 x).1 hx).resolve_left hxon, hxon⟩))
  · obtain ⟨hidf, hon⟩ := h.least X hX
    have hfr : ∀ y ∈ frontierAt size df b, y ∈ X := fun y hy =>
      (hon b hb).elim (fun hs => hX.1 b hs hy) fun hx => hX.2 b hx hy
    refine ⟨fun y hy => ((h1 y).1 hy).elim (hidf y) (hfr y), fun x hx => ?_⟩
    exact ((h2 x).1 hx).elim (hon x) fun hy => .inr (hfr x hy)

theorem Sound.isLeast {size : ℕ} {df : ℕ → List ℕ} {S on idf : List ℕ}
    (h : Sound size df S ⟨[], on, idf⟩) :
    IsLeast {X | Closed (fun b => {y | y ∈ frontierAt size df b}) S X} {y | y ∈ idf} := by
  have hlooked : ∀ b ∈ on, ∀ y ∈ frontierAt size df b, y ∈ idf := fun b hb =>
    (h.looked b hb).resolve_left (by simp)
  refine ⟨⟨fun b hb => hlooked b (h.roots b hb), fun b hb => hlooked b (h.idf_on b hb)⟩, ?_⟩
  exact fun X hX y hy => (h.least X hX).1 y hy

theorem run_spec {size : ℕ} {df : ℕ → List ℕ} {S : List ℕ} {U : Finset ℕ}
    (hU : ∀ b y, y ∈ frontierAt size df b → y ∈ U) (fuel : ℕ) {st : MirIdf}
    (h : Sound size df S st) (hw : ∀ b ∈ st.worklist, b ∈ st.onWorklist)
    (hf : left U st ≤ fuel) :
    ∃ r, run size df fuel st = .ok r ∧
      IsLeast {X | Closed (fun b => {y | y ∈ frontierAt size df b}) S X} {y | y ∈ r} := by
  induction fuel generalizing st with
  | zero =>
    obtain ⟨worklist, on, idf⟩ := st
    cases worklist with
    | nil => exact ⟨idf, rfl, h.isLeast⟩
    | cons b worklist => simp [left] at hf
  | succ fuel ih =>
    obtain ⟨worklist, on, idf⟩ := st
    cases worklist with
    | nil => exact ⟨idf, rfl, h.isLeast⟩
    | cons b worklist =>
      have hb := hw b List.mem_cons_self
      have hround := h.round hb (U := U) (hU b)
      obtain ⟨-, h2, h3, h4⟩ := foldl_push_spec (U := U) (frontierAt size df b) (hU b)
        ⟨worklist, on, idf⟩ h.idf_on
      obtain ⟨r, hr, hleast⟩ := ih hround (fun x hx => (h2 x).2 (((h3 x).1 hx).imp
        (fun hx => hw x (List.mem_cons_of_mem _ hx)) And.left)) (by
          simp only [left, List.length_cons] at hf h4 ⊢
          omega)
      refine ⟨r, ?_, hleast⟩
      rw [run]
      by_cases hbs : b ≥ size
      · rw [if_pos hbs]
        rwa [frontierAt, if_neg (not_lt.2 hbs)] at hr
      · rw [if_neg hbs]
        rwa [frontierAt, if_pos (not_le.1 hbs)] at hr

end MirIdf

/-- **The iterated frontier is the least set that holds the frontiers of its roots and is closed
under taking frontiers**, for any table of frontiers. -/
theorem mirIteratedDominanceFrontier_isLeast (size : ℕ) (df : ℕ → List ℕ) (S : List ℕ) :
    ∃ N, ∀ fuel ≥ N, ∃ I, mirIteratedDominanceFrontier fuel size df S = .ok I ∧
      IsLeast {X | MirIdf.Closed (fun b => {y | y ∈ MirIdf.frontierAt size df b}) S X}
        {y | y ∈ I} := by
  set U := (Finset.range size).biUnion fun b => (df b).toFinset with hUdef
  have hU : ∀ b y, y ∈ MirIdf.frontierAt size df b → y ∈ U := by
    intro b y hy
    rw [MirIdf.frontierAt] at hy
    split_ifs at hy with hb
    · exact Finset.mem_biUnion.2 ⟨b, Finset.mem_range.2 hb, List.mem_toFinset.2 hy⟩
    · cases hy
  have hstart : MirIdf.Sound size df S ⟨S.reverse, S, []⟩ :=
    ⟨fun b hb => hb, fun y hy => absurd hy List.not_mem_nil,
      fun b hb => .inl (List.mem_reverse.2 hb),
      fun X _ => ⟨fun y hy => absurd hy List.not_mem_nil, fun b hb => .inl hb⟩⟩
  exact ⟨MirIdf.left U ⟨S.reverse, S, []⟩, fun fuel hfuel =>
    MirIdf.run_spec hU fuel hstart (fun b hb => List.mem_reverse.1 hb) hfuel⟩

/-- The frontiers of the blocks that are reached are those of the definition, and an iterated
frontier is the least set that holds the frontiers of its roots and is closed under taking
frontiers. -/
def Mir.FrontiersExact (m : Mir) (entry : ℕ) (df : ℕ → List ℕ) : Prop :=
  (∀ b, Worklist.Reaches m.blockSuccessors entry b → ∀ y,
    (y ∈ df b ↔ InFrontier m.blockSuccessors entry b y)) ∧
  ∀ S : List ℕ, (∀ b ∈ S, Worklist.Reaches m.blockSuccessors entry b) →
    ∃ N, ∀ fuel ≥ N, ∃ I, mirIteratedDominanceFrontier fuel m.blockCount df S = .ok I ∧
      IsLeast {X | MirIdf.Closed (fun b => {y | InFrontier m.blockSuccessors entry b y}) S X}
        {y | y ∈ I}

namespace Mir

variable (m : Mir)

theorem frontiersExact_of_mem {entry : ℕ} (he : m.IsBlock entry) {df : ℕ → List ℕ}
    (hdf : ∀ b, Worklist.Reaches m.blockSuccessors entry b → ∀ y,
      (y ∈ df b ↔ InFrontier m.blockSuccessors entry b y)) : m.FrontiersExact entry df := by
  refine ⟨hdf, fun S hS => ?_⟩
  obtain ⟨N, hN⟩ := mirIteratedDominanceFrontier_isLeast m.blockCount df S
  refine ⟨N, fun fuel hfuel => ?_⟩
  obtain ⟨I, hI, hclosed, hleast⟩ := hN fuel hfuel
  have hat : ∀ {b}, Worklist.Reaches m.blockSuccessors entry b → ∀ y,
      y ∈ MirIdf.frontierAt m.blockCount df b ↔ InFrontier m.blockSuccessors entry b y := by
    intro b hb y
    rw [MirIdf.frontierAt, if_pos (m.isBlock_of_reaches he hb).1.2, hdf b hb]
  have hreach : ∀ {b y}, InFrontier m.blockSuccessors entry b y →
      Worklist.Reaches m.blockSuccessors entry y := by
    rintro b y ⟨p, hp, hnext, -⟩
    exact hp.tail hnext
  have hIreach : ∀ y ∈ I, Worklist.Reaches m.blockSuccessors entry y := by
    refine hleast (a := {y | Worklist.Reaches m.blockSuccessors entry y}) ⟨?_, ?_⟩
    · exact fun b hb y hy => hreach ((hat (hS b hb) y).1 hy)
    · exact fun b hb y hy => hreach ((hat hb y).1 hy)
  refine ⟨I, hI, ⟨?_, ?_⟩, ?_⟩
  · exact fun b hb y hy => hclosed.1 b hb ((hat (hS b hb) y).2 hy)
  · exact fun b hb y hy => hclosed.2 b hb ((hat (hIreach b hb) y).2 hy)
  · intro X hX y hy
    refine (hleast (a := X ∩ {y | Worklist.Reaches m.blockSuccessors entry y}) ⟨?_, ?_⟩ hy).1
    · intro b hb y hy
      have hin := (hat (hS b hb) y).1 hy
      exact ⟨hX.1 b hb hin, hreach hin⟩
    · intro b hb y hy
      have hin := (hat hb.2 y).1 hy
      exact ⟨hX.2 b hb.1 hin, hreach hin⟩

/-- **The frontiers of a function are exact if and only if no block that the entry reaches jumps
to the entry.** -/
theorem mirDominanceFrontier_exact_iff {entry : ℕ} (he : m.IsBlock entry) (moduleId : ℕ) :
    ∃ N, ∀ fuel ≥ N, ∃ t df, computeMirDomTree fuel (m.domInput moduleId entry he) = .ok t ∧
      mirDominanceFrontier (m.domInput moduleId entry he) t = .ok df ∧
      (m.FrontiersExact entry df ↔
        ∀ p, Worklist.Reaches m.blockSuccessors entry p → entry ∉ m.blockSuccessors p) := by
  obtain ⟨N, hN⟩ := m.computeMirDomTree_spec he moduleId
  refine ⟨N, fun fuel hfuel => ?_⟩
  obtain ⟨t, ht, hsize, hgave, T⟩ := hN fuel hfuel
  obtain ⟨df, hdf, hmem⟩ := m.mirDominanceFrontier_spec he hsize hgave T moduleId
  refine ⟨t, df, ht, hdf, fun hexact p hp hback => ?_, fun hno => ?_⟩
  · have hin : InFrontier m.blockSuccessors entry entry entry :=
      ⟨p, hp, hback, dom_entry p, fun h => h.2 rfl⟩
    exact m.not_climbed_entry ((hmem entry .refl entry).1 ((hexact.1 entry .refl entry).2 hin))
  · refine m.frontiersExact_of_mem he fun b hb y => ?_
    rw [hmem b hb]
    by_cases hy : y = entry
    · subst hy
      refine iff_of_false ?_ ?_
      · rintro ⟨-, -, -, p, hp, hback, -⟩
        exact hno p hp hback
      · rintro ⟨p, hp, hback, -⟩
        exact hno p hp hback
    · exact m.climbed_iff he T b hy

end Mir

theorem mirDominanceFrontier_exact_strayBlocks :
    ∃ N, ∀ fuel ≥ N, ∃ t df,
      computeMirDomTree fuel (strayBlocks.domInput 1 1 (by decide)) = .ok t ∧
      mirDominanceFrontier (strayBlocks.domInput 1 1 (by decide)) t = .ok df ∧
      (strayBlocks.FrontiersExact 1 df ↔ ∀ p, Worklist.Reaches strayBlocks.blockSuccessors 1 p →
        1 ∉ strayBlocks.blockSuccessors p) :=
  strayBlocks.mirDominanceFrontier_exact_iff (by decide) 1

def entryLoop : Mir where
  insts := [default, { (default : MirInst) with opcode := .br }]
  instBlocks := [0, 1]
  blocks := [default, ⟨1, 1, [1], 1⟩]
  funcs := [default, { (default : MirFunc) with blockStart := 1, blockCount := 1 }]
  globals := []
  literals := []
  aliasingMode := .permissive
  charTypesAliasAll := true
  built := by decide

theorem mirDominanceFrontier_entryLoop :
    ∃ t df, computeMirDomTree 4 (entryLoop.domInput 1 1 (by decide)) = .ok t ∧
      mirDominanceFrontier (entryLoop.domInput 1 1 (by decide)) t = .ok df ∧ df 1 = [] ∧
      InFrontier entryLoop.blockSuccessors 1 1 1 :=
  ⟨_, _, rfl, rfl, rfl, 1, .refl, by decide, Dom.refl 1, fun h => h.2 rfl⟩

end DssPrime
