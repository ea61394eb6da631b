import DssPrime.Opt.CallGraph

/-!
# The components are exact

`Tarjan.Inv` is what holds between any two turns of the walk.
-/

namespace DssPrime

namespace CallGraph

def Calls (g : CallGraph) (u v : ℕ) : Prop := v ∈ g.edges u

def Reaches (g : CallGraph) : ℕ → ℕ → Prop := Relation.ReflTransGen g.Calls

end CallGraph

namespace Tarjan

variable {g : CallGraph} {st : Tarjan} {u v w : ℕ}

def gray (st : Tarjan) : List ℕ := st.dfs.map Prod.fst

def Passed (g : CallGraph) (st : Tarjan) (u w : ℕ) : Prop :=
  st.index u ≠ none ∧ w ∈ g.edges u ∧ ∀ k, (u, k) ∈ st.dfs → w ∈ (g.edges u).take k

/-- Of the frames' nodes that were found no later than `u`, `p` was found last. -/
def Over (st : Tarjan) (u p : ℕ) : Prop :=
  st.idx p ≤ st.idx u ∧ ∀ q ∈ st.gray, st.idx q ≤ st.idx u → st.idx q ≤ st.idx p

/-- The invariant of the walk. -/
structure Inv (g : CallGraph) (st : Tarjan) : Prop where
  index_lt : ∀ u i, st.index u = some i → i < st.nextIndex
  onStack_iff : ∀ u, st.onStack u = true ↔ u ∈ st.sccStack
  index_iff : ∀ u, st.index u ≠ none ↔ u ∈ st.sccStack ∨ st.sccOf u ≠ none
  stack_open : ∀ u ∈ st.sccStack, st.sccOf u = none
  stack_sorted : st.sccStack.Pairwise fun a b => st.idx b < st.idx a
  gray_sorted : st.gray.Pairwise fun a b => st.idx b < st.idx a
  gray_stack : ∀ p ∈ st.gray, p ∈ st.sccStack
  passed_found : ∀ u w, Passed g st u w → st.index w ≠ none
  low_le : ∀ p ∈ st.gray, st.lowlink p ≤ st.idx p
  low_reach : ∀ p ∈ st.gray, ∃ y ∈ st.sccStack, st.idx y = st.lowlink p ∧ g.Reaches p y
  up : ∀ x ∈ st.sccStack, ∀ y ∈ st.sccStack, st.idx x ≤ st.idx y → g.Reaches x y
  down : ∀ y ∈ st.sccStack, ∃ p ∈ st.gray, st.idx p ≤ st.idx y ∧ g.Reaches y p
  low_passed : ∀ p ∈ st.gray, ∀ u ∈ st.sccStack, Over st u p → ∀ w ∈ st.sccStack,
    Passed g st u w → st.lowlink p ≤ st.idx w
  done_closed : ∀ u, st.sccOf u ≠ none → ∀ w ∈ g.edges u, st.sccOf w ≠ none
  done_iff : ∀ u v, st.sccOf u ≠ none → st.sccOf v ≠ none →
    (st.sccOf u = st.sccOf v ↔ g.Reaches u v ∧ g.Reaches v u)
  scc_lt : ∀ u c, st.sccOf u = some c → c < st.nextScc

theorem inv_start : Inv g start := by
  constructor <;> simp [start, gray, Passed]

namespace Inv

theorem idx_lt (h : Inv g st) (hu : st.index u ≠ none) : st.idx u < st.nextIndex := by
  obtain ⟨i, hi⟩ := Option.ne_none_iff_exists'.mp hu
  have := h.index_lt u i hi
  simpa [idx, hi] using this

theorem found (h : Inv g st) (hu : u ∈ st.sccStack) : st.index u ≠ none :=
  (h.index_iff u).mpr (.inl hu)

theorem eq_of_idx_eq (h : Inv g st) (hu : u ∈ st.sccStack) (hv : v ∈ st.sccStack)
    (he : st.idx u = st.idx v) : u = v := by
  by_contra hne
  have hs : st.sccStack.Pairwise fun a b => st.idx a ≠ st.idx b :=
    h.stack_sorted.imp fun hlt => hlt.ne'
  have : Std.Symm fun a b => st.idx a ≠ st.idx b := ⟨fun _ _ hab => hab.symm⟩
  exact hs.forall hu hv hne he

theorem done_reaches (h : Inv g st) (hu : st.sccOf u ≠ none) (hr : g.Reaches u v) :
    st.sccOf v ≠ none := by
  induction hr with
  | refl => exact hu
  | tail _ he ih => exact h.done_closed _ ih _ he

theorem reaches_top (h : Inv g st) {k : ℕ} {rest : List (ℕ × ℕ)} (hd : st.dfs = (v, k) :: rest)
    (hu : u ∈ st.sccStack) : g.Reaches u v := by
  obtain ⟨p, hp, _, hup⟩ := h.down u hu
  have hv : v ∈ st.gray := by simp [gray, hd]
  refine hup.trans (h.up p (h.gray_stack p hp) v (h.gray_stack v hv) ?_)
  have hs := h.gray_sorted
  simp only [gray, hd, List.map_cons, List.pairwise_cons, List.mem_cons] at hs hp
  rcases hp with rfl | hp
  · exact le_rfl
  · exact (hs.1 p hp).le

end Inv

theorem discover_idx_self : (st.discover w).idx w = st.nextIndex := by simp [idx, discover]

theorem discover_idx_of_ne (hu : u ≠ w) : (st.discover w).idx u = st.idx u := by
  simp [idx, discover, hu]

theorem discover_gray : (st.discover w).gray = w :: st.gray := rfl

theorem Passed.of_discover {x : ℕ} (h : Passed g (st.discover w) u x) :
    u ≠ w ∧ Passed g st u x := by
  obtain ⟨hf, he, hk⟩ := h
  have hne : u ≠ w := by
    rintro rfl
    simpa using hk 0 (by simp [discover])
  refine ⟨hne, by simpa [discover, hne] using hf, he, fun k hm => hk k ?_⟩
  simp [discover, hm]

theorem Inv.discover (h : Inv g st) (hw : st.index w = none)
    (hr : ∀ x ∈ st.sccStack, g.Reaches x w) : Inv g (st.discover w) := by
  have hws : w ∉ st.sccStack := fun hm => h.found hm hw
  have hwc : st.sccOf w = none := by
    by_contra hc
    exact (h.index_iff w).mpr (.inr hc) hw
  have hne : ∀ x ∈ st.sccStack, x ≠ w := fun x hx he => hws (he ▸ hx)
  have hlt : ∀ x ∈ st.sccStack, (st.discover w).idx x < st.nextIndex := fun x hx => by
    rw [discover_idx_of_ne (hne x hx)]
    exact h.idx_lt (h.found hx)
  have hgne : ∀ p ∈ st.gray, p ≠ w := fun p hp => hne p (h.gray_stack p hp)
  constructor
  · intro u i hi
    by_cases hu : u = w
    · subst hu
      have : st.nextIndex = i := by simpa [Tarjan.discover] using hi
      simp [Tarjan.discover, ← this]
    · have hi' : st.index u = some i := by simpa [Tarjan.discover, hu] using hi
      exact (h.index_lt u i hi').trans (Nat.lt_succ_self _)
  · intro u
    by_cases hu : u = w
    · simp [Tarjan.discover, hu]
    · simp [Tarjan.discover, hu, h.onStack_iff u]
  · intro u
    by_cases hu : u = w
    · simp [Tarjan.discover, hu]
    · simpa [Tarjan.discover, hu] using h.index_iff u
  · intro u hu
    rcases List.mem_cons.mp hu with rfl | hu
    · exact hwc
    · exact h.stack_open u hu
  · refine List.pairwise_cons.mpr ⟨fun x hx => ?_, h.stack_sorted.imp_of_mem ?_⟩
    · rw [discover_idx_self]
      exact hlt x hx
    · intro a b ha hb hab
      rwa [discover_idx_of_ne (hne a ha), discover_idx_of_ne (hne b hb)]
  · rw [discover_gray]
    refine List.pairwise_cons.mpr ⟨fun x hx => ?_, h.gray_sorted.imp_of_mem ?_⟩
    · rw [discover_idx_self]
      exact hlt x (h.gray_stack x hx)
    · intro a b ha hb hab
      rwa [discover_idx_of_ne (hgne a ha), discover_idx_of_ne (hgne b hb)]
  · intro p hp
    rcases List.mem_cons.mp hp with rfl | hp
    · exact List.mem_cons_self
    · exact List.mem_cons_of_mem _ (h.gray_stack p hp)
  · intro u x hp
    have hx := h.passed_found u x hp.of_discover.2
    by_cases hxw : x = w
    · exact absurd hw (hxw ▸ hx)
    · simpa [Tarjan.discover, hxw] using hx
  · intro p hp
    rcases List.mem_cons.mp hp with rfl | hp
    · rw [discover_idx_self]
      simp [Tarjan.discover]
    · rw [discover_idx_of_ne (hgne p hp)]
      simpa [Tarjan.discover, hgne p hp] using h.low_le p hp
  · intro p hp
    rcases List.mem_cons.mp hp with rfl | hp
    · refine ⟨p, List.mem_cons_self, ?_, .refl⟩
      rw [discover_idx_self]
      simp [Tarjan.discover]
    · obtain ⟨y, hy, hyi, hyr⟩ := h.low_reach p hp
      refine ⟨y, List.mem_cons_of_mem _ hy, ?_, hyr⟩
      rw [discover_idx_of_ne (hne y hy), hyi]
      simp [Tarjan.discover, hgne p hp]
  · intro x hx y hy hxy
    rcases List.mem_cons.mp hx with hxw | hxs <;> rcases List.mem_cons.mp hy with hyw | hys
    · rw [hxw, hyw]
      exact .refl
    · rw [hxw, discover_idx_self] at hxy
      exact absurd (hlt y hys) (by omega)
    · exact hyw ▸ hr x hxs
    · rw [discover_idx_of_ne (hne x hxs), discover_idx_of_ne (hne y hys)] at hxy
      exact h.up x hxs y hys hxy
  · intro y hy
    rcases List.mem_cons.mp hy with rfl | hy
    · exact ⟨y, List.mem_cons_self, le_rfl, .refl⟩
    · obtain ⟨p, hp, hpi, hpr⟩ := h.down y hy
      refine ⟨p, List.mem_cons_of_mem _ hp, ?_, hpr⟩
      rwa [discover_idx_of_ne (hgne p hp), discover_idx_of_ne (hne y hy)]
  · intro p hp u hu hov x hx hpass
    obtain ⟨huw, hpass⟩ := hpass.of_discover
    have hus : u ∈ st.sccStack := (List.mem_cons.mp hu).resolve_left huw
    rcases List.mem_cons.mp hp with hpw | hp
    · have := hov.1
      rw [hpw, discover_idx_self] at this
      exact absurd (hlt u hus) (by omega)
    · have hxw : x ≠ w := fun he => h.passed_found u x hpass (he ▸ hw)
      have hxs : x ∈ st.sccStack := (List.mem_cons.mp hx).resolve_left hxw
      have hov' : Over st u p := by
        refine ⟨by simpa only [discover_idx_of_ne huw, discover_idx_of_ne (hgne p hp)] using hov.1,
          fun q hq hqu => ?_⟩
        have := hov.2 q (List.mem_cons_of_mem _ hq)
        simp only [discover_idx_of_ne huw, discover_idx_of_ne (hgne p hp),
          discover_idx_of_ne (hgne q hq)] at this
        exact this hqu
      rw [discover_idx_of_ne hxw]
      simpa [Tarjan.discover, hgne p hp] using h.low_passed p hp u hus hov' x hxs hpass
  · exact h.done_closed
  · exact h.done_iff
  · exact h.scc_lt

theorem Inv.advance (h : Inv g st) (above : List (ℕ × ℕ)) {k : ℕ} {rest : List (ℕ × ℕ)}
    (hd : st.dfs = above ++ (v, k) :: rest) (he : (g.edges v)[k]? = some w)
    (hw : st.index w ≠ none) (hl : w ∈ st.sccStack → st.lowlink v ≤ st.idx w) :
    Inv g { st with dfs := above ++ (v, k + 1) :: rest } := by
  have hg : gray { st with dfs := above ++ (v, k + 1) :: rest } = st.gray := by simp [gray, hd]
  have hpass : ∀ u x, Passed g { st with dfs := above ++ (v, k + 1) :: rest } u x →
      Passed g st u x ∨ u = v ∧ x = w := by
    intro u x hp
    obtain ⟨hf, hm, hk⟩ := hp
    by_cases hux : u = v ∧ x = w
    · exact .inr hux
    · refine .inl ⟨hf, hm, fun j hj => ?_⟩
      rw [hd, List.mem_append, List.mem_cons] at hj
      rcases hj with hj | hj | hj
      · exact hk j (by simp [hj])
      · obtain ⟨rfl, rfl⟩ := Prod.mk.inj hj
        have := hk (j + 1) (by simp)
        rw [List.take_add_one, he] at this
        simpa [show x ≠ w from fun hxw => hux ⟨rfl, hxw⟩] using this
      · exact hk j (by simp [hj])
  refine { h with
    gray_sorted := hg ▸ h.gray_sorted, gray_stack := hg ▸ h.gray_stack
    low_le := hg ▸ h.low_le, low_reach := hg ▸ h.low_reach, down := hg ▸ h.down
    passed_found := ?_, low_passed := ?_ }
  · intro u x hp
    rcases hpass u x hp with hp | hux
    · exact h.passed_found u x hp
    · exact hux.2 ▸ hw
  · intro p hp u hu hov x hx hps
    have hpg : p ∈ st.gray := hg ▸ hp
    rcases hpass u x hps with hps | ⟨huv, hxw⟩
    · exact h.low_passed p hpg u hu ⟨hov.1, fun q hq => hov.2 q (hg ▸ hq)⟩ x hx hps
    · -- the frame of `v` itself is the last one at or below `v`
      subst huv hxw
      have hv : u ∈ st.gray := by simp [gray, hd]
      have hpv : p = u := h.eq_of_idx_eq (h.gray_stack p hpg) hu
        (le_antisymm hov.1 (hov.2 u (hg ▸ hv) le_rfl))
      exact hpv ▸ hl hx

theorem lower_eq_self {i : ℕ} (h : st.lowlink v ≤ i) : st.lower v i = st := by
  simp [lower, min_eq_left h]

theorem lower_lowlink_le {i : ℕ} (p : ℕ) : (st.lower v i).lowlink p ≤ st.lowlink p := by
  by_cases hp : p = v <;> simp [lower, hp]

theorem Inv.lower (h : Inv g st) {y : ℕ} (hy : y ∈ st.sccStack) (hr : g.Reaches v y) :
    Inv g (st.lower v (st.idx y)) := by
  refine { h with low_le := ?_, low_reach := ?_, low_passed := ?_ }
  · exact fun p hp => (lower_lowlink_le p).trans (h.low_le p hp)
  · intro p hp
    by_cases hlow : p = v ∧ st.idx y < st.lowlink v
    · obtain ⟨rfl, hlt⟩ := hlow
      refine ⟨y, hy, ?_, hr⟩
      have hle : (st.index y).getD 0 ≤ st.lowlink p := hlt.le
      simp [Tarjan.lower, idx, hle]
    · obtain ⟨z, hz, hzi, hzr⟩ := h.low_reach p hp
      refine ⟨z, hz, ?_, hzr⟩
      by_cases hp : p = v
      · subst hp
        have : st.lowlink p ≤ st.idx y := not_lt.mp fun hlt => hlow ⟨rfl, hlt⟩
        rw [lower_eq_self this]
        exact hzi
      · simpa [Tarjan.lower, idx, hp] using hzi
  · exact fun p hp u hu hov x hx hps =>
      (lower_lowlink_le p).trans (h.low_passed p hp u hu hov x hx hps)

section Leave

variable {k : ℕ} {rest : List (ℕ × ℕ)}

theorem passed_of_drop (hd : st.dfs = (v, k) :: rest) (hk : (g.edges v).length ≤ k)
    (h : Passed g { st with dfs := rest } u w) : Passed g st u w := by
  refine ⟨h.1, h.2.1, fun j hj => ?_⟩
  rw [hd, List.mem_cons] at hj
  rcases hj with hj | hj
  · obtain ⟨rfl, rfl⟩ := Prod.mk.inj hj
    rw [List.take_of_length_le hk]
    exact h.2.1
  · exact h.2.2 j hj

theorem Inv.rest_lt (h : Inv g st) (hd : st.dfs = (v, k) :: rest) {p : ℕ}
    (hp : p ∈ rest.map Prod.fst) : st.idx p < st.idx v := by
  have hs := h.gray_sorted
  simp only [gray, hd, List.map_cons, List.pairwise_cons] at hs
  exact hs.1 p hp

theorem Inv.leave (h : Inv g st) {parent j : ℕ} (hd : st.dfs = (v, k) :: (parent, j) :: rest)
    (hk : (g.edges v).length ≤ k) (hlt : st.lowlink v < st.idx v)
    (hpar : st.lowlink parent ≤ st.lowlink v) :
    Inv g { st with dfs := (parent, j) :: rest } := by
  have hv : v ∈ st.gray := by simp [gray, hd]
  have hg : st.gray = v :: parent :: rest.map Prod.fst := by simp [gray, hd]
  have hg' : gray { st with dfs := (parent, j) :: rest } = parent :: rest.map Prod.fst := rfl
  have hsub : ∀ p ∈ parent :: rest.map Prod.fst, p ∈ st.gray := fun p hp => by
    rw [hg]
    exact List.mem_cons_of_mem _ hp
  refine { h with
    gray_sorted := ?_, gray_stack := fun p hp => h.gray_stack p (hsub p hp)
    low_le := fun p hp => h.low_le p (hsub p hp)
    low_reach := fun p hp => h.low_reach p (hsub p hp)
    passed_found := fun u x hp => h.passed_found u x (passed_of_drop hd hk hp)
    down := ?_, low_passed := ?_ }
  · have hs := h.gray_sorted
    rw [hg] at hs
    exact hs.of_cons
  · -- what reached the node of the frame reaches what its low-link stands for
    intro y hy
    obtain ⟨p, hp, hpi, hpr⟩ := h.down y hy
    rw [hg, List.mem_cons] at hp
    rcases hp with rfl | hp
    · obtain ⟨z, hz, hzi, hzr⟩ := h.low_reach p hv
      obtain ⟨q, hq, hqi, hqr⟩ := h.down z hz
      have hqv : q ≠ p := by
        rintro rfl
        omega
      rw [hg, List.mem_cons] at hq
      refine ⟨q, hq.resolve_left hqv, ?_, (hpr.trans hzr).trans hqr⟩
      exact (hqi.trans (hzi.le.trans hlt.le)).trans hpi
    · exact ⟨p, hp, hpi, hpr⟩
  · intro p hp u hu hov x hx hps
    have hps := passed_of_drop hd hk hps
    by_cases hvu : st.idx v ≤ st.idx u
    · -- before, the last frame at or below `u` was that of `v`; now it is the one of `parent`
      have hpp : p = parent := by
        refine h.eq_of_idx_eq (h.gray_stack p (hsub p hp))
          (h.gray_stack parent (hsub parent List.mem_cons_self)) (le_antisymm ?_ ?_)
        · have hs := h.gray_sorted
          rw [hg, List.pairwise_cons, List.pairwise_cons] at hs
          rcases List.mem_cons.mp hp with rfl | hp
          · exact le_rfl
          · exact (hs.2.1 p hp).le
        · refine hov.2 parent List.mem_cons_self (le_trans ?_ hvu)
          exact (h.rest_lt hd (by simp)).le
      have hov' : Over st u v := by
        refine ⟨hvu, fun q hq _ => ?_⟩
        rw [hg, List.mem_cons] at hq
        rcases hq with rfl | hq
        · exact le_rfl
        · exact (h.rest_lt hd (by simpa using hq)).le
      exact hpp ▸ hpar.trans (h.low_passed v hv u hu hov' x hx hps)
    · have hov' : Over st u p := by
        refine ⟨hov.1, fun q hq hqu => ?_⟩
        rw [hg, List.mem_cons] at hq
        rcases hq with rfl | hq
        · exact absurd hqu hvu
        · exact hov.2 q hq hqu
      exact h.low_passed p (hsub p hp) u hu hov' x hx hps

theorem popUntil_spec (f : ℕ → ℕ) (v c : ℕ) (stack : List ℕ) (onStack : ℕ → Bool)
    (sccOf : ℕ → Option ℕ) (hs : stack.Pairwise fun a b => f b < f a) (hv : v ∈ stack) :
    (popUntil v c stack onStack sccOf).1 <:+ stack ∧
    (∀ u, u ∈ (popUntil v c stack onStack sccOf).1 ↔ u ∈ stack ∧ f u < f v) ∧
    (∀ u, (popUntil v c stack onStack sccOf).2.1 u = true ↔
      onStack u = true ∧ ¬(u ∈ stack ∧ f v ≤ f u)) ∧
    ∀ u, (popUntil v c stack onStack sccOf).2.2 u =
      if u ∈ stack ∧ f v ≤ f u then some c else sccOf u := by
  induction stack generalizing onStack sccOf with
  | nil => simp at hv
  | cons m stack ih =>
    obtain ⟨hm, hs⟩ := List.pairwise_cons.mp hs
    by_cases hmv : m = v
    · subst hmv
      have hno : ∀ u ∈ stack, ¬f m ≤ f u := fun u hu => not_le.mpr (hm u hu)
      simp only [popUntil, if_true]
      refine ⟨List.suffix_cons _ _, fun u => ?_, fun u => ?_, fun u => ?_⟩
      · constructor
        · exact fun hu => ⟨List.mem_cons_of_mem _ hu, hm u hu⟩
        · intro hu
          refine (List.mem_cons.mp hu.1).resolve_left fun he => ?_
          exact absurd hu.2 (he ▸ lt_irrefl _)
      · by_cases hu : u = m
        · simp [hu]
        · simp only [Function.update_of_ne hu, List.mem_cons, hu, false_or]
          exact ⟨fun h => ⟨h, fun h' => hno u h'.1 h'.2⟩, fun h => h.1⟩
      · by_cases hu : u = m
        · simp [hu]
        · have : ¬((u = m ∨ u ∈ stack) ∧ f m ≤ f u) := by
            simpa [hu] using fun h' => not_le.mp (hno u h')
          simp only [Function.update_of_ne hu, List.mem_cons, if_neg this]
    · have hv : v ∈ stack := (List.mem_cons.mp hv).resolve_left (Ne.symm hmv)
      have hlt : f v < f m := hm v hv
      obtain ⟨h1, h2, h3, h4⟩ :=
        ih (Function.update onStack m false) (Function.update sccOf m (some c)) hs hv
      simp only [popUntil, if_neg hmv]
      refine ⟨h1.trans (List.suffix_cons _ _), fun u => ?_, fun u => ?_, fun u => ?_⟩
      · rw [h2, List.mem_cons]
        by_cases hu : u = m
        · subst hu
          simp [hlt.le]
        · simp [hu]
      · rw [h3]
        by_cases hu : u = m
        · subst hu
          simp [hlt.le]
        · simp [hu]
      · rw [h4]
        by_cases hu : u = m
        · subst hu
          simp [hlt.le]
        · simp [hu]

theorem Inv.component_closed (h : Inv g st) (hd : st.dfs = (v, k) :: rest)
    (hk : (g.edges v).length ≤ k) (he : st.lowlink v = st.idx v)
    (hu : u ∈ st.sccStack ∧ st.idx v ≤ st.idx u) (hw : w ∈ g.edges u) :
    (w ∈ st.sccStack ∧ st.idx v ≤ st.idx w) ∨ st.sccOf w ≠ none := by
  have hv : v ∈ st.gray := by simp [gray, hd]
  have hrest : ∀ p ∈ rest.map Prod.fst, st.idx p < st.idx v := fun p hp => h.rest_lt hd hp
  have hps : Passed g st u w := by
    refine ⟨h.found hu.1, hw, fun j hj => ?_⟩
    rw [hd, List.mem_cons] at hj
    rcases hj with hj | hj
    · obtain ⟨rfl, rfl⟩ := Prod.mk.inj hj
      rwa [List.take_of_length_le hk]
    · exact absurd (hrest u (List.mem_map.mpr ⟨_, hj, rfl⟩)) (not_lt.mpr hu.2)
  rcases (h.index_iff w).mp (h.passed_found u w hps) with hws | hwc
  · have hov : Over st u v := by
      refine ⟨hu.2, fun q hq _ => ?_⟩
      rw [gray, hd, List.map_cons, List.mem_cons] at hq
      rcases hq with rfl | hq
      · exact le_rfl
      · exact (hrest q hq).le
    exact .inl ⟨hws, he ▸ h.low_passed v hv u hu.1 hov w hws hps⟩
  · exact .inr hwc

theorem Inv.complete (h : Inv g st) (hd : st.dfs = (v, k) :: rest)
    (hk : (g.edges v).length ≤ k) (he : st.lowlink v = st.idx v) :
    Inv g { st.popComponent v with dfs := rest } := by
  have hv : v ∈ st.gray := by simp [gray, hd]
  have hvs : v ∈ st.sccStack := h.gray_stack v hv
  have hrest : ∀ p ∈ rest.map Prod.fst, p ∈ st.gray ∧ st.idx p < st.idx v := fun p hp =>
    ⟨by rw [gray, hd]; exact List.mem_cons_of_mem _ hp, h.rest_lt hd hp⟩
  obtain ⟨hsuf, hstk, hon, hscc⟩ := popUntil_spec st.idx v st.nextScc st.sccStack st.onStack
    st.sccOf h.stack_sorted hvs
  have hpop : st.popComponent v = { st with
      sccStack := (popUntil v st.nextScc st.sccStack st.onStack st.sccOf).1
      onStack := (popUntil v st.nextScc st.sccStack st.onStack st.sccOf).2.1
      sccOf := (popUntil v st.nextScc st.sccStack st.onStack st.sccOf).2.2
      nextScc := st.nextScc + 1 } := rfl
  rw [hpop]
  generalize popUntil v st.nextScc st.sccStack st.onStack st.sccOf = r at hsuf hstk hon hscc
  have hdone : ∀ u, r.2.2 u ≠ none ↔
      (u ∈ st.sccStack ∧ st.idx v ≤ st.idx u) ∨ st.sccOf u ≠ none := by
    intro u
    by_cases hu : u ∈ st.sccStack ∧ st.idx v ≤ st.idx u
    · rw [hscc, if_pos hu]
      exact ⟨fun _ => .inl hu, fun _ => by simp⟩
    · rw [hscc, if_neg hu]
      exact ⟨.inr, fun h => h.resolve_left hu⟩
  have hback : ∀ u, u ∈ st.sccStack ∧ st.idx v ≤ st.idx u → g.Reaches v u := fun u hu =>
    h.up v hvs u hu.1 hu.2
  refine
    { index_lt := h.index_lt
      onStack_iff := ?_
      index_iff := ?_
      stack_open := ?_
      stack_sorted := h.stack_sorted.sublist hsuf.sublist
      gray_sorted := ?_
      gray_stack := fun p hp => (hstk p).mpr ⟨h.gray_stack p (hrest p hp).1, (hrest p hp).2⟩
      passed_found := fun u x hp => h.passed_found u x (passed_of_drop hd hk hp)
      low_le := fun p hp => h.low_le p (hrest p hp).1
      low_reach := ?_
      up := fun x hx y hy => h.up x ((hstk x).mp hx).1 y ((hstk y).mp hy).1
      down := ?_
      low_passed := ?_
      done_closed := ?_
      done_iff := ?_
      scc_lt := ?_ }
  · intro u
    change r.2.1 u = true ↔ u ∈ r.1
    rw [hon, hstk, h.onStack_iff]
    exact ⟨fun hu => ⟨hu.1, not_le.mp fun hle => hu.2 ⟨hu.1, hle⟩⟩,
      fun hu => ⟨hu.1, fun hu' => absurd hu'.2 (not_le.mpr hu.2)⟩⟩
  · intro u
    change st.index u ≠ none ↔ u ∈ r.1 ∨ r.2.2 u ≠ none
    rw [h.index_iff, hstk, hdone]
    constructor
    · rintro (hu | hu)
      · rcases lt_or_ge (st.idx u) (st.idx v) with hlt | hle
        · exact .inl ⟨hu, hlt⟩
        · exact .inr (.inl ⟨hu, hle⟩)
      · exact .inr (.inr hu)
    · rintro (hu | hu | hu)
      · exact .inl hu.1
      · exact .inl hu.1
      · exact .inr hu
  · intro u hu
    have hu := (hstk u).mp hu
    change r.2.2 u = none
    rw [hscc, if_neg fun hu' => absurd hu'.2 (not_le.mpr hu.2)]
    exact h.stack_open u hu.1
  · have hs := h.gray_sorted
    simp only [gray, hd, List.map_cons] at hs
    exact hs.of_cons
  · intro p hp
    obtain ⟨y, hy, hyi, hyr⟩ := h.low_reach p (hrest p hp).1
    refine ⟨y, (hstk y).mpr ⟨hy, ?_⟩, hyi, hyr⟩
    rw [hyi]
    exact (h.low_le p (hrest p hp).1).trans_lt (hrest p hp).2
  · intro y hy
    have hy := (hstk y).mp hy
    obtain ⟨p, hp, hpi, hpr⟩ := h.down y hy.1
    rw [gray, hd, List.map_cons, List.mem_cons] at hp
    refine ⟨p, hp.resolve_left ?_, hpi, hpr⟩
    rintro rfl
    exact absurd hy.2 (not_lt.mpr hpi)
  · intro p hp u hu hov x hx hps
    have hu := (hstk u).mp hu
    have hov' : Over st u p := by
      refine ⟨hov.1, fun q hq hqu => hov.2 q ?_ hqu⟩
      rw [gray, hd, List.map_cons, List.mem_cons] at hq
      refine hq.resolve_left ?_
      rintro rfl
      exact absurd hu.2 (not_lt.mpr hqu)
    exact h.low_passed p (hrest p hp).1 u hu.1 hov' x ((hstk x).mp hx).1
      (passed_of_drop hd hk hps)
  · intro u hu x hx
    refine (hdone x).mpr ?_
    rcases (hdone u).mp hu with hu | hu
    · exact h.component_closed hd hk he hu hx
    · exact .inr (h.done_closed u hu x hx)
  · intro a b ha hb
    -- a node completed before reaches no node of the new component
    have hapart : ∀ a b, st.sccOf a ≠ none → (b ∈ st.sccStack ∧ st.idx v ≤ st.idx b) →
        st.sccOf a ≠ some st.nextScc ∧ ¬g.Reaches a b := fun a b ha hb =>
      ⟨fun hc => absurd (h.scc_lt a _ hc) (lt_irrefl _),
        fun hr => h.done_reaches ha hr (h.stack_open b hb.1)⟩
    change r.2.2 a = r.2.2 b ↔ _
    by_cases hca : a ∈ st.sccStack ∧ st.idx v ≤ st.idx a
    · by_cases hcb : b ∈ st.sccStack ∧ st.idx v ≤ st.idx b
      · rw [hscc, hscc, if_pos hca, if_pos hcb]
        exact ⟨fun _ => ⟨(h.reaches_top hd hca.1).trans (hback b hcb),
          (h.reaches_top hd hcb.1).trans (hback a hca)⟩, fun _ => rfl⟩
      · obtain ⟨hne, hnr⟩ := hapart b a (((hdone b).mp hb).resolve_left hcb) hca
        rw [hscc, hscc, if_pos hca, if_neg hcb]
        exact ⟨fun heq => absurd heq.symm hne, fun hr => absurd hr.2 hnr⟩
    · have hda := ((hdone a).mp ha).resolve_left hca
      by_cases hcb : b ∈ st.sccStack ∧ st.idx v ≤ st.idx b
      · obtain ⟨hne, hnr⟩ := hapart a b hda hcb
        rw [hscc, hscc, if_neg hca, if_pos hcb]
        exact ⟨fun heq => absurd heq hne, fun hr => absurd hr.1 hnr⟩
      · rw [hscc, hscc, if_neg hca, if_neg hcb]
        exact h.done_iff a b hda (((hdone b).mp hb).resolve_left hcb)
  · intro u c hc
    change r.2.2 u = some c at hc
    change c < st.nextScc + 1
    rw [hscc] at hc
    split_ifs at hc with hu
    · exact (Option.some.inj hc) ▸ Nat.lt_succ_self _
    · exact (h.scc_lt u c hc).trans (Nat.lt_succ_self _)

end Leave

theorem finish_nil : st.finish v [] =
    { (if st.lowlink v = st.idx v then st.popComponent v else st) with dfs := [] } := rfl

theorem finish_cons (p : ℕ × ℕ) (rest : List (ℕ × ℕ)) : st.finish v (p :: rest) =
    Tarjan.lower { (if st.lowlink v = st.idx v then st.popComponent v else st) with
      dfs := p :: rest } p.1
      ((if st.lowlink v = st.idx v then st.popComponent v else st).lowlink v) := rfl

theorem Inv.finish (h : Inv g st) {k : ℕ} {rest : List (ℕ × ℕ)} (hd : st.dfs = (v, k) :: rest)
    (hk : (g.edges v).length ≤ k) : Inv g (st.finish v rest) := by
  have hv : v ∈ st.gray := by simp [gray, hd]
  by_cases he : st.lowlink v = st.idx v
  · have hc := h.complete hd hk he
    cases rest with
    | nil => rwa [finish_nil, if_pos he]
    | cons p rest =>
      -- the low-link of the parent is at most its index, so that of a root leaves it as it is
      have hp : p.1 ∈ st.gray := by simp [gray, hd]
      have hle : st.lowlink p.1 ≤ st.lowlink v :=
        he ▸ (h.low_le p.1 hp).trans (h.rest_lt hd (by simp)).le
      have hself : Tarjan.lower { st.popComponent v with dfs := p :: rest } p.1 (st.lowlink v) =
          { st.popComponent v with dfs := p :: rest } := lower_eq_self hle
      rw [finish_cons, if_pos he]
      exact hself.symm ▸ hc
  · have hlt : st.lowlink v < st.idx v := lt_of_le_of_ne (h.low_le v hv) he
    obtain ⟨y, hy, hyi, hyr⟩ := h.low_reach v hv
    cases rest with
    | nil =>
      obtain ⟨p, hp, hpi, _⟩ := h.down y hy
      have hpv : p = v := by simpa [gray, hd] using hp
      exact absurd hlt (not_lt.mpr (hyi ▸ hpv ▸ hpi))
    | cons fr rest =>
      obtain ⟨parent, j⟩ := fr
      have hp : parent ∈ st.gray := by simp [gray, hd]
      have hlt' : st.idx parent < st.idx v := h.rest_lt hd (by simp)
      have hpv : g.Reaches parent v :=
        h.up parent (h.gray_stack parent hp) v (h.gray_stack v hv) hlt'.le
      have hl := h.lower hy (hpv.trans hyr)
      rw [hyi] at hl
      have hne : v ≠ parent := fun he => absurd hlt' (he ▸ lt_irrefl _)
      have hlow : (st.lower parent (st.lowlink v)).lowlink v = st.lowlink v := by
        simp [Tarjan.lower, hne]
      rw [finish_cons, if_neg he]
      refine Inv.leave hl hd hk ?_ ?_
      · rw [hlow]
        exact hlt
      · rw [hlow]
        simp [Tarjan.lower]

theorem Inv.step (h : Inv g st) : Inv g (st.step g) := by
  rw [Tarjan.step]
  cases hd : st.dfs with
  | nil => exact h
  | cons fr rest =>
    obtain ⟨v, k⟩ := fr
    have hv : v ∈ st.gray := by simp [gray, hd]
    cases he : (g.edges v)[k]? with
    | none =>
      simp only [he]
      exact h.finish hd (List.getElem?_eq_none_iff.mp he)
    | some w =>
      have hmem : g.Calls v w := List.mem_of_getElem? he
      simp only [he]
      by_cases hw : st.index w = none
      · rw [if_pos hw]
        have hvw : v ≠ w := fun hvw => h.found (h.gray_stack v hv) (hvw ▸ hw)
        have hdisc := h.discover hw fun x hx => (h.reaches_top hd hx).tail hmem
        refine hdisc.advance [(w, 0)] (k := k) (v := v) ?_ he ?_ fun _ => ?_
        · simp [Tarjan.discover, hd]
        · simp [Tarjan.discover]
        · rw [discover_idx_self]
          have := (h.low_le v hv).trans (h.idx_lt (h.found (h.gray_stack v hv))).le
          simpa [Tarjan.discover, hvw] using this
      · rw [if_neg hw]
        by_cases hon : st.onStack w = true
        · rw [if_pos hon]
          have hws := (h.onStack_iff w).mp hon
          refine (h.lower hws (.single hmem)).advance [] hd he hw fun _ => ?_
          simp [Tarjan.lower, idx]
        · rw [if_neg hon]
          exact h.advance [] hd he hw fun hws => absurd ((h.onStack_iff w).mpr hws) hon

/-- What is left to do: two turns for every node that was not found and one for each of its edges,
and the edges that the frames have not passed. -/
def todo (g : CallGraph) (st : Tarjan) : ℕ :=
  (∑ u ∈ g.universe with st.index u = none, ((g.edges u).length + 2)) +
    (st.dfs.map fun fr => (g.edges fr.1).length - fr.2 + 1).sum

theorem mem_universe (hw : w ∈ g.edges v) : w ∈ g.universe := by
  rw [CallGraph.edges] at hw
  cases hl : g.succ.lookup v with
  | none => simp [hl] at hw
  | some l =>
    rw [hl] at hw
    obtain ⟨l₁, l₂, hs, -⟩ := List.lookup_eq_some_iff.mp hl
    rw [CallGraph.universe, List.mem_toFinset, List.mem_append, List.mem_flatMap]
    exact .inr ⟨(v, l), by simp [hs], hw⟩

theorem todo_discover (hw : st.index w = none) (hu : w ∈ g.universe) :
    todo g (st.discover w) + 1 = todo g st := by
  have hset : g.universe.filter (fun u => (st.discover w).index u = none) =
      (g.universe.filter fun u => st.index u = none).erase w := by
    ext u
    rw [Finset.mem_filter, Finset.mem_erase, Finset.mem_filter]
    by_cases hue : u = w <;> simp [Tarjan.discover, hue]
  have hmem : w ∈ g.universe.filter fun u => st.index u = none := by simp [hu, hw]
  have hsum := Finset.sum_erase_add _ (fun u => (g.edges u).length + 2) hmem
  have hdfs : (st.discover w).dfs = (w, 0) :: st.dfs := rfl
  rw [todo, todo, hset, hdfs]
  simp only [List.map_cons, List.sum_cons]
  omega

theorem finish_dfs (rest : List (ℕ × ℕ)) : (st.finish v rest).dfs = rest := by
  cases rest <;> rfl

theorem finish_index (rest : List (ℕ × ℕ)) : (st.finish v rest).index = st.index := by
  cases rest <;> simp only [finish_nil, finish_cons, lower] <;> split_ifs <;> rfl

theorem todo_step (hd : st.dfs ≠ []) : todo g (st.step g) < todo g st := by
  rw [Tarjan.step]
  cases hd' : st.dfs with
  | nil => exact absurd hd' hd
  | cons fr rest =>
    obtain ⟨v, k⟩ := fr
    cases he : (g.edges v)[k]? with
    | none =>
      simp only [he, todo, finish_dfs, finish_index, hd', List.map_cons, List.sum_cons]
      omega
    | some w =>
      have hk : k < (g.edges v).length := (List.getElem?_eq_some_iff.mp he).1
      have hpass : todo g { st with dfs := (v, k + 1) :: rest } + 1 = todo g st := by
        simp only [todo, hd', List.map_cons, List.sum_cons]
        omega
      simp only [he]
      split_ifs with hw hon
      · have hdisc : todo g (discover { st with dfs := (v, k + 1) :: rest } w) + 1 =
            todo g { st with dfs := (v, k + 1) :: rest } :=
          todo_discover hw (mem_universe (List.mem_of_getElem? he))
        omega
      · have hlower : todo g (lower { st with dfs := (v, k + 1) :: rest } v
            (idx { st with dfs := (v, k + 1) :: rest } w)) =
            todo g { st with dfs := (v, k + 1) :: rest } := rfl
        omega
      · omega

theorem found_discover (hu : st.index u ≠ none) : (st.discover w).index u ≠ none := by
  by_cases hue : u = w
  · simp [Tarjan.discover, hue]
  · simpa [Tarjan.discover, hue] using hu

theorem found_step (hu : st.index u ≠ none) : (st.step g).index u ≠ none := by
  rw [Tarjan.step]
  cases st.dfs with
  | nil => exact hu
  | cons fr rest =>
    obtain ⟨v, k⟩ := fr
    cases he : (g.edges v)[k]? with
    | none =>
      simp only [he, finish_index]
      exact hu
    | some w =>
      simp only [he]
      split_ifs with hw hon
      · exact found_discover hu
      · exact hu
      · exact hu

theorem drain_spec (g : CallGraph) (fuel : ℕ) (h : Inv g st) (hf : todo g st ≤ fuel) :
    Inv g (drain g fuel st) ∧ (drain g fuel st).dfs = [] ∧
      ∀ u, st.index u ≠ none → (drain g fuel st).index u ≠ none := by
  induction fuel generalizing st with
  | zero =>
    refine ⟨h, ?_, fun u hu => hu⟩
    by_contra hd
    have hlt : todo g (st.step g) < todo g st := todo_step hd
    omega
  | succ fuel ih =>
    rw [drain]
    split_ifs with hd
    · exact ⟨h, hd, fun u hu => hu⟩
    · have hlt := todo_step (g := g) hd
      obtain ⟨hi, hn, hk⟩ := ih h.step (by omega)
      exact ⟨hi, hn, fun u hu => hk u (found_step hu)⟩

/-- The invariant between two walks. -/
structure Rest (g : CallGraph) (st : Tarjan) : Prop extends Inv g st where
  no_frame : st.dfs = []

namespace Rest

theorem no_stack (h : Rest g st) : st.sccStack = [] := by
  refine List.eq_nil_iff_forall_not_mem.mpr fun y hy => ?_
  obtain ⟨p, hp, -⟩ := h.down y hy
  simp [gray, h.no_frame] at hp

theorem visit (h : Rest g st) {root : ℕ} (hr : root ∈ g.nodes) :
    Rest g (st.visit g root) ∧ (st.visit g root).index root ≠ none ∧
      ∀ u, st.index u ≠ none → (st.visit g root).index u ≠ none := by
  rw [Tarjan.visit]
  split_ifs with hw
  · have hu : root ∈ g.universe := by simp [CallGraph.universe, hr]
    have hi : Inv g (st.discover root) := h.discover hw (by simp [h.no_stack])
    have htodo : todo g (st.discover root) ≤ g.turns := by
      have h1 := todo_discover hw hu
      have h2 : todo g st ≤ g.turns := by
        rw [todo, h.no_frame, CallGraph.turns]
        simpa using Finset.sum_le_sum_of_subset (f := fun u => (g.edges u).length + 2)
          (Finset.filter_subset (fun u => st.index u = none) g.universe)
      omega
    obtain ⟨h1, h2, h3⟩ := drain_spec g g.turns hi htodo
    exact ⟨⟨h1, h2⟩, h3 root (by simp [Tarjan.discover]), fun u hu => h3 u (found_discover hu)⟩
  · exact ⟨h, hw, fun u hu => hu⟩

theorem foldl (roots : List ℕ) (h : Rest g st) (hr : ∀ r ∈ roots, r ∈ g.nodes) :
    Rest g (roots.foldl (Tarjan.visit g) st) ∧
      (∀ r ∈ roots, (roots.foldl (Tarjan.visit g) st).index r ≠ none) ∧
      ∀ u, st.index u ≠ none → (roots.foldl (Tarjan.visit g) st).index u ≠ none := by
  induction roots generalizing st with
  | nil => exact ⟨h, by simp, fun u hu => hu⟩
  | cons r roots ih =>
    obtain ⟨h1, h2, h3⟩ := h.visit (hr r List.mem_cons_self)
    obtain ⟨i1, i2, i3⟩ := ih h1 fun x hx => hr x (List.mem_cons_of_mem _ hx)
    refine ⟨i1, fun x hx => ?_, fun u hu => i3 u (h3 u hu)⟩
    rcases List.mem_cons.mp hx with rfl | hx
    · exact i3 x h2
    · exact i2 x hx

end Rest

end Tarjan

section Components

variable {g : CallGraph} {u v : ℕ}

open Tarjan in
theorem tarjan_rest (g : CallGraph) : ∃ st, Rest g st ∧ st.sccOf = tarjan g ∧
    ∀ v ∈ g.nodes, tarjan g v ≠ none := by
  obtain ⟨h1, h2, -⟩ := Rest.foldl g.nodes ⟨inv_start (g := g), rfl⟩ fun r hr => hr
  refine ⟨_, h1, rfl, fun v hv => ?_⟩
  have hf := (h1.index_iff v).mp (h2 v hv)
  rw [h1.no_stack] at hf
  exact hf.resolve_left (by simp)

theorem tarjan_ne_none (hv : v ∈ g.nodes) : tarjan g v ≠ none := by
  obtain ⟨_, _, _, h⟩ := tarjan_rest g
  exact h v hv

theorem tarjan_eq_iff (hu : tarjan g u ≠ none) (hv : tarjan g v ≠ none) :
    tarjan g u = tarjan g v ↔ g.Reaches u v ∧ g.Reaches v u := by
  obtain ⟨st, h, he, _⟩ := tarjan_rest g
  rw [← he] at hu hv ⊢
  exact h.done_iff u v hu hv

theorem tarjan_closed (hu : tarjan g u ≠ none) (hc : g.Calls u v) : tarjan g v ≠ none := by
  obtain ⟨st, h, he, _⟩ := tarjan_rest g
  rw [← he] at hu ⊢
  exact h.done_closed u hu v hc

end Components

section Gate

variable {mir : Mir} {caller callee callId : ℕ}

end Gate

section Numbers

namespace Tarjan

variable {g : CallGraph} {st : Tarjan} {u v : ℕ}

/-- The components are numbered without gaps, and a call leads to no later number. -/
structure Numbered (g : CallGraph) (st : Tarjan) : Prop where
  dense : ∀ c < st.nextScc, ∃ u, st.sccOf u = some c
  call_le : ∀ u c, st.sccOf u = some c → ∀ w ∈ g.edges u, ∀ c', st.sccOf w = some c' → c' ≤ c

theorem Numbered.complete (hn : Numbered g st) (h : Inv g st) {k : ℕ} {rest : List (ℕ × ℕ)}
    (hd : st.dfs = (v, k) :: rest) : Numbered g (st.popComponent v) := by
  have hv : v ∈ st.sccStack := h.gray_stack v (by simp [gray, hd])
  have hscc : ∀ u, (st.popComponent v).sccOf u =
      if u ∈ st.sccStack ∧ st.idx v ≤ st.idx u then some st.nextScc else st.sccOf u :=
    (popUntil_spec st.idx v st.nextScc st.sccStack st.onStack st.sccOf h.stack_sorted hv).2.2.2
  have hold : ∀ u, st.sccOf u ≠ none → (st.popComponent v).sccOf u = st.sccOf u := fun u hu => by
    rw [hscc, if_neg fun hm => hu (h.stack_open u hm.1)]
  constructor
  · intro c hc
    rcases Nat.lt_succ_iff_lt_or_eq.mp hc with hlt | rfl
    · obtain ⟨u, hu⟩ := hn.dense c hlt
      exact ⟨u, (hold u (by simp [hu])).trans hu⟩
    · exact ⟨v, by rw [hscc, if_pos ⟨hv, le_rfl⟩]⟩
  · intro u c hu w hw c' hc'
    have hle : c' ≤ st.nextScc := by
      rw [hscc] at hc'
      split_ifs at hc'
      · exact (Option.some.inj hc').ge
      · exact (h.scc_lt w c' hc').le
    rw [hscc] at hu
    split_ifs at hu with hm
    · exact (Option.some.inj hu) ▸ hle
    · -- a node of an earlier component calls earlier components only
      rw [hold w (h.done_closed u (by simp [hu]) w hw)] at hc'
      exact hn.call_le u c hu w hw c' hc'

theorem Numbered.finish (hn : Numbered g st) (h : Inv g st) {k : ℕ} {rest : List (ℕ × ℕ)}
    (hd : st.dfs = (v, k) :: rest) : Numbered g (st.finish v rest) := by
  have hc := hn.complete h hd
  cases rest with
  | nil =>
    rw [finish_nil]
    split_ifs
    · exact ⟨hc.dense, hc.call_le⟩
    · exact ⟨hn.dense, hn.call_le⟩
  | cons p rest =>
    rw [finish_cons]
    split_ifs
    · exact ⟨hc.dense, hc.call_le⟩
    · exact ⟨hn.dense, hn.call_le⟩

theorem Numbered.step (hn : Numbered g st) (h : Inv g st) : Numbered g (st.step g) := by
  rw [Tarjan.step]
  cases hd : st.dfs with
  | nil => exact hn
  | cons fr rest =>
    obtain ⟨v, k⟩ := fr
    cases he : (g.edges v)[k]? with
    | none =>
      simp only [he]
      exact hn.finish h hd
    | some w =>
      simp only [he]
      split_ifs <;> exact ⟨hn.dense, hn.call_le⟩

theorem Numbered.drain (hn : Numbered g st) (h : Inv g st) (fuel : ℕ) :
    Numbered g (drain g fuel st) := by
  induction fuel generalizing st with
  | zero => exact hn
  | succ fuel ih =>
    rw [Tarjan.drain]
    split_ifs
    · exact hn
    · exact ih (hn.step h) h.step

theorem Numbered.foldl (roots : List ℕ) (hn : Numbered g st) (h : Rest g st)
    (hr : ∀ r ∈ roots, r ∈ g.nodes) : Numbered g (roots.foldl (visit g) st) := by
  induction roots generalizing st with
  | nil => exact hn
  | cons r roots ih =>
    refine ih ?_ (h.visit (hr r List.mem_cons_self)).1 fun x hx => hr x (List.mem_cons_of_mem _ hx)
    rw [visit]
    split_ifs with hw
    · have hroot : Numbered g (st.discover r) := ⟨hn.dense, hn.call_le⟩
      exact hroot.drain (h.discover hw (by simp [h.no_stack])) _
    · exact hn

end Tarjan

variable {g : CallGraph} {u v : ℕ}

theorem tarjan_le_of_calls {c c' : ℕ} (hu : tarjan g u = some c) (hc : g.Calls u v)
    (hv : tarjan g v = some c') : c' ≤ c := by
  have hn : Tarjan.Numbered g .start := by constructor <;> simp [Tarjan.start]
  exact (hn.foldl g.nodes ⟨Tarjan.inv_start, rfl⟩ fun r hr => hr).call_le u c hu v hc c' hv

theorem tarjan_dense {c c' : ℕ} (hu : tarjan g u = some c) (hc : c' < c) :
    ∃ v, tarjan g v = some c' := by
  have hn : Tarjan.Numbered g .start := by constructor <;> simp [Tarjan.start]
  have hr : Tarjan.Rest g .start := ⟨Tarjan.inv_start, rfl⟩
  exact (hn.foldl g.nodes hr fun r hr => hr).dense c'
    (hc.trans ((hr.foldl g.nodes fun r hr => hr).1.scc_lt u c hu))

/-- **The components are numbered from the leaves up, without gaps.**  What a function reaches has
no higher number than itself, and the same one exactly if it reaches back. -/
theorem tarjan_bottomUp (hu : u ∈ g.nodes) (hr : g.Reaches u v) :
    ∃ c c', tarjan g u = some c ∧ tarjan g v = some c' ∧ c' ≤ c ∧ (c' = c ↔ g.Reaches v u) ∧
      ∀ d < c, ∃ w, tarjan g w = some d := by
  obtain ⟨c, hc⟩ := Option.ne_none_iff_exists'.mp (tarjan_ne_none hu)
  have hle : ∃ c', tarjan g v = some c' ∧ c' ≤ c := by
    induction hr with
    | refl => exact ⟨c, hc, le_rfl⟩
    | tail _ he ih =>
      obtain ⟨d, hd, hdc⟩ := ih
      obtain ⟨d', hd'⟩ := Option.ne_none_iff_exists'.mp (tarjan_closed (by simp [hd]) he)
      exact ⟨d', hd', (tarjan_le_of_calls hd he hd').trans hdc⟩
  obtain ⟨c', hc', hcc⟩ := hle
  refine ⟨c, c', hc, hc', hcc, ?_, fun d hd => tarjan_dense hc hd⟩
  rw [← Option.some_inj, ← hc, ← hc', tarjan_eq_iff (by simp [hc']) (by simp [hc])]
  exact ⟨fun h => h.1, fun h => ⟨h, hr⟩⟩

/-- A function that calls another one, which calls itself. -/
theorem tarjan_bottomUp_two : ∃ c c', tarjan ⟨[0, 1], [(0, [1]), (1, [1])]⟩ 0 = some c ∧
    tarjan ⟨[0, 1], [(0, [1]), (1, [1])]⟩ 1 = some c' ∧ c' ≤ c := by
  obtain ⟨c, c', hc, hc', hle, -⟩ := tarjan_bottomUp
    (g := ⟨[0, 1], [(0, [1]), (1, [1])]⟩) (u := 0) (v := 1) (by decide)
    (.single (by decide : 1 ∈ [1]))
  exact ⟨c, c', hc, hc', hle⟩

end Numbers

end DssPrime
