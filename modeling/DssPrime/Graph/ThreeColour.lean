import Mathlib

/-!
# Answers from the bottom up

A walk over a graph whose nodes have an answer each, made by a `body` of the answers of the nodes
below.  The work is a stack of frames.  A frame is expanded once, which pushes the nodes below, and
resolved when it comes up again.  A resolved node is in the memo, a node between the two is gray,
and a frame that finds its node gray has closed a cycle: all gray nodes are marked and will have no
answer.

The walk answers what the plain recursion `recursive` answers:

* `walk_terminates` : the work ends.
* `answer_eq` : the answer of the root is that of the recursion, for every order of the nodes below.
* `known_of_resolve` : a node that is resolved by its body finds all nodes below in the memo.

The invariant is `Inv`: what a gray node waits for is above its frame in the work, or known, or the
node is marked.
-/

namespace DssPrime.ThreeColour

variable {V A : Type*}

/-- What a frame still has to do. -/
inductive Phase where
  | expand | resolve

structure Walk (V A : Type*) where
  memo : V → Option (Option A)
  gray : Finset V
  cyclic : Finset V
  work : List (V × Phase)

/-- An answer written down; the first one stays. -/
def emplace [DecidableEq V] (memo : V → Option (Option A)) (v : V) (r : Option A) :
    V → Option (Option A) :=
  if (memo v).isSome then memo else Function.update memo v (some r)

def pushed (below : V → List V) (v : V) : List (V × Phase) :=
  ((below v).map fun d => (d, Phase.expand)).reverse

def step [DecidableEq V] (below : V → List V) (body : V → (V → Option (Option A)) → Option A)
    (s : Walk V A) : Walk V A :=
  match s.work with
  | [] => s
  | (v, .expand) :: rest =>
    if (s.memo v).isSome then { s with work := rest }
    else if v ∈ s.gray then { s with cyclic := s.cyclic ∪ s.gray, work := rest }
    else { s with gray := insert v s.gray, work := pushed below v ++ (v, .resolve) :: rest }
  | (v, .resolve) :: rest =>
    { s with memo := emplace s.memo v (if v ∈ s.cyclic then none else body v s.memo)
             gray := s.gray.erase v
             work := rest }

def start (root : V) : Walk V A := ⟨fun _ => none, ∅, ∅, [(root, .expand)]⟩

def after [DecidableEq V] (below : V → List V)
    (body : V → (V → Option (Option A)) → Option A) (root : V) (n : ℕ) : Walk V A :=
  (step below body)^[n] (start root)

def answer [DecidableEq V] (below : V → List V)
    (body : V → (V → Option (Option A)) → Option A) (n : ℕ) (root : V) : Option (Option A) :=
  let s := after below body root n
  if s.work.isEmpty then some (s.memo root).join else none

def recursive (body : V → (V → Option (Option A)) → Option A) : ℕ → V → Option A
  | 0, _ => none
  | n + 1, v => body v fun d => some (recursive body n d)

def Edge (below : V → List V) (u v : V) : Prop := v ∈ below u

def ReachesCycle (below : V → List V) (v : V) : Prop :=
  ∃ c, Relation.ReflTransGen (Edge below) v c ∧ Relation.TransGen (Edge below) c c

section Cycles

variable {below : V → List V} {u v : V}

theorem ReachesCycle.head (h : Relation.ReflTransGen (Edge below) u v)
    (hv : ReachesCycle below v) : ReachesCycle below u := by
  obtain ⟨c, hc, hcc⟩ := hv
  exact ⟨c, h.trans hc, hcc⟩

theorem reachesCycle_iff : ReachesCycle below v ↔ ∃ d ∈ below v, ReachesCycle below d := by
  constructor
  · rintro ⟨c, hc, hcc⟩
    rcases Relation.ReflTransGen.cases_head hc with rfl | ⟨d, hd, hdc⟩
    · obtain ⟨d, hd, hdv⟩ := Relation.TransGen.head'_iff.1 hcc
      exact ⟨d, hd, v, hdv, hcc⟩
    · exact ⟨d, hd, c, hdc, hcc⟩
  · rintro ⟨d, hd, hcyc⟩
    exact hcyc.head (.single hd)

theorem reachesCycle_congr {below' : V → List V} (h : ∀ v d, d ∈ below v ↔ d ∈ below' v) :
    ReachesCycle below v ↔ ReachesCycle below' v := by
  have hedge : Edge below = Edge below' := by
    funext u w
    exact propext (h u w)
  rw [ReachesCycle, ReachesCycle, hedge]

end Cycles

/-- The body of a node looks at the nodes below, and refuses where those that reach a cycle have no
answer. -/
structure Regular (below : V → List V) (body : V → (V → Option (Option A)) → Option A) : Prop where
  looks : ∀ v m m', (∀ d ∈ below v, m d = m' d) → body v m = body v m'
  refuses : ∀ v m, ReachesCycle below v →
    (∀ d ∈ below v, ReachesCycle below d → m d = some none) → body v m = none

theorem Regular.congr {below below' : V → List V}
    {body : V → (V → Option (Option A)) → Option A} (hreg : Regular below body)
    (h : ∀ v d, d ∈ below v ↔ d ∈ below' v) : Regular below' body := by
  refine ⟨fun v m m' hm => hreg.looks v m m' fun d hd => hm d ((h v d).1 hd), ?_⟩
  intro v m hcyc hm
  refine hreg.refuses v m ((reachesCycle_congr h).2 hcyc) fun d hd hdc => ?_
  exact hm d ((h v d).1 hd) ((reachesCycle_congr h).1 hdc)

section Recursion

variable {below : V → List V} {body : V → (V → Option (Option A)) → Option A} {v : V}

theorem recursive_eq_none (hreg : Regular below body) (n : ℕ) (h : ReachesCycle below v) :
    recursive body n v = none := by
  induction n generalizing v with
  | zero => rfl
  | succ n ih => exact hreg.refuses v _ h fun d _ hd => congrArg some (ih hd)

/-- Without a cycle, the recursion is done at a depth of as many nodes as there are. -/
theorem recursive_stable [DecidableEq V] (hreg : Regular below body) (T : Finset V) {n : ℕ}
    (hT : ∀ u, Relation.ReflTransGen (Edge below) v u → u ∈ T) (h : ¬ ReachesCycle below v)
    (hn : T.card ≤ n) : recursive body n v = recursive body T.card v := by
  induction T using Finset.strongInduction generalizing v n with
  | H T ih =>
    have hv : v ∈ T := hT v .refl
    have hcard := Finset.card_erase_add_one hv
    obtain ⟨k, rfl⟩ : ∃ k, n = k + 1 := ⟨n - 1, by omega⟩
    rw [← hcard]
    refine hreg.looks v _ _ fun d hd => congrArg some ?_
    refine ih _ (Finset.erase_ssubset hv) (fun u hu => ?_) (fun hdc => h ?_) (by omega)
    · refine Finset.mem_erase.2 ⟨fun huv => ?_, hT u (.head hd hu)⟩
      subst huv
      exact h ⟨_, .refl, Relation.TransGen.head'_iff.2 ⟨d, hd, hu⟩⟩
    · exact hdc.head (.single hd)

variable {S : Finset V} (hreg : Regular below body) (hS : ∀ v ∈ S, ∀ d ∈ below v, d ∈ S)
include hreg hS

theorem recursive_eq [DecidableEq V] (hv : v ∈ S) :
    recursive body S.card v = body v fun d => some (recursive body S.card d) := by
  by_cases hcyc : ReachesCycle below v
  · rw [recursive_eq_none hreg _ hcyc]
    exact (hreg.refuses v _ hcyc fun d _ hd => congrArg some (recursive_eq_none hreg _ hd)).symm
  · have hinside : ∀ u, Relation.ReflTransGen (Edge below) v u → u ∈ S := by
      intro u hu
      induction hu with
      | refl => exact hv
      | tail _ hedge ih => exact hS _ ih _ hedge
    exact (recursive_stable hreg S hinside hcyc (Nat.le_succ _)).symm

end Recursion

/-- The invariant of the walk. -/
structure Inv (below : V → List V) (body : V → (V → Option (Option A)) → Option A) (S : Finset V)
    (root : V) (s : Walk V A) : Prop where
  /-- The nodes on the path have a frame that waits. -/
  gray_iff : ∀ v, v ∈ s.gray ↔ (v, Phase.resolve) ∈ s.work
  once : ∀ above v rest, s.work = above ++ (v, .resolve) :: rest → (v, Phase.resolve) ∉ rest
  under : ∀ above v rest, s.work = above ++ (v, .resolve) :: rest →
    ∀ f ∈ above, Relation.TransGen (Edge below) v f.1
  waits : ∀ above v rest, s.work = above ++ (v, .resolve) :: rest →
    ∀ d ∈ below v, (s.memo d).isSome ∨ d ∈ above.map Prod.fst ∨ v ∈ s.cyclic
  open_gray : ∀ v ∈ s.gray, s.memo v = none
  memo_eq : ∀ v r, s.memo v = some r → r = recursive body S.card v
  marked : ∀ v ∈ s.cyclic, ReachesCycle below v
  inside : ∀ f ∈ s.work, f.1 ∈ S
  root_mem : (s.memo root).isSome ∨ root ∈ s.work.map Prod.fst

section Invariant

variable {below : V → List V} {body : V → (V → Option (Option A)) → Option A} {S : Finset V}
  {root v : V} {s : Walk V A} {rest : List (V × Phase)}

theorem inv_start (hroot : root ∈ S) : Inv below body S root (start root : Walk V A) where
  gray_iff v := by simp [start]
  once above v rest h := by
    have := List.append_eq_cons_iff.1 h.symm
    simp_all
  under above v rest h := by
    have := List.append_eq_cons_iff.1 h.symm
    simp_all
  waits above v rest h := by
    have := List.append_eq_cons_iff.1 h.symm
    simp_all
  open_gray v hv := rfl
  memo_eq v r h := by cases h
  marked v hv := by simp [start] at hv
  inside f hf := by
    obtain rfl := List.mem_singleton.1 hf
    exact hroot
  root_mem := .inr (by simp [start])

/-- A waiting frame in the work of an expanded node is its own or an older one. -/
theorem split_pushed {L above rest rest' : List (V × Phase)} {x : V}
    (hL : ∀ f ∈ L, f.2 = Phase.expand)
    (h : L ++ (x, .resolve) :: rest = above ++ (v, .resolve) :: rest') :
    (above = L ∧ v = x ∧ rest' = rest) ∨
      ∃ older, above = L ++ (x, .resolve) :: older ∧ rest = older ++ (v, .resolve) :: rest' := by
  induction L generalizing above with
  | nil =>
    cases above with
    | nil =>
      obtain ⟨hx, rfl⟩ := List.cons.inj h
      exact .inl ⟨rfl, (congrArg Prod.fst hx).symm, rfl⟩
    | cons f above =>
      obtain ⟨rfl, rfl⟩ := List.cons.inj h
      exact .inr ⟨above, rfl, rfl⟩
  | cons f L ih =>
    obtain ⟨hf, hL⟩ := List.forall_mem_cons.1 hL
    cases above with
    | nil =>
      obtain ⟨rfl, -⟩ := List.cons.inj h
      cases hf
    | cons g above =>
      obtain ⟨rfl, htail⟩ := List.cons.inj h
      obtain ⟨rfl, hv, hrest⟩ | ⟨older, rfl, hrest⟩ := ih hL htail
      · exact .inl ⟨rfl, hv, hrest⟩
      · exact .inr ⟨older, rfl, hrest⟩

theorem mem_pushed {f : V × Phase} : f ∈ pushed below v ↔ f.1 ∈ below v ∧ f.2 = .expand := by
  obtain ⟨u, p⟩ := f
  simp only [pushed, List.mem_reverse, List.mem_map, Prod.mk.injEq]
  constructor
  · rintro ⟨d, hd, rfl, rfl⟩
    exact ⟨hd, rfl⟩
  · rintro ⟨hd, rfl⟩
    exact ⟨u, hd, rfl, rfl⟩

theorem above_cons {f x : V × Phase} {above rest' : List (V × Phase)} (hwork : s.work = f :: rest)
    (h : rest = above ++ x :: rest') : s.work = (f :: above) ++ x :: rest' := by
  rw [hwork, h]
  rfl

theorem Inv.skip (h : Inv below body S root s) (hwork : s.work = (v, .expand) :: rest)
    (hknown : (s.memo v).isSome) : Inv below body S root { s with work := rest } := by
  refine ⟨fun u => ?_, fun above u rest' hrest => h.once _ _ _ (above_cons hwork hrest), ?_, ?_,
    h.open_gray, h.memo_eq, h.marked, fun f hf => ?_, ?_⟩
  · rw [h.gray_iff, hwork]
    simp
  · intro above u rest' hrest f hf
    exact h.under _ _ _ (above_cons hwork hrest) f (List.mem_cons_of_mem _ hf)
  · intro above u rest' hrest d hd
    rcases h.waits _ _ _ (above_cons hwork hrest) d hd with hk | ha | hc
    · exact .inl hk
    · rcases List.mem_cons.1 ha with rfl | ha
      · exact .inl hknown
      · exact .inr (.inl ha)
    · exact .inr (.inr hc)
  · exact h.inside f (hwork ▸ List.mem_cons_of_mem _ hf)
  · rcases h.root_mem with hk | hr
    · exact .inl hk
    · rw [hwork] at hr
      rcases List.mem_cons.1 hr with rfl | hr
      · exact .inl hknown
      · exact .inr hr

/-- The node is on the path: all nodes on the path reach the cycle that it closes. -/
theorem Inv.mark [DecidableEq V] (h : Inv below body S root s)
    (hwork : s.work = (v, .expand) :: rest)
    (hgray : v ∈ s.gray) :
    Inv below body S root { s with cyclic := s.cyclic ∪ s.gray, work := rest } := by
  have hpath : ∀ u ∈ s.gray, Relation.TransGen (Edge below) u v := by
    intro u hu
    have hmem := (h.gray_iff u).1 hu
    obtain ⟨above, rest', hsplit⟩ := List.append_of_mem hmem
    cases above with
    | nil =>
      rw [hwork] at hsplit
      cases hsplit
    | cons f above =>
      have hf : f = (v, .expand) := by
        rw [hwork] at hsplit
        exact (List.cons.inj hsplit).1.symm
      have := h.under _ _ _ hsplit f List.mem_cons_self
      rwa [hf] at this
  refine ⟨fun u => ?_, fun above u rest' hrest => h.once _ _ _ (above_cons hwork hrest), ?_, ?_,
    h.open_gray, h.memo_eq, fun u hu => ?_, fun f hf => ?_, ?_⟩
  · rw [h.gray_iff, hwork]
    simp
  · intro above u rest' hrest f hf
    exact h.under _ _ _ (above_cons hwork hrest) f (List.mem_cons_of_mem _ hf)
  · intro above u rest' hrest d hd
    refine .inr (.inr (Finset.mem_union_right _ ((h.gray_iff u).2 ?_)))
    rw [above_cons hwork hrest]
    simp
  · rcases Finset.mem_union.1 hu with hu | hu
    · exact h.marked u hu
    · exact ⟨v, (hpath u hu).to_reflTransGen, hpath v hgray⟩
  · exact h.inside f (hwork ▸ List.mem_cons_of_mem _ hf)
  · rcases h.root_mem with hk | hr
    · exact .inl hk
    · rw [hwork] at hr
      rcases List.mem_cons.1 hr with rfl | hr
      · right
        have hmem := (h.gray_iff root).1 hgray
        rw [hwork] at hmem
        rcases List.mem_cons.1 hmem with hbad | hmem
        · cases hbad
        · exact List.mem_map.2 ⟨_, hmem, rfl⟩
      · exact .inr hr

theorem Inv.push [DecidableEq V] (hS : ∀ v ∈ S, ∀ d ∈ below v, d ∈ S) (h : Inv below body S root s)
    (hwork : s.work = (v, .expand) :: rest) (hknown : ¬ (s.memo v).isSome) (hgray : v ∉ s.gray) :
    Inv below body S root
      { s with gray := insert v s.gray, work := pushed below v ++ (v, .resolve) :: rest } := by
  have hexp : ∀ f ∈ pushed below v, f.2 = Phase.expand := fun f hf => (mem_pushed.1 hf).2
  have hnot : (v, Phase.resolve) ∉ rest := by
    intro hmem
    refine hgray ((h.gray_iff v).2 ?_)
    rw [hwork]
    exact List.mem_cons_of_mem _ hmem
  refine ⟨fun u => ?_, ?_, ?_, ?_, fun u hu => ?_, h.memo_eq, h.marked, fun f hf => ?_, ?_⟩
  · rw [Finset.mem_insert, h.gray_iff, hwork, List.mem_append, List.mem_cons, List.mem_cons]
    constructor
    · rintro (rfl | hbad | hmem)
      · exact .inr (.inl rfl)
      · cases hbad
      · exact .inr (.inr hmem)
    · rintro (hmem | heq | hmem)
      · cases hexp _ hmem
      · exact .inl (congrArg Prod.fst heq)
      · exact .inr (.inr hmem)
  · intro above u rest' hsplit
    obtain ⟨-, rfl, rfl⟩ | ⟨older, -, hrest⟩ := split_pushed hexp hsplit
    · exact hnot
    · exact h.once _ _ _ (above_cons hwork hrest)
  · intro above u rest' hsplit f hf
    obtain ⟨rfl, rfl, -⟩ | ⟨older, rfl, hrest⟩ := split_pushed hexp hsplit
    · exact .single (mem_pushed.1 hf).1
    · have hunder := h.under _ _ _ (above_cons hwork hrest)
      have huv : Relation.TransGen (Edge below) u v := hunder _ List.mem_cons_self
      rcases List.mem_append.1 hf with hf | hf
      · exact huv.tail (mem_pushed.1 hf).1
      · rcases List.mem_cons.1 hf with rfl | hf
        · exact huv
        · exact hunder f (List.mem_cons_of_mem _ hf)
  · intro above u rest' hsplit d hd
    obtain ⟨rfl, rfl, -⟩ | ⟨older, rfl, hrest⟩ := split_pushed hexp hsplit
    · exact .inr (.inl (List.mem_map.2 ⟨(d, .expand), mem_pushed.2 ⟨hd, rfl⟩, rfl⟩))
    · rcases h.waits _ _ _ (above_cons hwork hrest) d hd with hk | ha | hc
      · exact .inl hk
      · refine .inr (.inl ?_)
        rw [List.map_append, List.mem_append, List.map_cons]
        exact .inr ha
      · exact .inr (.inr hc)
  · rcases Finset.mem_insert.1 hu with rfl | hu
    · simpa using hknown
    · exact h.open_gray u hu
  · have hv : v ∈ S := h.inside (v, .expand) (hwork ▸ List.mem_cons_self)
    rcases List.mem_append.1 hf with hf | hf
    · exact hS v hv _ (mem_pushed.1 hf).1
    · rcases List.mem_cons.1 hf with rfl | hf
      · exact hv
      · exact h.inside f (hwork ▸ List.mem_cons_of_mem _ hf)
  · rcases h.root_mem with hk | hr
    · exact .inl hk
    · refine .inr ?_
      rw [hwork] at hr
      rw [List.map_append, List.mem_append, List.map_cons]
      exact .inr hr

/-- The frame of a node comes up again: the nodes below are known, or the node is marked. -/
theorem known_of_resolve (h : Inv below body S root s) (hwork : s.work = (v, .resolve) :: rest)
    (hv : v ∉ s.cyclic) : ∀ d ∈ below v, (s.memo d).isSome := by
  intro d hd
  rcases h.waits [] v rest hwork d hd with hk | hbad | hc
  · exact hk
  · cases hbad
  · exact absurd hc hv

theorem Inv.resolved_eq (hreg : Regular below body) (hS : ∀ v ∈ S, ∀ d ∈ below v, d ∈ S)
    (h : Inv below body S root s) (hwork : s.work = (v, .resolve) :: rest) (hv : v ∉ s.cyclic) :
    body v s.memo = recursive body S.card v := by
  classical
  have hvS : v ∈ S := h.inside (v, .resolve) (hwork ▸ List.mem_cons_self)
  rw [recursive_eq hreg hS hvS]
  refine hreg.looks v _ _ fun d hd => ?_
  obtain ⟨r, hr⟩ := Option.isSome_iff_exists.1 (known_of_resolve h hwork hv d hd)
  rw [hr, h.memo_eq d r hr]

theorem Inv.resolve [DecidableEq V] (hreg : Regular below body)
    (hS : ∀ v ∈ S, ∀ d ∈ below v, d ∈ S) (h : Inv below body S root s)
    (hwork : s.work = (v, .resolve) :: rest) :
    Inv below body S root
      { s with memo := emplace s.memo v (if v ∈ s.cyclic then none else body v s.memo)
               gray := s.gray.erase v
               work := rest } := by
  have hgray : v ∈ s.gray := (h.gray_iff v).2 (hwork ▸ List.mem_cons_self)
  have hnone := h.open_gray v hgray
  have honce : (v, Phase.resolve) ∉ rest := h.once [] v rest hwork
  have hmemo : emplace s.memo v (if v ∈ s.cyclic then none else body v s.memo) =
      Function.update s.memo v (some (recursive body S.card v)) := by
    rw [emplace, hnone, if_neg (by simp)]
    congr 2
    split_ifs with hc
    · exact (recursive_eq_none hreg _ (h.marked v hc)).symm
    · exact h.resolved_eq hreg hS hwork hc
  have hself : ∀ r, (Function.update s.memo v (some r) v).isSome := fun r => by simp
  have hkeep : ∀ d r, (s.memo d).isSome → (Function.update s.memo v (some r) d).isSome := by
    intro d r hd
    by_cases hdv : d = v
    · rw [hdv]
      exact hself r
    · rwa [Function.update_of_ne hdv]
  rw [hmemo]
  refine ⟨fun u => ?_, fun above u rest' hrest => h.once _ _ _ (above_cons hwork hrest), ?_, ?_,
    fun u hu => ?_, fun u r hr => ?_, h.marked, fun f hf => ?_, ?_⟩
  · rw [Finset.mem_erase, h.gray_iff, hwork, List.mem_cons]
    constructor
    · rintro ⟨hne, heq | hmem⟩
      · exact absurd (congrArg Prod.fst heq) hne
      · exact hmem
    · intro hmem
      refine ⟨fun huv => ?_, .inr hmem⟩
      rw [huv] at hmem
      exact honce hmem
  · intro above u rest' hrest f hf
    exact h.under _ _ _ (above_cons hwork hrest) f (List.mem_cons_of_mem _ hf)
  · intro above u rest' hrest d hd
    rcases h.waits _ _ _ (above_cons hwork hrest) d hd with hk | ha | hc
    · exact .inl (hkeep d _ hk)
    · rcases List.mem_cons.1 ha with rfl | ha
      · exact .inl (hself _)
      · exact .inr (.inl ha)
    · exact .inr (.inr hc)
  · obtain ⟨hne, hu⟩ := Finset.mem_erase.1 hu
    exact (Function.update_of_ne hne _ _).trans (h.open_gray u hu)
  · by_cases huv : u = v
    · subst huv
      exact (Option.some.inj ((Function.update_self u _ s.memo).symm.trans hr)).symm
    · exact h.memo_eq u r ((Function.update_of_ne huv _ _).symm.trans hr)
  · exact h.inside f (hwork ▸ List.mem_cons_of_mem _ hf)
  · rcases h.root_mem with hk | hr
    · exact .inl (hkeep root _ hk)
    · rw [hwork] at hr
      rcases List.mem_cons.1 hr with rfl | hr
      · exact .inl (hself _)
      · exact .inr hr

variable [DecidableEq V] (hreg : Regular below body) (hS : ∀ v ∈ S, ∀ d ∈ below v, d ∈ S)

include hreg hS in
theorem Inv.step (h : Inv below body S root s) : Inv below body S root (step below body s) := by
  rcases hwork : s.work with _ | ⟨⟨v, phase⟩, rest⟩
  · rwa [ThreeColour.step, hwork]
  cases phase with
  | expand =>
    simp only [ThreeColour.step, hwork]
    split_ifs with hknown hgray
    · exact h.skip hwork hknown
    · exact h.mark hwork hgray
    · exact h.push hS hwork hknown hgray
  | resolve =>
    simp only [ThreeColour.step, hwork]
    exact h.resolve hreg hS hwork

include hreg hS in
theorem inv_after (hroot : root ∈ S) (n : ℕ) : Inv below body S root (after below body root n) := by
  induction n with
  | zero => exact inv_start hroot
  | succ n ih =>
    rw [after, Function.iterate_succ_apply']
    exact ih.step hreg hS

/-- The nodes that are neither known nor on the path. -/
def white (S : Finset V) (s : Walk V A) : Finset V :=
  S.filter fun v => s.memo v = none ∧ v ∉ s.gray

include hreg hS in
theorem Inv.step_lt (h : Inv below body S root s) (hne : s.work ≠ []) :
    (white S (ThreeColour.step below body s)).card < (white S s).card ∨
      (white S (ThreeColour.step below body s)).card ≤ (white S s).card ∧
        (ThreeColour.step below body s).work.length < s.work.length := by
  have hstep := h.step hreg hS
  rcases hwork : s.work with _ | ⟨⟨v, phase⟩, rest⟩
  · exact absurd hwork hne
  cases phase with
  | expand =>
    simp only [ThreeColour.step, hwork]
    split_ifs with hknown hgray
    · exact .inr ⟨le_rfl, by simp⟩
    · exact .inr ⟨le_rfl, by simp⟩
    · have hv : v ∈ S := h.inside (v, .expand) (hwork ▸ List.mem_cons_self)
      refine .inl (Finset.card_lt_card ⟨fun u hu => ?_, fun hsub => ?_⟩)
      · obtain ⟨huS, hun, hug⟩ := Finset.mem_filter.1 hu
        exact Finset.mem_filter.2 ⟨huS, hun, fun hu => hug (Finset.mem_insert_of_mem hu)⟩
      · have hwhite : v ∈ white S s :=
          Finset.mem_filter.2 ⟨hv, by simpa using hknown, hgray⟩
        exact (Finset.mem_filter.1 (hsub hwhite)).2.2 (Finset.mem_insert_self _ _)
  | resolve =>
    simp only [ThreeColour.step, hwork]
    refine .inr ⟨Finset.card_le_card fun u hu => ?_, by simp⟩
    obtain ⟨huS, hun, hug⟩ := Finset.mem_filter.1 hu
    have hnone := h.open_gray v ((h.gray_iff v).2 (hwork ▸ List.mem_cons_self))
    have huv : u ≠ v := by
      rintro rfl
      simp [emplace, hnone] at hun
    refine Finset.mem_filter.2 ⟨huS, ?_, fun hu => hug (Finset.mem_erase.2 ⟨huv, hu⟩)⟩
    simpa [emplace, hnone, Function.update_of_ne huv] using hun

include hreg hS in
theorem Inv.ends {s : Walk V A} (h : Inv below body S root s) :
    ∃ n, ((ThreeColour.step below body)^[n] s).work = [] := by
  by_cases hne : s.work = []
  · exact ⟨0, hne⟩
  · have hlt := h.step_lt hreg hS hne
    obtain ⟨n, hn⟩ := Inv.ends (h.step hreg hS)
    exact ⟨n + 1, hn⟩
termination_by ((white S s).card, s.work.length)
decreasing_by
  rcases hlt with hlt | ⟨hle, hlt⟩
  · exact Prod.Lex.left _ _ hlt
  · rcases hle.lt_or_eq with hlt' | heq
    · exact Prod.Lex.left _ _ hlt'
    · rw [heq]
      exact Prod.Lex.right _ hlt

end Invariant

section Answers

variable [DecidableEq V] {below : V → List V} {body : V → (V → Option (Option A)) → Option A}
  {S : Finset V} {root : V}

theorem after_ended {m n : ℕ} (h : (after below body root m).work = []) (hmn : m ≤ n) :
    after below body root n = after below body root m := by
  obtain ⟨k, rfl⟩ := Nat.exists_eq_add_of_le hmn
  induction k with
  | zero => rfl
  | succ k ih =>
    have hk := ih (Nat.le_add_right _ _)
    rw [← Nat.add_assoc, after, Function.iterate_succ_apply', ← after, hk, step, h]

theorem answer_eq (hreg : Regular below body) (hS : ∀ v ∈ S, ∀ d ∈ below v, d ∈ S)
    (hroot : root ∈ S) :
    ∃ m, ∀ n ≥ m, answer below body n root = some (recursive body S.card root) := by
  have hstart : Inv below body S root (start root) := inv_start hroot
  obtain ⟨m, hm⟩ := hstart.ends hreg hS
  refine ⟨m, fun n hn => ?_⟩
  have hend : (after below body root m).work = [] := hm
  have hinv := inv_after hreg hS hroot m
  rw [answer, after_ended hend hn, hend]
  rcases hinv.root_mem with hk | hbad
  · obtain ⟨r, hr⟩ := Option.isSome_iff_exists.1 hk
    simp [hr, hinv.memo_eq root r hr]
  · rw [hend] at hbad
    cases hbad

end Answers

end DssPrime.ThreeColour
