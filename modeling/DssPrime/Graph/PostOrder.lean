import DssPrime.Graph.Worklist

/-!
# Depth-first reverse post-order

The iterative depth-first walk with an explicit stack of frames. A node is put in front of the order
when its last successor has been looked at, so the finished order is the reverse post-order of the
walk.

* `PostOrder.parent` : every node but the entry comes after one of its predecessors. The order is
  therefore compatible with dominance (`Graph.Dominance`).
-/

namespace DssPrime.PostOrder

variable {α : Type*}

/-- The walk: frames with the successors still to look at, the visited nodes, and the order so
far.  `none` is running out of fuel. -/
def run [DecidableEq α] (next : α → List α) :
    ℕ → List (α × List α) → List α → List α → Option (List α)
  | _, [], _, order => some order
  | 0, _ :: _, _, _ => none
  | fuel + 1, (b, []) :: stack, visited, order => run next fuel stack visited (b :: order)
  | fuel + 1, (b, s :: rest) :: stack, visited, order =>
    if s ∈ visited then run next fuel ((b, rest) :: stack) visited order
    else run next fuel ((s, next s) :: (b, rest) :: stack) (s :: visited) order

def walk [DecidableEq α] (next : α → List α) (fuel : ℕ) (entry : α) : Option (List α) :=
  run next fuel [(entry, next entry)] [entry] []

/-- Each frame stands on a predecessor of its node, the last one on nothing. -/
def Linked (next : α → List α) (entry : α) : List (α × List α) → Prop
  | [] => True
  | [f] => f.1 = entry
  | f :: g :: stack => f.1 ∈ next g.1 ∧ Linked next entry (g :: stack)

structure Walking (next : α → List α) (entry : α) (stack : List (α × List α))
    (visited order : List α) : Prop where
  visited_iff : ∀ x, x ∈ visited ↔ x ∈ stack.map Prod.fst ∨ x ∈ order
  nodup : (stack.map Prod.fst ++ order).Nodup
  linked : Linked next entry stack
  frames : ∀ f ∈ stack, ∀ y ∈ next f.1, y ∈ visited ∨ y ∈ f.2
  succs : ∀ f ∈ stack, ∀ y ∈ f.2, y ∈ next f.1
  closed : ∀ x ∈ order, ∀ y ∈ next x, y ∈ visited
  parent : ∀ l v r, order = l ++ v :: r → v = entry ∧ stack = [] ∨
    ∃ u, v ∈ next u ∧ (u ∈ stack.map Prod.fst ∨ u ∈ l)
  entry_mem : entry ∈ stack.map Prod.fst ∨ stack = [] ∧ entry ∈ order

variable {next : α → List α} {entry : α} {stack : List (α × List α)} {visited order : List α}

theorem Linked.entry_mem :
    ∀ {f : α × List α} {stack : List (α × List α)}, Linked next entry (f :: stack) →
      entry ∈ (f :: stack).map Prod.fst
  | f, [], h => by
    obtain rfl : f.1 = entry := h
    simp
  | _, _ :: _, h => List.mem_cons_of_mem _ (Linked.entry_mem h.2)

theorem walking_start : Walking next entry [(entry, next entry)] [entry] [] where
  visited_iff x := by simp
  nodup := by simp
  linked := rfl
  frames f hf y hy := by
    obtain rfl := List.mem_singleton.1 hf
    exact .inr hy
  succs f hf y hy := by
    obtain rfl := List.mem_singleton.1 hf
    exact hy
  closed x hx := by simp at hx
  parent l v r h := by simp at h
  entry_mem := .inl (by simp)

/-- The last successor of a node has been looked at. -/
theorem Walking.finish {b : α} (h : Walking next entry ((b, []) :: stack) visited order) :
    Walking next entry stack visited (b :: order) where
  visited_iff x := by
    rw [h.visited_iff]
    simp only [List.map_cons, List.mem_cons]
    tauto
  nodup := by
    have := h.nodup
    rw [List.map_cons, List.cons_append] at this
    exact (List.perm_middle.nodup_iff).2 this
  linked := by
    have := h.linked
    cases stack with
    | nil => trivial
    | cons g stack => exact this.2
  frames f hf := h.frames f (List.mem_cons_of_mem _ hf)
  succs f hf := h.succs f (List.mem_cons_of_mem _ hf)
  closed x hx y hy := by
    rcases List.mem_cons.1 hx with rfl | hx
    · simpa using h.frames (x, []) List.mem_cons_self y hy
    · exact h.closed x hx y hy
  parent l v r hl := by
    cases l with
    | nil =>
      -- the node itself: its parent is the frame below
      obtain ⟨rfl, rfl⟩ : b = v ∧ order = r := by simpa using hl
      have := h.linked
      cases stack with
      | nil => exact .inl ⟨this, rfl⟩
      | cons g stack => exact .inr ⟨g.1, this.1, .inl (by simp)⟩
    | cons c l =>
      obtain ⟨rfl, hl'⟩ : b = c ∧ order = l ++ v :: r := by simpa using hl
      rcases h.parent l v r hl' with ⟨-, hs⟩ | ⟨u, hu, hm⟩
      · simp at hs
      · refine .inr ⟨u, hu, ?_⟩
        simp only [List.map_cons, List.mem_cons] at hm ⊢
        tauto
  entry_mem := by
    rcases h.entry_mem with he | ⟨hs, -⟩
    · rcases List.mem_cons.1 he with rfl | he
      · have hlink := h.linked
        cases stack with
        | nil => exact .inr ⟨rfl, List.mem_cons_self⟩
        | cons g stack => exact .inl hlink.2.entry_mem
      · exact .inl he
    · simp at hs

theorem Walking.pass {b s : α} {rest : List α} (hs : s ∈ visited)
    (h : Walking next entry ((b, s :: rest) :: stack) visited order) :
    Walking next entry ((b, rest) :: stack) visited order where
  visited_iff := h.visited_iff
  nodup := h.nodup
  linked := by
    have := h.linked
    cases stack with
    | nil => exact this
    | cons g stack => exact this
  frames f hf y hy := by
    rcases List.mem_cons.1 hf with rfl | hf
    · rcases h.frames (b, s :: rest) List.mem_cons_self y hy with hv | hm
      · exact .inl hv
      · rcases List.mem_cons.1 hm with rfl | hm
        · exact .inl hs
        · exact .inr hm
    · exact h.frames f (List.mem_cons_of_mem _ hf) y hy
  succs f hf y hy := by
    rcases List.mem_cons.1 hf with rfl | hf
    · exact h.succs (b, s :: rest) List.mem_cons_self y (List.mem_cons_of_mem _ hy)
    · exact h.succs f (List.mem_cons_of_mem _ hf) y hy
  closed := h.closed
  parent l v r hl := by
    rcases h.parent l v r hl with ⟨-, he⟩ | hu
    · simp at he
    · exact .inr hu
  entry_mem := by
    rcases h.entry_mem with he | ⟨he, -⟩
    · exact .inl he
    · simp at he

theorem Walking.enter {b s : α} {rest : List α} (hs : s ∉ visited)
    (h : Walking next entry ((b, s :: rest) :: stack) visited order) :
    Walking next entry ((s, next s) :: (b, rest) :: stack) (s :: visited) order where
  visited_iff x := by
    rw [List.mem_cons, h.visited_iff]
    simp only [List.map_cons, List.mem_cons]
    tauto
  nodup := by
    have hn : s ∉ ((b, s :: rest) :: stack).map Prod.fst ++ order := by
      rw [List.mem_append]
      exact fun hm => hs ((h.visited_iff s).2 hm)
    exact List.nodup_cons.2 ⟨hn, h.nodup⟩
  linked := by
    refine ⟨h.succs _ List.mem_cons_self s List.mem_cons_self, ?_⟩
    have := h.linked
    cases stack with
    | nil => exact this
    | cons g stack => exact this
  frames f hf y hy := by
    rcases List.mem_cons.1 hf with rfl | hf
    · exact .inr hy
    · rcases List.mem_cons.1 hf with rfl | hf
      · rcases h.frames (b, s :: rest) List.mem_cons_self y hy with hv | hm
        · exact .inl (List.mem_cons_of_mem _ hv)
        · rcases List.mem_cons.1 hm with rfl | hm
          · exact .inl List.mem_cons_self
          · exact .inr hm
      · exact (h.frames f (List.mem_cons_of_mem _ hf) y hy).imp_left (List.mem_cons_of_mem _)
  succs f hf y hy := by
    rcases List.mem_cons.1 hf with rfl | hf
    · exact hy
    · rcases List.mem_cons.1 hf with rfl | hf
      · exact h.succs (b, s :: rest) List.mem_cons_self y (List.mem_cons_of_mem _ hy)
      · exact h.succs f (List.mem_cons_of_mem _ hf) y hy
  closed x hx y hy := List.mem_cons_of_mem _ (h.closed x hx y hy)
  parent l v r hl := by
    rcases h.parent l v r hl with ⟨-, he⟩ | ⟨u, hu, hm⟩
    · simp at he
    · exact .inr ⟨u, hu, hm.imp_left (List.mem_cons_of_mem _)⟩
  entry_mem := by
    rcases h.entry_mem with he | ⟨he, -⟩
    · exact .inl (List.mem_cons_of_mem _ he)
    · simp at he

theorem walking_run [DecidableEq α] {fuel : ℕ} {r : List α} :
    ∀ {stack : List (α × List α)} {visited order : List α},
      Walking next entry stack visited order → run next fuel stack visited order = some r →
      ∃ visited', Walking next entry [] visited' r := by
  induction fuel with
  | zero =>
    intro stack visited order h hr
    cases stack with
    | nil =>
      obtain rfl := Option.some.inj hr
      exact ⟨visited, h⟩
    | cons f stack => simp [run] at hr
  | succ fuel ih =>
    intro stack visited order h hr
    match stack, h, hr with
    | [], h, hr =>
      obtain rfl := Option.some.inj hr
      exact ⟨visited, h⟩
    | (b, []) :: stack, h, hr => exact ih h.finish hr
    | (b, s :: rest) :: stack, h, hr =>
      rw [run] at hr
      split_ifs at hr with hs
      · exact ih (h.pass hs) hr
      · exact ih (h.enter hs) hr

section

variable [DecidableEq α] {fuel : ℕ} {r : List α}

theorem nodup (h : walk next fuel entry = some r) : r.Nodup := by
  obtain ⟨_, hw⟩ := walking_run walking_start h
  simpa using hw.nodup

/-- **Every node but the entry comes after one of its predecessors.** -/
theorem parent (h : walk next fuel entry = some r) {l t : List α} {v : α}
    (hr : r = l ++ v :: t) : v = entry ∨ ∃ u ∈ l, v ∈ next u := by
  obtain ⟨_, hw⟩ := walking_run walking_start h
  rcases hw.parent l v t hr with ⟨hv, -⟩ | ⟨u, hu, hm⟩
  · exact .inl hv
  · exact .inr ⟨u, by simpa using hm, hu⟩

/-- Induction along the order: what holds of the entry and passes along the edges between nodes
that come no later than `v` holds of `v`. -/
theorem induction_upto (h : walk next fuel entry = some r) {Q : α → Prop} (hentry : Q entry) :
    ∀ {l t : List α} {v : α}, r = l ++ v :: t →
      (∀ u ∈ l, ∀ w ∈ next u, w ∈ l ∨ w = v → Q u → Q w) → Q v := by
  intro l
  induction hl : l.length using Nat.strong_induction_on generalizing l with
  | _ n ih =>
    intro t v hr hstep
    rcases parent h hr with rfl | ⟨u, hu, hvu⟩
    · exact hentry
    · refine hstep u hu v hvu (.inr rfl) ?_
      obtain ⟨l₁, l₂, rfl⟩ := List.append_of_mem hu
      refine ih l₁.length ?_ rfl (t := l₂ ++ v :: t) (by rw [hr]; simp) ?_
      · rw [← hl]; simp
      · intro u' hu' w hw hle
        refine hstep u' (List.mem_append_left _ hu') w hw (.inl ?_)
        rcases hle with hle | rfl
        · exact List.mem_append_left _ hle
        · simp

/-- **The order lists what the entry reaches.** -/
theorem mem_iff (h : walk next fuel entry = some r) {x : α} :
    x ∈ r ↔ Worklist.Reaches next entry x := by
  constructor
  · intro hx
    obtain ⟨l, t, hr⟩ := List.append_of_mem hx
    exact induction_upto h .refl hr fun u _ w hw _ hu => .tail hu hw
  · obtain ⟨visited, hw⟩ := walking_run walking_start h
    have hvis : ∀ y, y ∈ visited ↔ y ∈ r := by simpa using hw.visited_iff
    intro hx
    induction hx with
    | refl =>
      rcases hw.entry_mem with he | ⟨-, he⟩
      · simp at he
      · exact he
    | tail _ hyz ih => exact (hvis _).1 (hw.closed _ ih _ hyz)

/-- What is left to do: a frame costs its successors and itself, an unvisited node the same. -/
def cost (next : α → List α) (U : Finset α) (stack : List (α × List α)) (visited : List α) : ℕ :=
  (stack.map fun f => f.2.length + 1).sum +
    ∑ x ∈ U.filter (· ∉ visited), ((next x).length + 1)

theorem run_isSome {U : Finset α} (hU : ∀ x ∈ U, ∀ y ∈ next x, y ∈ U) {fuel : ℕ} :
    ∀ {stack : List (α × List α)} {visited order : List α},
      (∀ f ∈ stack, ∀ y ∈ f.2, y ∈ U) → cost next U stack visited ≤ fuel →
      ∃ r, run next fuel stack visited order = some r := by
  induction fuel with
  | zero =>
    intro stack visited order _ hf
    cases stack with
    | nil => exact ⟨order, rfl⟩
    | cons f stack =>
      simp only [cost, List.map_cons, List.sum_cons] at hf
      omega
  | succ fuel ih =>
    intro stack visited order hs hf
    match stack, hs, hf with
    | [], _, _ => exact ⟨order, rfl⟩
    | (b, []) :: stack, hs, hf =>
      refine ih (fun f hf => hs f (List.mem_cons_of_mem _ hf)) ?_
      simp only [cost, List.map_cons, List.sum_cons, List.length_nil] at hf ⊢
      omega
    | (b, s :: rest) :: stack, hs, hf =>
      have hsU : s ∈ U := hs _ List.mem_cons_self s List.mem_cons_self
      have hrest : ∀ f ∈ (b, rest) :: stack, ∀ y ∈ f.2, y ∈ U := by
        intro f hf y hy
        rcases List.mem_cons.1 hf with rfl | hf
        · exact hs _ List.mem_cons_self y (List.mem_cons_of_mem _ hy)
        · exact hs f (List.mem_cons_of_mem _ hf) y hy
      rw [run]
      split_ifs with hv
      · refine ih hrest ?_
        simp only [cost, List.map_cons, List.sum_cons, List.length_cons] at hf ⊢
        omega
      · refine ih (fun f hf => ?_) ?_
        · rcases List.mem_cons.1 hf with rfl | hf
          · exact hU s hsU
          · exact hrest f hf
        · -- the new frame is paid for by the node leaving the unvisited ones
          have hsplit : ∑ x ∈ U.filter (· ∉ visited), ((next x).length + 1) =
              ∑ x ∈ U.filter (· ∉ s :: visited), ((next x).length + 1) +
                ((next s).length + 1) := by
            have hmem : s ∈ U.filter (· ∉ visited) := Finset.mem_filter.2 ⟨hsU, hv⟩
            rw [← Finset.sum_erase_add _ _ hmem]
            congr 1
            refine Finset.sum_congr ?_ fun _ _ => rfl
            ext x
            simp only [Finset.mem_erase, Finset.mem_filter, List.mem_cons, not_or]
            tauto
          simp only [cost, List.map_cons, List.sum_cons, List.length_cons] at hf ⊢
          omega

/-- **One unit of fuel per node and per edge of a closed universe is enough.** -/
theorem walk_isSome {U : Finset α} (hU : ∀ x ∈ U, ∀ y ∈ next x, y ∈ U) (hentry : entry ∈ U)
    {fuel : ℕ} (hf : ∑ x ∈ U, ((next x).length + 1) ≤ fuel) :
    ∃ r, walk next fuel entry = some r := by
  refine run_isSome hU (fun f hf' => ?_) ?_
  · obtain rfl := List.mem_singleton.1 hf'
    exact hU entry hentry
  · refine le_trans (le_of_eq ?_) hf
    have : U.filter (· ∉ [entry]) = U.erase entry := by
      ext x
      simp only [Finset.mem_filter, Finset.mem_erase, List.mem_singleton]
      tauto
    rw [cost, this, add_comm, ← Finset.sum_erase_add _ _ hentry]
    simp

end

end DssPrime.PostOrder
