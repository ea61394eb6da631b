import Mathlib
import DssPrime.Parse.TreeFinish

/-!
# Finished trees are well formed

A tree is read from its roots, left to right (`LeavesBelow`).  `Tree.WellFormed` says what a reader
of the tree may rely on.
-/

namespace DssPrime.Parse

def Tree.view (t : Tree) : TreeView := ⟨t.arena, t.childIndex, [], []⟩

def Tree.IsInternal (t : Tree) (i : ℕ) : Prop :=
  0 < i ∧ i < t.arena.length ∧ (t.view.node i).kind = .internal

def Tree.significantKids (t : Tree) (i : ℕ) : List ℕ := (t.view.kids i).filter t.view.significant

/-- **The leaves below some nodes**, read from left to right. -/
inductive Tree.LeavesBelow (t : Tree) : List ℕ → List ℕ → Prop
  | nil : t.LeavesBelow [] []
  | leaf {i : ℕ} {is ls : List ℕ} : 0 < i → i < t.arena.length →
      (t.view.node i).kind ≠ .internal → t.LeavesBelow is ls → t.LeavesBelow (i :: is) (i :: ls)
  | node {i : ℕ} {is ks ls : List ℕ} : t.IsInternal i → t.LeavesBelow (t.view.kids i) ks →
      t.LeavesBelow is ls → t.LeavesBelow (i :: is) (ks ++ ls)

/-- **A tree is well formed**; `roots` are the nodes that were opened with no frame open. -/
structure Tree.WellFormed (t : Tree) (roots : List ℕ) : Prop where
  root : t.root = roots.head?
  range : ∀ i, t.IsInternal i →
    (t.view.node i).firstChild + (t.view.node i).childCount ≤ t.childIndex.length
  apart : ∀ i j, t.IsInternal i → t.IsInternal j → i ≠ j →
    (t.view.node i).firstChild + (t.view.node i).childCount ≤ (t.view.node j).firstChild ∨
    (t.view.node j).firstChild + (t.view.node j).childCount ≤ (t.view.node i).firstChild
  once : (t.childIndex ++ roots).Nodup
  every : ∀ i, i ∈ t.childIndex ++ roots ↔ 0 < i ∧ i < t.arena.length
  parentless : ∀ i ∈ roots, t.IsInternal i ∧ (t.view.node i).parent = 0
  child : ∀ i ∈ t.childIndex, t.IsInternal (t.view.node i).parent ∧
    i ∈ t.view.kids (t.view.node i).parent
  parent : ∀ i j, t.IsInternal j → i ∈ t.view.kids j → (t.view.node i).parent = j
  leaves : ∀ i, t.IsInternal i → ∃ ls, t.LeavesBelow (t.view.kids i) ls
  span : ∀ i, t.IsInternal i → t.significantKids i ≠ [] →
    (t.view.node i).span = joinAll ((t.significantKids i).map fun k => (t.view.node k).span)
  empty : ∀ i, t.IsInternal i → t.significantKids i = [] → (t.view.node i).span.isEmpty = true
  hasError : ∀ i ls, t.IsInternal i → t.LeavesBelow (t.view.kids i) ls →
    ((t.view.node i).flags.has .hasError = true ↔
      ∃ x ∈ ls, (t.view.node x).flags.has .hasError = true)
  errorLeaf : ∀ i, 0 < i → i < t.arena.length → (t.view.node i).kind = .error →
    (t.view.node i).flags.has .hasError = true

section

variable {t : Tree} {spine : List ℕ} {leaves : ℕ → List ℕ} {rank : ℕ → ℕ}

theorem Tree.LeavesBelow.unique {is ls ls' : List ℕ} (h : t.LeavesBelow is ls)
    (h' : t.LeavesBelow is ls') : ls' = ls := by
  induction h generalizing ls' with
  | nil =>
    cases h'
    rfl
  | leaf _ _ hk _ ih =>
    cases h' with
    | leaf _ _ _ hrest => rw [ih hrest]
    | node hint _ _ => exact absurd hint.2.2 hk
  | node hint _ _ ihk ih =>
    cases h' with
    | leaf _ _ hk _ => exact absurd hint.2.2 hk
    | node _ hkids hrest => rw [ihk hkids, ih hrest]

theorem Tree.isClosed_view {i : ℕ} : t.view.IsClosed i ↔ t.IsInternal i := by
  unfold TreeView.IsClosed Tree.IsInternal Tree.view
  simp

theorem leavesBelow_flatMap (h : Core t.view spine leaves rank) {is : List ℕ}
    (hin : ∀ i ∈ is, 0 < i ∧ i < t.arena.length)
    (hkids : ∀ i ∈ is, t.IsInternal i → t.LeavesBelow (t.view.kids i) (leaves i)) :
    t.LeavesBelow is (is.flatMap leaves) := by
  induction is with
  | nil => exact .nil
  | cons i is ih =>
    obtain ⟨hpos, hlt⟩ := hin i (List.mem_cons_self ..)
    have hrest := ih (fun j hj => hin j (List.mem_cons_of_mem _ hj))
      fun j hj => hkids j (List.mem_cons_of_mem _ hj)
    rw [List.flatMap_cons]
    by_cases hk : (t.view.node i).kind = .internal
    · exact .node ⟨hpos, hlt, hk⟩ (hkids i (List.mem_cons_self ..) ⟨hpos, hlt, hk⟩) hrest
    · rw [h.leaf i hpos hlt hk]
      exact .leaf hpos hlt hk hrest

theorem leavesBelow_kids (h : Core t.view spine leaves rank) {i : ℕ} (hi : t.IsInternal i) :
    t.LeavesBelow (t.view.kids i) (leaves i) := by
  induction hr : rank i using Nat.strong_induction_on generalizing i with
  | _ r ih =>
    have hc := h.closed i (Tree.isClosed_view.mpr hi)
    rw [hc.below]
    refine leavesBelow_flatMap h (fun k hk => ?_) fun k hk hint => ?_
    · exact (h.cover k).mp (List.mem_append_left _ (mem_childIndex_of_kids hk))
    · exact ih (rank k) (hr ▸ (hc.kids k hk).2) hint rfl

/-- **The shape of a tree with nothing open is a well-formed tree.** -/
theorem Tree.wellFormed_of_core (h : Core t.view spine leaves rank)
    (hroot : t.root = spine.head?)
    (hless : ∀ i ∈ spine, (t.view.node i).kind = .internal ∧ (t.view.node i).parent = 0) :
    t.WellFormed spine where
  root := hroot
  range i hi := (h.closed i (isClosed_view.mpr hi)).range
  apart i j hi hj hne := h.apart i j (isClosed_view.mpr hi) (isClosed_view.mpr hj) hne
  once := h.nodup
  every := h.cover
  parentless i hi := by
    obtain ⟨hpos, hlt⟩ := (h.cover i).mp (List.mem_append_right _ hi)
    exact ⟨⟨hpos, hlt, (hless i hi).1⟩, (hless i hi).2⟩
  child i hi := by
    obtain ⟨hc, hk⟩ := h.owned i hi
    exact ⟨isClosed_view.mp hc, hk⟩
  parent i j hj hk := ((h.closed j (isClosed_view.mpr hj)).kids i hk).1
  leaves i hi := ⟨_, leavesBelow_kids h hi⟩
  span i hi hne := (h.closed i (isClosed_view.mpr hi)).span hne
  empty i hi hnil := (h.closed i (isClosed_view.mpr hi)).empty hnil
  hasError i ls hi hls := by
    rw [(leavesBelow_kids h hi).unique hls]
    exact (h.closed i (isClosed_view.mpr hi)).hasError
  errorLeaf := h.errorLeaf

theorem Tree.wellFormed_nil (d : Reporter) : Tree.WellFormed ⟨[], [], none, d⟩ [] := by
  have hnone : ∀ i, ¬ Tree.IsInternal ⟨[], [], none, d⟩ i := fun i hi => Nat.not_lt_zero i hi.2.1
  exact ⟨rfl, fun i hi => absurd hi (hnone i), fun i _ hi => absurd hi (hnone i), .nil,
    by simp, by simp, by simp, fun _ j hj => absurd hj (hnone j), fun i hi => absurd hi (hnone i),
    fun i hi => absurd hi (hnone i), fun i hi => absurd hi (hnone i),
    fun i _ hi => absurd hi (hnone i), by simp⟩

end

section

variable {env : BuilderEnv} {n : ℕ} {b b' : TreeBuilder} {l : List SourceSpan}
  {at' : ℕ → List SourceSpan}

theorem finish_spec {size : ℕ} {t : Tree} (hs : b.tree.Shaped)
    (h : finish env size b = some (t, b')) :
    ∃ v, TreeSteps b.tree (List.replicate b.openFrames.v.length (endSpan env size)) v ∧
      v.frames = [] ∧ (v.arena.length ≤ 1 ∧ t = ⟨[], [], none, t.diagnostics⟩ ∨
        1 < v.arena.length ∧ t = ⟨v.arena, v.childIndex, some 1, t.diagnostics⟩) := by
  obtain ⟨c, b₁, hv, h⟩ := bind_eq_some h
  cases hv
  split at h
  · cases h
  obtain ⟨_, b₁, h₁, h⟩ := bind_eq_some h
  cases h₁
  obtain ⟨_, b₂, h₂, h⟩ := bind_eq_some h
  obtain ⟨c, b₃, hv, h⟩ := bind_eq_some h
  cases hv
  obtain ⟨_, b₄, h₄, h⟩ := bind_eq_some h
  obtain ⟨c, b₅, hv, h⟩ := bind_eq_some h
  cases hv
  obtain ⟨k, hk, hlen, hsteps, hnil⟩ := finishFrames_steps (b := { b with finished := true }) hs h₂
  obtain ⟨t₄, -⟩ := (Still.doIf _ (still_addBuilderInvariant _ _)) _ _ _ h₄
  obtain rfl : k = b.openFrames.v.length := le_antisymm hk hlen
  refine ⟨b₄.tree, t₄ ▸ hsteps, ?_, ?_⟩
  · rw [t₄]
    show b₂.openFrames.v.reverse = []
    rw [hnil, List.reverse_nil]
  · cases h
    by_cases hle : b'.arena.length ≤ 1
    · refine .inl ⟨hle, ?_⟩
      rw [if_pos (show b'.visible.arena.length ≤ 1 from hle)]
    · refine .inr ⟨not_le.mp hle, ?_⟩
      rw [if_neg (show ¬ b'.visible.arena.length ≤ 1 from hle)]
      rfl

/-- **Finished trees are well formed and lossless.**  After any run of operations, checkpoints,
commits and rollbacks, the finished tree is well formed, and its leaves, read from left to right,
were made in that order; their ranges are those that were pushed and not rolled back, and then one
for each frame that was still open. -/
theorem finish_wellFormed (h : Calls env n b l at') (hn : n + 1 < 2 ^ 32) {size : ℕ} {t : Tree}
    (hf : finish env size b = some (t, b')) :
    ∃ roots leaves, t.WellFormed roots ∧ t.LeavesBelow roots leaves ∧
      leaves.Pairwise (· < ·) ∧
      (∀ i, i ∈ leaves ↔ 0 < i ∧ i < t.arena.length ∧ (t.view.node i).kind ≠ .internal) ∧
      leaves.map (fun i => (t.view.node i).span) =
        l ++ List.replicate b.openFrames.v.length (endSpan env size) := by
  obtain ⟨hsane, -⟩ := h.sane hn
  obtain ⟨v, hsteps, hframes, hcase⟩ := finish_spec hsane.shape hf
  obtain ⟨⟨spine, roots, leaves, rank, hshape⟩, hspans⟩ := hsteps.shaped hsane.shape
  rw [hsane.leaves] at hspans
  have hall : spine.take roots = spine := by
    rw [← hshape.idle hframes, List.take_length]
  rcases hcase with ⟨hle, ht⟩ | ⟨hlt, ht⟩
  · have hnil : v.madeLeaves = [] := by
      have hone : v.arena.length = 1 := le_antisymm hle hshape.core.arena
      unfold TreeView.madeLeaves
      rw [hone]
      rfl
    rw [TreeView.leafSpans, hnil] at hspans
    rw [ht]
    exact ⟨[], [], Tree.wellFormed_nil _, .nil, .nil, by simp, hspans⟩
  · have hview : t.view = v := by
      have hpending : v.pending = [] := by
        rw [hshape.pending, ← hshape.idle hframes, List.drop_length]
      rw [ht]
      obtain ⟨arena, childIndex, pending, frames⟩ := v
      obtain rfl : pending = [] := hpending
      obtain rfl : frames = [] := hframes
      rfl
    subst hview
    have hcore := hshape.core
    have hhead : t.root = spine.head? := by
      rw [ht]
      exact (hcore.head hlt).symm
    refine ⟨spine, t.view.madeLeaves, Tree.wellFormed_of_core hcore hhead fun i hi => ?_, ?_,
      ?_, ?_,
      hspans⟩
    · exact hshape.parentless i (by rwa [hall])
    · rw [← hshape.core.order]
      exact leavesBelow_flatMap hcore
        (fun i hi => (hcore.cover i).mp (List.mem_append_right _ hi))
        fun i _ hint => leavesBelow_kids hcore hint
    · exact List.Pairwise.filter _ List.pairwise_lt_range
    · intro i
      unfold TreeView.madeLeaves TreeView.isLeaf
      simp only [List.mem_filter, List.mem_range, Bool.and_eq_true, decide_eq_true_eq]
      exact and_left_comm

end

def spaceOnly : GrammarSchema :=
  { ruleOnly with tokenName := fun k => if k = 3 then "Whitespace" else "Error" }

def spaceOnlyEnv : BuilderEnv :=
  { ruleOnlyEnv 64 with schema := spaceOnly, source := some ⟨1, fun _ => "   "⟩ }

def space (start stop : ℕ) : Token :=
  { isCoreTrivia := true, schemaKind := 3, span := ⟨start, stop⟩ }

theorem finish_wellFormed_open : ∃ b l at', ∃ t : Tree, ∃ b' : TreeBuilder,
    Calls spaceOnlyEnv 1 b l at' ∧ finish spaceOnlyEnv 3 b = some (t, b') ∧ t.arena.length = 4 ∧
    ∃ roots leaves, t.WellFormed roots ∧ t.LeavesBelow roots leaves ∧
      leaves.map (fun i => (t.view.node i).span) = [⟨0, 2⟩, ⟨3, 3⟩] := by
  have hrun : ((BuilderOp.openFrame 1).run spaceOnlyEnv .start).bind (fun p =>
      ((BuilderOp.pushToken (space 0 2)).run spaceOnlyEnv p.2).bind fun q =>
        (checkpoint spaceOnlyEnv q.2).bind fun c =>
          ((BuilderOp.pushToken (space 2 3)).run spaceOnlyEnv c.2).bind fun r =>
            (rollbackToId spaceOnlyEnv 1 r.2).bind fun s =>
              (finish spaceOnlyEnv 3 s.2).map fun f =>
                (c.1, (BuilderOp.pushToken (space 0 2)).leafSpan spaceOnlyEnv p.2, r.2.isLive 1,
                  s.2.openFrames.v.length, f.1.arena.length)) =
      some (1, [⟨0, 2⟩], true, 1, 4) := by
    decide +kernel
  obtain ⟨⟨_, b₁⟩, h₁, hrest⟩ := Option.bind_eq_some_iff.mp hrun
  obtain ⟨⟨_, b₂⟩, h₂, hrest⟩ := Option.bind_eq_some_iff.mp hrest
  obtain ⟨⟨id, b₃⟩, h₃, hrest⟩ := Option.bind_eq_some_iff.mp hrest
  obtain ⟨⟨_, b₄⟩, h₄, hrest⟩ := Option.bind_eq_some_iff.mp hrest
  obtain ⟨⟨_, b₅⟩, h₅, hrest⟩ := Option.bind_eq_some_iff.mp hrest
  obtain ⟨⟨t, b₆⟩, h₆, heq⟩ := Option.map_eq_some_iff.mp hrest
  obtain ⟨rfl, hleaf, hlive, hopen, hlen⟩ : id = 1 ∧ _ ∧ _ ∧ _ ∧ _ := by simpa using heq
  have hcalls := (((Calls.start.op _ h₁).op _ h₂).checkpoint h₃ |>.op _ h₄).rollback 1 h₅
  obtain ⟨roots, leaves, hwell, hbelow, -, -, hspans⟩ := finish_wellFormed hcalls (by decide) h₆
  refine ⟨b₅, _, _, t, b₆, hcalls, h₆, hlen, roots, leaves, hwell, hbelow, ?_⟩
  rw [hspans, if_pos hlive, Function.update_self, hleaf, hopen]
  decide

theorem Calls.ops {env : BuilderEnv} {n : ℕ} (ops : List BuilderOp) {b b' : TreeBuilder}
    {l : List SourceSpan} {at' : ℕ → List SourceSpan} (hb : Calls env n b l at')
    (h : (ops.forM (BuilderOp.run env)) b = some ((), b')) : ∃ l', Calls env n b' l' at' := by
  induction ops generalizing b l with
  | nil =>
    cases h
    exact ⟨l, hb⟩
  | cons o ops ih =>
    obtain ⟨_, b₁, h₁, h⟩ := bind_eq_some h
    exact ih (hb.op o h₁) h

theorem Calls.finished (env : BuilderEnv) (ops : List BuilderOp) (size : ℕ) (arena : List Node)
    (childIndex : List ℕ) (root : Option ℕ)
    (h : ((ops.forM (BuilderOp.run env)) TreeBuilder.start).bind (fun p =>
      (finish env size p.2).map fun f => (f.1.arena, f.1.childIndex, f.1.root)) =
        some (arena, childIndex, root)) :
    ∃ b b' l at' t, Calls env 0 b l at' ∧ finish env size b = some (t, b') ∧
      t.view = ⟨arena, childIndex, [], []⟩ ∧ t.root = root := by
  obtain ⟨⟨_, b⟩, hrun, hrest⟩ := Option.bind_eq_some_iff.mp h
  obtain ⟨⟨t, b'⟩, hf, htree⟩ := Option.map_eq_some_iff.mp hrest
  obtain ⟨l, hcalls⟩ := Calls.start.ops ops hrun
  refine ⟨b, b', l, _, t, hcalls, hf, ?_⟩
  cases htree
  exact ⟨rfl, rfl⟩

/-- What a finished tree does not promise.  White space from 0 to 3 leaves its parent with
the empty range at 0; a frame that is opened when the root was closed has no parent; and a token
that comes with the flag of an error gives it to its parent. -/
theorem not_joined_owned_error :
    (¬ ∀ (env : BuilderEnv) (n : ℕ) (b b' : TreeBuilder) (l : List SourceSpan)
      (at' : ℕ → List SourceSpan) (size : ℕ) (t : Tree),
      Calls env n b l at' → finish env size b = some (t, b') → ∀ i, t.IsInternal i →
        (t.view.node i).span = joinAll ((if t.significantKids i = [] then t.view.kids i
          else t.significantKids i).map fun k => (t.view.node k).span)) ∧
    (¬ ∀ (env : BuilderEnv) (n : ℕ) (b b' : TreeBuilder) (l : List SourceSpan)
      (at' : ℕ → List SourceSpan) (size : ℕ) (t : Tree),
      Calls env n b l at' → finish env size b = some (t, b') → ∀ i, 0 < i → i < t.arena.length →
        t.root ≠ some i → i ∈ t.view.kids (t.view.node i).parent) ∧
    ¬ ∀ (env : BuilderEnv) (n : ℕ) (b b' : TreeBuilder) (l : List SourceSpan)
      (at' : ℕ → List SourceSpan) (size : ℕ) (t : Tree),
      Calls env n b l at' → finish env size b = some (t, b') → ∀ i, t.IsInternal i →
        (t.view.node i).flags.has .hasError = true →
          ∃ x, 0 < x ∧ x < t.arena.length ∧ (t.view.node x).kind = .error := by
  refine ⟨fun hall => ?_, fun hall => ?_, fun hall => ?_⟩
  · obtain ⟨b, b', l, at', t, hcalls, hf, hview, -⟩ := Calls.finished spaceOnlyEnv
      [.openFrame 1, .pushToken (space 0 3), .closeFrame 1] 3
      [{}, { kind := .internal, rule := 1, childCount := 1 },
        { kind := .token, flags := .emptySpace, tokenKind := 3, span := ⟨0, 3⟩, parent := 1 }]
      [2] (some 1) (by decide +kernel)
    have hinternal : 0 < 1 ∧ 1 < t.view.arena.length ∧ (t.view.node 1).kind = .internal := by
      rw [hview]
      decide
    have hspan := hall _ _ _ _ _ _ _ t hcalls hf 1 hinternal
    unfold Tree.significantKids at hspan
    rw [hview] at hspan
    exact absurd hspan (by decide)
  · obtain ⟨b, b', l, at', t, hcalls, hf, hview, hroot⟩ := Calls.finished spaceOnlyEnv
      [.openFrame 1, .closeFrame 1, .openFrame 1, .closeFrame 2] 3
      [{}, { kind := .internal, rule := 1 }, { kind := .internal, rule := 1 }] [] (some 1)
      (by decide +kernel)
    have hlt : 2 < t.view.arena.length := by
      rw [hview]
      decide
    have hkid := hall _ _ _ _ _ _ _ t hcalls hf 2 (by decide) hlt (by rw [hroot]; decide)
    rw [hview] at hkid
    exact absurd hkid (by decide)
  · obtain ⟨b, b', l, at', t, hcalls, hf, hview, -⟩ := Calls.finished spaceOnlyEnv
      [.openFrame 1, .pushToken { space 0 3 with flags := .hasError }, .closeFrame 1] 3
      [{}, { kind := .internal, rule := 1, flags := .hasError, childCount := 1 },
        { kind := .token, flags := 5, tokenKind := 3, span := ⟨0, 3⟩, parent := 1 }]
      [2] (some 1) (by decide +kernel)
    have hinternal : 0 < 1 ∧ 1 < t.view.arena.length ∧ (t.view.node 1).kind = .internal := by
      rw [hview]
      decide
    obtain ⟨x, hpos, hlt, hk⟩ := hall _ _ _ _ _ _ _ t hcalls hf 1 hinternal
      (by rw [hview]; decide)
    have hlt : x < t.view.arena.length := hlt
    rw [hview] at hlt hk
    have hx : x < 3 := hlt
    interval_cases x
    · exact absurd hk (by decide)
    · exact absurd hk (by decide)

end DssPrime.Parse
