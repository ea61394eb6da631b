import Mathlib
import DssPrime.Parse.TreeBuilder

/-!
# The shape of a tree under construction

What the operations of the builder do to the nodes, the child index, the pending children and the
open frames is one of four steps (`TreeStep`): a leaf is attached, a frame is opened, the last child
is wrapped, the innermost frame is closed.  `Shape` is what every step keeps: the pending children
are segments, one for each open frame; the ranges of closed nodes lie apart in the child index; and
the leaves, read from left to right, are in the order they were made.
-/

namespace DssPrime.Parse

/-- What the shape of the tree depends on. -/
structure TreeView where
  arena : List Node
  childIndex : List ℕ
  pending : List ℕ
  frames : List Frame

namespace TreeView

def node (v : TreeView) (i : ℕ) : Node := v.arena.getD i {}

def kids (v : TreeView) (i : ℕ) : List ℕ :=
  (v.childIndex.drop (v.node i).firstChild).take (v.node i).childCount

def isLeaf (v : TreeView) (i : ℕ) : Bool := 0 < i && (v.node i).kind ≠ .internal

def madeLeaves (v : TreeView) : List ℕ := (List.range v.arena.length).filter v.isLeaf

/-- The child counts for the span of its parent: it is no trivia. -/
def significant (v : TreeView) (i : ℕ) : Bool :=
  !((v.node i).kind = .token && (v.node i).flags.has .emptySpace)

def IsClosed (v : TreeView) (i : ℕ) : Prop :=
  0 < i ∧ i < v.arena.length ∧ (v.node i).kind = .internal ∧ ∀ f ∈ v.frames, f.id ≠ i

end TreeView

/-- The smallest range around several. -/
def joinAll : List SourceSpan → SourceSpan
  | [] => .empty 0
  | s :: ss => ss.foldl SourceSpan.join s

def takeNode (node : Node) (children : List Node) : Node :=
  children.foldl (fun node n =>
    let node := if n.kind = .token && n.flags.has .emptySpace then node
      else { node with span := node.span.join n.span }
    if n.flags.has .hasError then { node with flags := node.flags ||| .hasError } else node) node

/-- **What the operations do to the tree**; the list holds the ranges of the leaves that are
made. -/
inductive TreeStep : TreeView → List SourceSpan → TreeView → Prop
  | leaf {v : TreeView} {f : Frame} {fs : List Frame} {n : Node} : v.frames = f :: fs →
      n.kind ≠ .internal → (n.kind = .error → n.flags.has .hasError = true) →
      TreeStep v [n.span] { v with
        arena := v.arena ++ [{ n with parent := f.id }], pending := v.pending ++ [v.arena.length] }
  | openRoot {v : TreeView} {f : Frame} {n : Node} : v.frames = [] → n.kind = .internal →
      n.flags = 0 → n.span.isEmpty = true → n.parent = 0 → f.id = v.arena.length →
      f.pendingStart = v.pending.length →
      TreeStep v [] { v with arena := v.arena ++ [n], frames := [f] }
  | openNested {v : TreeView} {f g : Frame} {fs : List Frame} {n : Node} : v.frames = g :: fs →
      n.kind = .internal → n.flags = 0 → n.span.isEmpty = true → n.parent = g.id →
      f.id = v.arena.length → f.pendingStart = v.pending.length + 1 →
      TreeStep v [] { v with
        arena := v.arena ++ [n], pending := v.pending ++ [v.arena.length]
        frames := f :: g :: fs }
  | wrap {v : TreeView} {f g : Frame} {fs : List Frame} {n : Node} {child : ℕ} {xs : List ℕ} :
      v.frames = g :: fs → v.pending = xs ++ [child] → g.pendingStart ≤ xs.length →
      n.kind = .internal → n.flags = 0 → n.span.isEmpty = true → n.parent = g.id →
      f.id = v.arena.length → f.pendingStart = xs.length + 1 →
      TreeStep v [] { v with
        arena := (v.arena.set child { v.node child with parent := v.arena.length }) ++ [n]
        pending := xs ++ [v.arena.length, child]
        frames := f :: g :: fs }
  | close {v : TreeView} {f : Frame} {fs : List Frame} : v.frames = f :: fs →
      TreeStep v [] { v with
        arena := v.arena.set f.id { takeNode (v.node f.id)
            ((v.pending.drop f.pendingStart).map v.node) with
          firstChild := v.childIndex.length
          childCount := v.pending.length - f.pendingStart }
        childIndex := v.childIndex ++ v.pending.drop f.pendingStart
        pending := v.pending.take f.pendingStart
        frames := fs }

/-- The roots and the pending children, cut into what was there before each open frame, the frame's
node and its children so far.  `roots` is the number of nodes that were opened with no frame
open. -/
inductive Spine (node : ℕ → Node) (roots : ℕ) : List Frame → List ℕ → Prop
  | closed (ids : List ℕ) : Spine node roots [] ids
  | opened {f : Frame} {fs : List Frame} {xs seg : List ℕ} : Spine node roots fs xs →
      (∀ g, fs.head? = some g → (node f.id).parent = g.id) →
      f.pendingStart + roots = xs.length + 1 → (fs = [] → f.pendingStart = 0) →
      (∀ x ∈ seg, (node x).parent = f.id) → Spine node roots (f :: fs) (xs ++ f.id :: seg)

namespace Spine

variable {node node' : ℕ → Node} {roots : ℕ} {fs : List Frame} {ids : List ℕ}

theorem congr (h : Spine node roots fs ids)
    (heq : ∀ x ∈ ids, (node' x).parent = (node x).parent) : Spine node' roots fs ids := by
  induction h with
  | closed ids => exact .closed ids
  | @opened f fs xs seg hs hp hstart hroot hseg ih =>
    refine .opened (ih fun x hx => heq x (List.mem_append_left _ hx)) (fun g hg => ?_) hstart hroot
      fun x hx => ?_
    · rw [heq f.id (by simp)]
      exact hp g hg
    · rw [heq x (by simp [hx])]
      exact hseg x hx

theorem attach (h : Spine node roots fs ids) {x : ℕ}
    (hx : ∀ g, fs.head? = some g → (node x).parent = g.id) : Spine node roots fs (ids ++ [x]) := by
  cases h with
  | closed ids => exact .closed _
  | @opened f fs xs seg hs hp hstart hroot hseg =>
    rw [List.append_assoc, List.cons_append]
    refine .opened hs hp hstart hroot fun y hy => ?_
    rcases List.mem_append.mp hy with hy | hy
    · exact hseg y hy
    · rw [List.mem_singleton.mp hy]
      exact hx f rfl

theorem open_mem (h : Spine node roots fs ids) : ∀ f ∈ fs, f.id ∈ ids := by
  induction h with
  | closed ids => simp
  | opened hs _ _ _ _ ih =>
    intro f hf
    rcases List.mem_cons.mp hf with rfl | hf
    · simp
    · exact List.mem_append_left _ (ih f hf)

theorem open_nodup (h : Spine node roots fs ids) (hnd : ids.Nodup) : (fs.map Frame.id).Nodup := by
  induction h with
  | closed ids => simp
  | @opened f fs xs seg hs _ _ _ _ ih =>
    rw [List.nodup_append] at hnd
    rw [List.map_cons, List.nodup_cons]
    refine ⟨fun hmem => ?_, ih hnd.1⟩
    obtain ⟨g, hg, hgf⟩ := List.mem_map.mp hmem
    exact hnd.2.2 _ (hs.open_mem g hg) f.id (List.mem_cons_self ..) hgf

end Spine

/-- A closed node agrees with its children. -/
structure ClosedNode (v : TreeView) (leaves : ℕ → List ℕ) (rank : ℕ → ℕ) (i : ℕ) : Prop where
  range : (v.node i).firstChild + (v.node i).childCount ≤ v.childIndex.length
  kids : ∀ k ∈ v.kids i, (v.node k).parent = i ∧ rank k < rank i
  below : leaves i = (v.kids i).flatMap leaves
  hasError : (v.node i).flags.has .hasError = true ↔
    ∃ x ∈ leaves i, (v.node x).flags.has .hasError = true
  span : (v.kids i).filter v.significant ≠ [] →
    (v.node i).span = joinAll (((v.kids i).filter v.significant).map fun k => (v.node k).span)
  empty : (v.kids i).filter v.significant = [] → (v.node i).span.isEmpty = true

/-- What every step keeps of the nodes.  `spine` is the roots and the pending children, `leaves`
gives the leaves below a node that is not open, and `rank` is smaller below a node. -/
structure Core (v : TreeView) (spine : List ℕ) (leaves : ℕ → List ℕ) (rank : ℕ → ℕ) : Prop where
  arena : 0 < v.arena.length
  nodup : (v.childIndex ++ spine).Nodup
  cover : ∀ i, i ∈ v.childIndex ++ spine ↔ 0 < i ∧ i < v.arena.length
  head : 1 < v.arena.length → spine.head? = some 1
  leaf : ∀ i, 0 < i → i < v.arena.length → (v.node i).kind ≠ .internal → leaves i = [i]
  errorLeaf : ∀ i, 0 < i → i < v.arena.length → (v.node i).kind = .error →
    (v.node i).flags.has .hasError = true
  closed : ∀ i, v.IsClosed i → ClosedNode v leaves rank i
  apart : ∀ i j, v.IsClosed i → v.IsClosed j → i ≠ j →
    (v.node i).firstChild + (v.node i).childCount ≤ (v.node j).firstChild ∨
    (v.node j).firstChild + (v.node j).childCount ≤ (v.node i).firstChild
  owned : ∀ i ∈ v.childIndex, v.IsClosed (v.node i).parent ∧ i ∈ v.kids (v.node i).parent
  made : ∀ i, ∀ x ∈ leaves i, x < v.arena.length ∧ (v.node x).kind ≠ .internal
  fresh : ∀ i, v.arena.length ≤ i → leaves i = []
  order : spine.flatMap leaves = v.madeLeaves

/-- **What every step keeps**: `Core`, and the open frames cut the spine. -/
structure Shape (v : TreeView) (spine : List ℕ) (roots : ℕ) (leaves : ℕ → List ℕ) (rank : ℕ → ℕ) :
    Prop where
  core : Core v spine leaves rank
  frames : Spine v.node roots v.frames spine
  pending : v.pending = spine.drop roots
  idle : v.frames = [] → spine.length = roots
  opened : ∀ f ∈ v.frames, (v.node f.id).kind = .internal ∧ (v.node f.id).flags = 0 ∧
    (v.node f.id).span.isEmpty = true ∧ leaves f.id = []
  parentless : ∀ i ∈ spine.take roots, (v.node i).kind = .internal ∧ (v.node i).parent = 0

/-- Equal but for the parent. -/
structure SameNode (n n' : Node) : Prop where
  kind : n'.kind = n.kind
  flags : n'.flags = n.flags
  span : n'.span = n.span
  firstChild : n'.firstChild = n.firstChild
  childCount : n'.childCount = n.childCount

theorem SameNode.refl (n : Node) : SameNode n n := ⟨rfl, rfl, rfl, rfl, rfl⟩

section

variable {v w : TreeView} {spine : List ℕ} {leaves leaves' : ℕ → List ℕ} {rank rank' : ℕ → ℕ}

theorem kids_congr {i : ℕ} (hi : SameNode (v.node i) (w.node i))
    (hr : (v.node i).firstChild + (v.node i).childCount ≤ v.childIndex.length)
    {m : List ℕ} (hc : w.childIndex = v.childIndex ++ m) : w.kids i = v.kids i := by
  unfold TreeView.kids
  rw [hi.firstChild, hi.childCount, hc, List.drop_append_of_le_length (by omega),
    List.take_append_of_le_length (by rw [List.length_drop]; omega)]

theorem mem_childIndex_of_kids {i k : ℕ} (h : k ∈ v.kids i) : k ∈ v.childIndex :=
  List.mem_of_mem_drop (List.mem_of_mem_take h)

theorem ClosedNode.congr {i : ℕ} (h : ClosedNode v leaves rank i)
    (hi : SameNode (v.node i) (w.node i)) (hk : ∀ k ∈ v.kids i, w.node k = v.node k)
    {m : List ℕ} (hc : w.childIndex = v.childIndex ++ m)
    (hx : ∀ x ∈ leaves i, (w.node x).flags = (v.node x).flags) (hli : leaves' i = leaves i)
    (hlk : ∀ k ∈ v.kids i, leaves' k = leaves k) (hri : rank' i = rank i)
    (hrk : ∀ k ∈ v.kids i, rank' k = rank k) : ClosedNode w leaves' rank' i := by
  have hkids := kids_congr hi h.range hc
  have hsig : (w.kids i).filter w.significant = (v.kids i).filter v.significant := by
    rw [hkids]
    refine List.filter_congr fun k hmem => ?_
    unfold TreeView.significant
    rw [hk k hmem]
  refine ⟨?_, ?_, ?_, ?_, ?_, ?_⟩
  · rw [hi.firstChild, hi.childCount, hc, List.length_append]
    have := h.range
    omega
  · intro k hmem
    rw [hkids] at hmem
    rw [hk k hmem, hri, hrk k hmem]
    exact h.kids k hmem
  · rw [hkids, hli, h.below]
    exact (List.flatMap_congr fun k hmem => hlk k hmem).symm
  · rw [hi.flags, hli, h.hasError]
    constructor
    · rintro ⟨x, hmem, hf⟩
      exact ⟨x, hmem, by rw [hx x hmem]; exact hf⟩
    · rintro ⟨x, hmem, hf⟩
      exact ⟨x, hmem, by rw [← hx x hmem]; exact hf⟩
  · intro hne
    rw [hsig] at hne ⊢
    rw [hi.span, h.span hne]
    refine congrArg joinAll (List.map_congr_left fun k hmem => ?_)
    rw [hk k (List.mem_of_mem_filter hmem)]
  · intro he
    rw [hsig] at he
    rw [hi.span]
    exact h.empty he

theorem node_append_old {n : Node} (ha : w.arena = v.arena ++ [n]) {i : ℕ}
    (hi : i < v.arena.length) : w.node i = v.node i := by
  unfold TreeView.node
  rw [ha, List.getD_append _ _ _ _ hi]

theorem node_append_new {n : Node} (ha : w.arena = v.arena ++ [n]) :
    w.node v.arena.length = n := by
  unfold TreeView.node
  rw [ha, List.getD_append_right _ _ _ _ le_rfl]
  simp

theorem Core.push (h : Core v spine leaves rank) {n : Node} (ha : w.arena = v.arena ++ [n])
    (hc : w.childIndex = v.childIndex) (hcl : ∀ i, w.IsClosed i ↔ v.IsClosed i)
    (herr : n.kind = .error → n.flags.has .hasError = true)
    (hl : leaves' = if n.kind = .internal then leaves
      else Function.update leaves v.arena.length [v.arena.length]) :
    Core w (spine ++ [v.arena.length]) leaves' rank := by
  have hlen : w.arena.length = v.arena.length + 1 := by rw [ha]; simp
  have hold : ∀ i, i < v.arena.length → w.node i = v.node i := fun i hi => node_append_old ha hi
  have hnew := node_append_new ha
  have hleaves : ∀ i, i ≠ v.arena.length → leaves' i = leaves i := by
    intro i hi
    rw [hl]
    split
    · rfl
    · exact Function.update_of_ne hi ..
  have hlt : ∀ i, i ∈ v.childIndex ++ spine → i < v.arena.length :=
    fun i hi => ((h.cover i).mp hi).2
  have hkid : ∀ i, ∀ k ∈ v.kids i, k < v.arena.length := fun i k hk =>
    hlt k (List.mem_append_left _ (mem_childIndex_of_kids hk))
  have hsame : ∀ i, i < v.arena.length → SameNode (v.node i) (w.node i) := by
    intro i hi
    rw [hold i hi]
    exact .refl _
  refine ⟨by omega, ?_, ?_, ?_, ?_, ?_, ?_, ?_, ?_, ?_, ?_, ?_⟩
  · rw [hc, ← List.append_assoc]
    refine List.nodup_append.mpr ⟨h.nodup, List.nodup_singleton _, ?_⟩
    rintro i hi j hj rfl
    have := hlt i hi
    rw [List.mem_singleton.mp hj] at this
    omega
  · intro i
    rw [hc, ← List.append_assoc, List.mem_append, h.cover, List.mem_singleton, hlen]
    have := h.arena
    omega
  · intro _
    by_cases hone : 1 < v.arena.length
    · have := h.head hone
      cases hs : spine with
      | nil => simp [hs] at this
      | cons x xs => simpa [hs] using this
    · have hlen1 : v.arena.length = 1 := by
        have := h.arena
        omega
      have hnil : spine = [] := by
        refine List.eq_nil_iff_forall_not_mem.mpr fun i hi => ?_
        have := (h.cover i).mp (List.mem_append_right _ hi)
        omega
      simp [hnil, hlen1]
  · intro i hi hi' hk
    by_cases hin : i = v.arena.length
    · subst hin
      rw [hnew] at hk
      rw [hl, if_neg hk, Function.update_self]
    · rw [hold i (by omega)] at hk
      rw [hleaves i hin]
      exact h.leaf i hi (by omega) hk
  · intro i hi hi' hk
    by_cases hin : i = v.arena.length
    · subst hin
      rw [hnew] at hk ⊢
      exact herr hk
    · rw [hold i (by omega)] at hk ⊢
      exact h.errorLeaf i hi (by omega) hk
  · intro i hi
    rw [hcl] at hi
    have hilt := hi.2.1
    refine (h.closed i hi).congr (hsame i hilt) (fun k hk => hold k (hkid i k hk))
      (m := []) (by rw [hc, List.append_nil]) (fun x hx => by rw [hold x (h.made i x hx).1])
      (hleaves i (by omega)) (fun k hk => hleaves k ?_) rfl fun k hk => rfl
    have := hkid i k hk
    omega
  · intro i j hi hj hij
    rw [hcl] at hi hj
    rw [hold i hi.2.1, hold j hj.2.1]
    exact h.apart i j hi hj hij
  · intro i hi
    rw [hc] at hi
    obtain ⟨hp, hmem⟩ := h.owned i hi
    rw [hold i (hlt i (List.mem_append_left _ hi)), hcl]
    refine ⟨hp, ?_⟩
    rw [kids_congr (hsame _ hp.2.1) (h.closed _ hp).range (m := []) (by rw [hc, List.append_nil])]
    exact hmem
  · intro i x hx
    rw [hlen]
    by_cases hin : i = v.arena.length
    · subst hin
      rw [hl] at hx
      split at hx
      · rw [h.fresh _ le_rfl] at hx
        simp at hx
      · rename_i hk
        rw [Function.update_self, List.mem_singleton] at hx
        subst hx
        rw [hnew]
        exact ⟨by omega, hk⟩
    · rw [hleaves i hin] at hx
      obtain ⟨hlt, hk⟩ := h.made i x hx
      rw [hold x hlt]
      exact ⟨by omega, hk⟩
  · intro i hi
    rw [hleaves i (by omega)]
    exact h.fresh i (by omega)
  · have hfirst : spine.flatMap leaves' = v.madeLeaves := by
      rw [← h.order]
      refine List.flatMap_congr fun i hi => hleaves i ?_
      have := hlt i (List.mem_append_right _ hi)
      omega
    have hrange : (List.range v.arena.length).filter w.isLeaf = v.madeLeaves := by
      refine List.filter_congr fun i hi => ?_
      unfold TreeView.isLeaf
      rw [hold i (List.mem_range.mp hi)]
    rw [List.flatMap_append, hfirst]
    show v.madeLeaves ++ [v.arena.length].flatMap leaves' =
      (List.range w.arena.length).filter w.isLeaf
    rw [hlen, List.range_succ, List.filter_append, hrange, List.flatMap_cons, List.flatMap_nil,
      List.append_nil]
    refine congrArg _ ?_
    have hpos := h.arena
    by_cases hk : n.kind = .internal
    · rw [hl, if_pos hk, h.fresh _ le_rfl]
      simp [TreeView.isLeaf, hnew, hk]
    · rw [hl, if_neg hk, Function.update_self]
      simp [TreeView.isLeaf, hnew, hk, hpos]

theorem node_set {c : ℕ} {n : Node} (ha : w.arena = v.arena.set c n) (hc : c < v.arena.length)
    (i : ℕ) : w.node i = if i = c then n else v.node i := by
  unfold TreeView.node
  rw [ha]
  by_cases hi : i = c
  · subst hi
    rw [if_pos rfl, List.getD_eq_getElem?_getD, List.getElem?_set_self hc]
    rfl
  · rw [if_neg hi, List.getD_eq_getElem?_getD, List.getElem?_set_ne (Ne.symm hi),
      ← List.getD_eq_getElem?_getD]

theorem madeLeaves_congr (hlen : w.arena.length = v.arena.length)
    (hk : ∀ i, i < v.arena.length → (w.node i).kind = (v.node i).kind) :
    w.madeLeaves = v.madeLeaves := by
  unfold TreeView.madeLeaves
  rw [hlen]
  refine List.filter_congr fun i hi => ?_
  unfold TreeView.isLeaf
  rw [hk i (List.mem_range.mp hi)]

theorem Core.reparent (h : Core v spine leaves rank) {c p : ℕ} (hc : c ∈ spine)
    (ha : w.arena = v.arena.set c { v.node c with parent := p })
    (hci : w.childIndex = v.childIndex) (hcl : ∀ i, w.IsClosed i ↔ v.IsClosed i) :
    Core w spine leaves rank := by
  have hclt : c < v.arena.length := ((h.cover c).mp (List.mem_append_right _ hc)).2
  have hlen : w.arena.length = v.arena.length := by rw [ha, List.length_set]
  have hnode := node_set ha hclt
  have hsame : ∀ i, SameNode (v.node i) (w.node i) := by
    intro i
    rw [hnode]
    split
    · rename_i hi
      subst hi
      exact ⟨rfl, rfl, rfl, rfl, rfl⟩
    · exact .refl _
  have hindexed : ∀ i ∈ v.childIndex, w.node i = v.node i := by
    intro i hi
    rw [hnode, if_neg]
    rintro rfl
    exact (List.nodup_append.mp h.nodup).2.2 i hi i hc rfl
  refine ⟨by rw [hlen]; exact h.arena, by rw [hci]; exact h.nodup, ?_, ?_, ?_, ?_, ?_, ?_, ?_, ?_,
    ?_, ?_⟩
  · intro i
    rw [hci, hlen]
    exact h.cover i
  · rw [hlen]
    exact h.head
  · intro i hi hi' hk
    rw [hlen] at hi'
    rw [(hsame i).kind] at hk
    exact h.leaf i hi hi' hk
  · intro i hi hi' hk
    rw [hlen] at hi'
    rw [(hsame i).kind] at hk
    rw [(hsame i).flags]
    exact h.errorLeaf i hi hi' hk
  · intro i hi
    rw [hcl] at hi
    exact (h.closed i hi).congr (hsame i)
      (fun k hk => hindexed k (mem_childIndex_of_kids hk)) (m := [])
      (by rw [hci, List.append_nil]) (fun x _ => (hsame x).flags) rfl (fun _ _ => rfl) rfl
      fun _ _ => rfl
  · intro i j hi hj hij
    rw [hcl] at hi hj
    rw [(hsame i).firstChild, (hsame i).childCount, (hsame j).firstChild, (hsame j).childCount]
    exact h.apart i j hi hj hij
  · intro i hi
    rw [hci] at hi
    obtain ⟨hp, hmem⟩ := h.owned i hi
    rw [hindexed i hi, hcl]
    refine ⟨hp, ?_⟩
    rw [kids_congr (hsame _) (h.closed _ hp).range (m := []) (by rw [hci, List.append_nil])]
    exact hmem
  · intro i x hx
    rw [hlen, (hsame x).kind]
    exact h.made i x hx
  · rw [hlen]
    exact h.fresh
  · rw [h.order, madeLeaves_congr hlen fun i _ => (hsame i).kind]

theorem Core.swap {pre : List ℕ} {a b : ℕ} (h : Core v (pre ++ [a, b]) leaves rank)
    (hpre : pre ≠ []) (hb : leaves b = []) : Core v (pre ++ [b, a]) leaves rank := by
  have hperm : (v.childIndex ++ (pre ++ [b, a])).Perm (v.childIndex ++ (pre ++ [a, b])) :=
    List.Perm.append_left _ (List.Perm.append_left _ (.swap ..))
  refine { h with
    nodup := hperm.nodup_iff.mpr h.nodup
    cover := fun i => hperm.mem_iff.trans (h.cover i)
    head := fun hlen => ?_
    order := ?_ }
  · have := h.head hlen
    cases pre with
    | nil => exact absurd rfl hpre
    | cons x xs => simpa using this
  · rw [← h.order]
    simp [List.flatMap_append, hb]

theorem has_or_hasError (flags : NodeFlags) : (flags ||| .hasError).has .hasError = true := by
  have habsorb : (flags ||| NodeFlags.hasError) &&& NodeFlags.hasError = NodeFlags.hasError := by
    refine UInt8.toBitVec_inj.1 ?_
    rw [UInt8.toBitVec_and, UInt8.toBitVec_or]
    ext i hi
    simp only [BitVec.getElem_and, BitVec.getElem_or]
    cases (NodeFlags.hasError).toBitVec[i] <;> simp
  unfold NodeFlags.has
  rw [habsorb]
  decide

def Node.significant (n : Node) : Bool := !(n.kind = .token && n.flags.has .emptySpace)

/-- **What a node takes from its children.** -/
theorem takeNode_spec (node : Node) (children : List Node) :
    (takeNode node children).kind = node.kind ∧
    (takeNode node children).parent = node.parent ∧
    (takeNode node children).span =
      ((children.filter Node.significant).map Node.span).foldl SourceSpan.join node.span ∧
    ((takeNode node children).flags.has .hasError = true ↔
      node.flags.has .hasError = true ∨ ∃ n ∈ children, n.flags.has .hasError = true) := by
  induction children generalizing node with
  | nil => simp [takeNode]
  | cons n children ih =>
    let node₁ : Node := if n.kind = .token && n.flags.has .emptySpace then node
      else { node with span := node.span.join n.span }
    let node₂ : Node := if n.flags.has .hasError then
      { node₁ with flags := node₁.flags ||| .hasError } else node₁
    have hstep : takeNode node (n :: children) = takeNode node₂ children := rfl
    have h₁ : node₁.kind = node.kind ∧ node₁.parent = node.parent ∧ node₁.flags = node.flags ∧
        node₁.span = if n.significant then node.span.join n.span else node.span := by
      by_cases ht : (n.kind = .token && n.flags.has .emptySpace) = true
      · simp [node₁, ht, Node.significant]
      · simp [node₁, ht, Node.significant]
    have h₂ : node₂.kind = node.kind ∧ node₂.parent = node.parent ∧ node₂.span = node₁.span ∧
        (node₂.flags.has .hasError = true ↔
          node.flags.has .hasError = true ∨ n.flags.has .hasError = true) := by
      by_cases he : n.flags.has .hasError = true
      · simp [node₂, he, h₁, has_or_hasError]
      · simp [node₂, he, h₁]
    obtain ⟨hkind, hparent, hspan, herr⟩ := ih node₂
    rw [hstep]
    refine ⟨hkind.trans h₂.1, hparent.trans h₂.2.1, ?_, ?_⟩
    · rw [hspan, h₂.2.2.1, h₁.2.2.2, List.filter_cons]
      by_cases hs : n.significant = true
      · simp [hs]
      · simp [hs]
    · rw [herr, h₂.2.2.2]
      simp [or_assoc]

theorem foldl_join_of_empty {s : SourceSpan} (hs : s.isEmpty = true) :
    ∀ spans : List SourceSpan, spans ≠ [] → spans.foldl SourceSpan.join s = joinAll spans
  | [], h => absurd rfl h
  | x :: xs, _ => by
    have : s.join x = x := by simp [SourceSpan.join, hs]
    rw [List.foldl_cons, this, joinAll]

/-- `w` is `v` with the open node `p` closed over `seg`. -/
structure Closes (v w : TreeView) (leaves : ℕ → List ℕ) (rank : ℕ → ℕ) (xs seg : List ℕ) (p : ℕ) :
    Prop where
  core : Core v (xs ++ p :: seg) leaves rank
  kind : (v.node p).kind = .internal
  flags : (v.node p).flags = 0
  empty : (v.node p).span.isEmpty = true
  leafless : leaves p = []
  parent : ∀ x ∈ seg, (v.node x).parent = p
  done : ∀ x ∈ seg, (v.node x).kind = .internal → v.IsClosed x
  notClosed : ¬ v.IsClosed p
  arena : w.arena = v.arena.set p { takeNode (v.node p) (seg.map v.node) with
    firstChild := v.childIndex.length, childCount := seg.length }
  childIndex : w.childIndex = v.childIndex ++ seg
  isClosed : ∀ i, w.IsClosed i ↔ v.IsClosed i ∨ i = p

namespace Closes

variable {xs seg : List ℕ} {p : ℕ} (h : Closes v w leaves rank xs seg p)

include h

theorem perm : (w.childIndex ++ (xs ++ [p])).Perm (v.childIndex ++ (xs ++ p :: seg)) := by
  rw [h.childIndex, List.append_assoc]
  refine List.Perm.append_left _ (List.perm_append_comm.trans ?_)
  simp

theorem lt {i : ℕ} (hi : i ∈ xs ++ p :: seg) : 0 < i ∧ i < v.arena.length :=
  (h.core.cover i).mp (List.mem_append_right _ hi)

theorem lt_seg {x : ℕ} (hx : x ∈ seg) : 0 < x ∧ x < v.arena.length := h.lt (by simp [hx])

theorem length_eq : w.arena.length = v.arena.length := by
  rw [h.arena, List.length_set]

theorem old {i : ℕ} (hi : i ≠ p) : w.node i = v.node i := by
  rw [node_set h.arena (h.lt (by simp)).2, if_neg hi]

theorem self : w.node p = { takeNode (v.node p) (seg.map v.node) with
    firstChild := v.childIndex.length, childCount := seg.length } := by
  rw [node_set h.arena (h.lt (by simp)).2, if_pos rfl]

theorem kind_eq (i : ℕ) : (w.node i).kind = (v.node i).kind := by
  by_cases hi : i = p
  · subst hi
    rw [h.self]
    exact (takeNode_spec _ _).1
  · rw [h.old hi]

theorem ne_of_mem_seg {x : ℕ} (hx : x ∈ seg) : x ≠ p := by
  have hnd := List.nodup_append.mp (List.nodup_append.mp h.core.nodup).2.1
  rintro rfl
  exact (List.nodup_cons.mp hnd.2.1).1 hx

theorem ne_of_mem_xs {x : ℕ} (hx : x ∈ xs) : x ≠ p :=
  (List.nodup_append.mp (List.nodup_append.mp h.core.nodup).2.1).2.2 x hx p (List.mem_cons_self ..)

theorem ne_of_indexed {x : ℕ} (hx : x ∈ v.childIndex) : x ≠ p :=
  (List.nodup_append.mp h.core.nodup).2.2 x hx p (by simp)

theorem ne_of_isClosed {i : ℕ} (hi : v.IsClosed i) : i ≠ p := by
  rintro rfl
  exact h.notClosed hi

theorem leaf_old {x y : ℕ} (hy : y ∈ leaves x) : w.node y = v.node y := by
  refine h.old ?_
  rintro rfl
  exact (h.core.made x y hy).2 h.kind

theorem kids_eq : w.kids p = seg := by
  unfold TreeView.kids
  rw [h.self, h.childIndex]
  simp

theorem significant_eq : seg.filter w.significant = seg.filter v.significant := by
  refine List.filter_congr fun k hk => ?_
  unfold TreeView.significant
  rw [h.old (h.ne_of_mem_seg hk)]

/-- A child has an error when a leaf below it has one. -/
theorem hasError_iff {k : ℕ} (hk : k ∈ seg) : (v.node k).flags.has .hasError = true ↔
    ∃ x ∈ leaves k, (v.node x).flags.has .hasError = true := by
  by_cases hki : (v.node k).kind = .internal
  · exact (h.core.closed k (h.done k hk hki)).hasError
  · rw [h.core.leaf k (h.lt_seg hk).1 (h.lt_seg hk).2 hki]
    simp

theorem closedNode_old {i : ℕ} (hi : v.IsClosed i) :
    ClosedNode w (Function.update leaves p (seg.flatMap leaves))
      (Function.update rank p ((seg.map rank).sum + 1)) i := by
  have hip := h.ne_of_isClosed hi
  have hsame : SameNode (v.node i) (w.node i) := by
    rw [h.old hip]
    exact .refl _
  have hkp : ∀ k ∈ v.kids i, k ≠ p := fun k hk => h.ne_of_indexed (mem_childIndex_of_kids hk)
  exact (h.core.closed i hi).congr hsame (fun k hk => h.old (hkp k hk)) h.childIndex
    (fun x hx => by rw [h.leaf_old hx]) (Function.update_of_ne hip ..)
    (fun k hk => Function.update_of_ne (hkp k hk) ..) (Function.update_of_ne hip ..)
    fun k hk => Function.update_of_ne (hkp k hk) ..

theorem closedNode_self :
    ClosedNode w (Function.update leaves p (seg.flatMap leaves))
      (Function.update rank p ((seg.map rank).sum + 1)) p := by
  obtain ⟨-, -, htspan, hterr⟩ := takeNode_spec (v.node p) (seg.map v.node)
  have hspans : ((seg.map v.node).filter Node.significant).map Node.span =
      (seg.filter v.significant).map fun k => (v.node k).span := by
    rw [List.filter_map, List.map_map]
    rfl
  refine ⟨?_, ?_, ?_, ?_, ?_, ?_⟩
  · rw [h.self, h.childIndex, List.length_append]
  · intro k hk
    rw [h.kids_eq] at hk
    have hkp := h.ne_of_mem_seg hk
    rw [h.old hkp, Function.update_self, Function.update_of_ne hkp]
    have := List.single_le_sum (fun x _ => Nat.zero_le x) (rank k) (List.mem_map_of_mem hk)
    exact ⟨h.parent k hk, by omega⟩
  · rw [Function.update_self, h.kids_eq]
    exact (List.flatMap_congr fun k hk => Function.update_of_ne (h.ne_of_mem_seg hk) ..).symm
  · rw [Function.update_self, h.self]
    refine hterr.trans ?_
    rw [h.flags]
    constructor
    · rintro (h0 | ⟨n, hn, hf⟩)
      · exact absurd h0 (by decide)
      · obtain ⟨k, hk, rfl⟩ := List.mem_map.mp hn
        obtain ⟨x, hx, hf⟩ := (h.hasError_iff hk).mp hf
        exact ⟨x, List.mem_flatMap.mpr ⟨k, hk, hx⟩, by rw [h.leaf_old hx]; exact hf⟩
    · rintro ⟨x, hx, hf⟩
      obtain ⟨k, hk, hx⟩ := List.mem_flatMap.mp hx
      rw [h.leaf_old hx] at hf
      exact .inr ⟨v.node k, List.mem_map_of_mem hk, (h.hasError_iff hk).mpr ⟨x, hx, hf⟩⟩
  · intro hne
    rw [h.kids_eq, h.significant_eq] at hne ⊢
    rw [h.self]
    show (takeNode (v.node p) (seg.map v.node)).span = _
    rw [htspan, hspans, foldl_join_of_empty h.empty _ (by simpa using hne)]
    refine congrArg joinAll (List.map_congr_left fun k hk => ?_)
    rw [h.old (h.ne_of_mem_seg (List.mem_of_mem_filter hk))]
  · intro he
    rw [h.kids_eq, h.significant_eq] at he
    rw [h.self]
    show (takeNode (v.node p) (seg.map v.node)).span.isEmpty = true
    rw [htspan, hspans, he]
    exact h.empty

/-- The new range starts where the old ones end. -/
theorem apart {i j : ℕ} (hi : w.IsClosed i) (hj : w.IsClosed j) (hij : i ≠ j) :
    (w.node i).firstChild + (w.node i).childCount ≤ (w.node j).firstChild ∨
      (w.node j).firstChild + (w.node j).childCount ≤ (w.node i).firstChild := by
  rcases (h.isClosed i).mp hi with hi | rfl
  · have hip := h.ne_of_isClosed hi
    rcases (h.isClosed j).mp hj with hj | rfl
    · rw [h.old hip, h.old (h.ne_of_isClosed hj)]
      exact h.core.apart i j hi hj hij
    · rw [h.self, h.old hip]
      exact .inl (h.core.closed i hi).range
  · rcases (h.isClosed j).mp hj with hj | rfl
    · rw [h.self, h.old (Ne.symm hij)]
      exact .inr (h.core.closed j hj).range
    · exact absurd rfl hij

theorem owned {i : ℕ} (hi : i ∈ w.childIndex) :
    w.IsClosed (w.node i).parent ∧ i ∈ w.kids (w.node i).parent := by
  rw [h.childIndex] at hi
  rcases List.mem_append.mp hi with hi | hi
  · obtain ⟨hq, hmem⟩ := h.core.owned i hi
    have hqp := h.ne_of_isClosed hq
    have hsame : SameNode (v.node (v.node i).parent) (w.node (v.node i).parent) := by
      rw [h.old hqp]
      exact .refl _
    rw [h.old (h.ne_of_indexed hi), h.isClosed]
    refine ⟨.inl hq, ?_⟩
    rw [kids_congr hsame (h.core.closed _ hq).range h.childIndex]
    exact hmem
  · rw [h.old (h.ne_of_mem_seg hi), h.parent i hi, h.isClosed, h.kids_eq]
    exact ⟨.inr rfl, hi⟩

theorem order_eq :
    (xs ++ [p]).flatMap (Function.update leaves p (seg.flatMap leaves)) = w.madeLeaves := by
  rw [madeLeaves_congr h.length_eq fun i _ => h.kind_eq i, ← h.core.order, List.flatMap_append,
    List.flatMap_append, List.flatMap_cons, List.flatMap_cons, List.flatMap_nil, h.leafless,
    Function.update_self, List.append_nil, List.nil_append]
  exact congrArg (· ++ _)
    (List.flatMap_congr fun x hx => Function.update_of_ne (h.ne_of_mem_xs hx) ..)

/-- **Closing a frame keeps the shape**: its pending children become a range at the end of the child
index. -/
theorem core_after : Core w (xs ++ [p]) (Function.update leaves p (seg.flatMap leaves))
    (Function.update rank p ((seg.map rank).sum + 1)) where
  arena := by
    rw [h.length_eq]
    exact h.core.arena
  nodup := h.perm.nodup_iff.mpr h.core.nodup
  cover i := by
    rw [h.perm.mem_iff, h.length_eq]
    exact h.core.cover i
  head hone := by
    rw [h.length_eq] at hone
    have := h.core.head hone
    cases xs with
    | nil => simpa using this
    | cons x xs => simpa using this
  leaf i hi hi' hk := by
    rw [h.kind_eq] at hk
    rw [h.length_eq] at hi'
    have hip : i ≠ p := by
      rintro rfl
      exact hk h.kind
    rw [Function.update_of_ne hip]
    exact h.core.leaf i hi hi' hk
  errorLeaf i hi hi' hk := by
    rw [h.kind_eq] at hk
    rw [h.length_eq] at hi'
    have hip : i ≠ p := by
      rintro rfl
      rw [h.kind] at hk
      cases hk
    rw [h.old hip]
    exact h.core.errorLeaf i hi hi' hk
  closed i hi := by
    rcases (h.isClosed i).mp hi with hi | rfl
    · exact h.closedNode_old hi
    · exact h.closedNode_self
  apart i j hi hj hij := h.apart hi hj hij
  owned i hi := h.owned hi
  made i x hx := by
    rw [h.length_eq, h.kind_eq]
    by_cases hip : i = p
    · subst hip
      rw [Function.update_self] at hx
      obtain ⟨k, -, hx⟩ := List.mem_flatMap.mp hx
      exact h.core.made k x hx
    · rw [Function.update_of_ne hip] at hx
      exact h.core.made i x hx
  fresh i hi := by
    rw [h.length_eq] at hi
    have hip : i ≠ p := by
      have := (h.lt (i := p) (by simp)).2
      omega
    rw [Function.update_of_ne hip]
    exact h.core.fresh i hi
  order := h.order_eq

end Closes

def TreeView.leafSpans (v : TreeView) : List SourceSpan := v.madeLeaves.map fun i => (v.node i).span

theorem leafSpans_push {n : Node} (ha : w.arena = v.arena ++ [n]) (hpos : 0 < v.arena.length) :
    w.leafSpans = v.leafSpans ++ if n.kind = .internal then [] else [n.span] := by
  have hlen : w.arena.length = v.arena.length + 1 := by rw [ha]; simp
  have hold : ∀ i ∈ List.range v.arena.length, w.node i = v.node i := fun i hi =>
    node_append_old ha (List.mem_range.mp hi)
  have hfilter : (List.range v.arena.length).filter w.isLeaf = v.madeLeaves := by
    refine List.filter_congr fun i hi => ?_
    unfold TreeView.isLeaf
    rw [hold i hi]
  unfold TreeView.leafSpans
  rw [show w.madeLeaves = (List.range w.arena.length).filter w.isLeaf from rfl, hlen,
    List.range_succ, List.filter_append, hfilter, List.map_append]
  congr 1
  · exact List.map_congr_left fun i hi => by rw [hold i (List.mem_of_mem_filter hi)]
  · by_cases hk : n.kind = .internal
    · simp [TreeView.isLeaf, node_append_new ha, hk]
    · simp [TreeView.isLeaf, node_append_new ha, hk, hpos]

theorem leafSpans_set {c : ℕ} {n : Node} (ha : w.arena = v.arena.set c n)
    (hc : c < v.arena.length) (hk : n.kind = (v.node c).kind)
    (hs : n.kind ≠ .internal → n.span = (v.node c).span) : w.leafSpans = v.leafSpans := by
  have hnode := node_set ha hc
  have hkinds : ∀ i, (w.node i).kind = (v.node i).kind := by
    intro i
    rw [hnode]
    split
    · rename_i hi
      rw [hk, hi]
    · rfl
  unfold TreeView.leafSpans
  rw [madeLeaves_congr (by rw [ha, List.length_set]) fun i _ => hkinds i]
  refine List.map_congr_left fun i hi => ?_
  rw [hnode]
  split
  · rename_i hic
    subst hic
    refine hs ?_
    have := (List.mem_filter.mp hi).2
    simp only [TreeView.isLeaf, Bool.and_eq_true, decide_eq_true_eq] at this
    rw [hk]
    exact this.2
  · rfl

theorem isClosed_push {n : Node} (ha : w.arena = v.arena ++ [n])
    (hf : ∀ i, i < v.arena.length → ((∀ f ∈ w.frames, f.id ≠ i) ↔ ∀ f ∈ v.frames, f.id ≠ i))
    (hn : n.kind = .internal → ∃ f ∈ w.frames, f.id = v.arena.length) (i : ℕ) :
    w.IsClosed i ↔ v.IsClosed i := by
  have hlen : w.arena.length = v.arena.length + 1 := by rw [ha]; simp
  unfold TreeView.IsClosed
  by_cases hi : i < v.arena.length
  · rw [node_append_old ha hi, hf i hi, hlen]
    constructor
    · rintro ⟨h0, -, h⟩
      exact ⟨h0, hi, h⟩
    · rintro ⟨h0, -, h⟩
      exact ⟨h0, by omega, h⟩
  · constructor
    · rintro ⟨-, hlt, hk, hnot⟩
      obtain rfl : i = v.arena.length := by omega
      rw [node_append_new ha] at hk
      obtain ⟨f, hmem, hid⟩ := hn hk
      exact absurd hid (hnot f hmem)
    · rintro ⟨-, hlt, -⟩
      exact absurd hlt hi

theorem isClosed_set {c : ℕ} {n : Node} (ha : w.arena = v.arena.set c n)
    (hc : c < v.arena.length) (hk : n.kind = (v.node c).kind) (i : ℕ) :
    w.IsClosed i ↔ 0 < i ∧ i < v.arena.length ∧ (v.node i).kind = .internal ∧
      ∀ f ∈ w.frames, f.id ≠ i := by
  have hkinds : (w.node i).kind = (v.node i).kind := by
    rw [node_set ha hc]
    split
    · rename_i hi
      rw [hk, hi]
    · rfl
  unfold TreeView.IsClosed
  rw [hkinds, ha, List.length_set]

variable {roots : ℕ}

namespace Shape

theorem roots_le (h : Shape v spine roots leaves rank) : roots ≤ spine.length := by
  cases hf : v.frames with
  | nil => exact (h.idle hf).ge
  | cons f fs =>
    have hs := h.frames
    rw [hf] at hs
    cases hs with
    | opened _ _ hstart _ _ =>
      simp only [List.length_append, List.length_cons]
      omega

theorem lt (h : Shape v spine roots leaves rank) {i : ℕ} (hi : i ∈ spine) :
    0 < i ∧ i < v.arena.length := (h.core.cover i).mp (List.mem_append_right _ hi)

theorem frame_lt (h : Shape v spine roots leaves rank) {f : Frame} (hf : f ∈ v.frames) :
    0 < f.id ∧ f.id < v.arena.length := h.lt (h.frames.open_mem f hf)

theorem leaf (h : Shape v spine roots leaves rank) {f : Frame} {fs : List Frame} {n : Node}
    (hf : v.frames = f :: fs) (hk : n.kind ≠ .internal)
    (he : n.kind = .error → n.flags.has .hasError = true)
    (hv : w = { v with
      arena := v.arena ++ [{ n with parent := f.id }]
      pending := v.pending ++ [v.arena.length] }) :
    Shape w (spine ++ [v.arena.length]) roots
      (Function.update leaves v.arena.length [v.arena.length]) rank := by
  subst hv
  have hold : ∀ i, i < v.arena.length → TreeView.node { v with
      arena := v.arena ++ [{ n with parent := f.id }]
      pending := v.pending ++ [v.arena.length] } i = v.node i := fun i hi => node_append_old rfl hi
  refine ⟨h.core.push rfl rfl (isClosed_push rfl (fun _ _ => Iff.rfl) fun hi => absurd hi hk) he
    (by rw [if_neg hk]), ?_, ?_, ?_, ?_, ?_⟩
  · refine (h.frames.congr fun x hx => by rw [hold x (h.lt hx).2]).attach fun g hg => ?_
    obtain rfl : f = g := by simpa [hf] using hg
    rw [node_append_new rfl]
  · show v.pending ++ _ = _
    rw [h.pending, List.drop_append_of_le_length h.roots_le]
  · intro hnil
    exact absurd (hf.symm.trans hnil) (by simp)
  · intro g hg
    have hlt := (h.frame_lt hg).2
    rw [hold g.id hlt, Function.update_of_ne (by omega)]
    exact h.opened g hg
  · intro i hi
    rw [List.take_append_of_le_length h.roots_le] at hi
    rw [hold i (h.lt (List.mem_of_mem_take hi)).2]
    exact h.parentless i hi

theorem openRoot (h : Shape v spine roots leaves rank) {f : Frame} {n : Node} (hf : v.frames = [])
    (hk : n.kind = .internal) (hflags : n.flags = 0) (hs : n.span.isEmpty = true)
    (hparent : n.parent = 0) (hid : f.id = v.arena.length)
    (hstart : f.pendingStart = v.pending.length)
    (hv : w = { v with arena := v.arena ++ [n], frames := [f] }) :
    Shape w (spine ++ [v.arena.length]) (roots + 1) leaves rank := by
  subst hv
  have hidle := h.idle hf
  have hpending : v.pending = [] := by rw [h.pending, ← hidle, List.drop_length]
  refine ⟨h.core.push rfl rfl (isClosed_push rfl (fun i hi => ?_) fun _ => ⟨f, by simp, hid⟩)
    (fun he => by rw [hk] at he; cases he) (by rw [if_pos hk]), ?_, ?_, ?_, ?_, ?_⟩
  · rw [hf]
    simp only [List.mem_singleton, forall_eq, List.not_mem_nil, false_implies, implies_true,
      iff_true, hid]
    omega
  · rw [← hid]
    refine .opened (.closed spine) (by simp) ?_ (fun _ => ?_) (by simp)
    · rw [hstart, hpending, List.length_nil, hidle]
      omega
    · rw [hstart, hpending, List.length_nil]
  · show v.pending = _
    rw [hpending, ← hidle, List.drop_eq_nil_of_le (by simp)]
  · intro hnil
    cases hnil
  · intro g hg
    obtain rfl : g = f := List.mem_singleton.mp hg
    rw [hid, node_append_new rfl]
    exact ⟨hk, hflags, hs, h.core.fresh _ le_rfl⟩
  · intro i hi
    rcases List.mem_append.mp (List.mem_of_mem_take hi) with hi | hi
    · rw [node_append_old rfl (h.lt hi).2]
      exact h.parentless i (by rwa [← hidle, List.take_length])
    · rw [List.mem_singleton.mp hi, node_append_new rfl]
      exact ⟨hk, hparent⟩

theorem openNested (h : Shape v spine roots leaves rank) {f g : Frame} {fs : List Frame} {n : Node}
    (hf : v.frames = g :: fs) (hk : n.kind = .internal) (hflags : n.flags = 0)
    (hs : n.span.isEmpty = true) (hparent : n.parent = g.id) (hid : f.id = v.arena.length)
    (hstart : f.pendingStart = v.pending.length + 1)
    (hv : w = { v with
      arena := v.arena ++ [n], pending := v.pending ++ [v.arena.length], frames := f :: g :: fs }) :
    Shape w (spine ++ [v.arena.length]) roots leaves rank := by
  subst hv
  have hframes := h.frames
  rw [hf] at hframes
  have hle := h.roots_le
  refine ⟨h.core.push rfl rfl (isClosed_push rfl (fun i hi => ?_) fun _ => ⟨f, by simp, hid⟩)
    (fun he => by rw [hk] at he; cases he) (by rw [if_pos hk]), ?_, ?_, ?_, ?_, ?_⟩
  · rw [hf]
    simp only [List.forall_mem_cons, hid]
    constructor
    · exact fun h => h.2
    · exact fun h => ⟨by omega, h⟩
  · rw [← hid]
    refine .opened (hframes.congr fun x hx => ?_) (fun g' hg => ?_) ?_ (by simp) (by simp)
    · rw [node_append_old rfl (h.lt hx).2]
    · obtain rfl : g = g' := by simpa using hg
      rw [hid, node_append_new rfl]
      exact hparent
    · rw [hstart, h.pending, List.length_drop]
      omega
  · show v.pending ++ _ = _
    rw [h.pending, List.drop_append_of_le_length hle]
  · intro hnil
    cases hnil
  · intro e he
    rcases List.mem_cons.mp he with rfl | he
    · rw [hid, node_append_new rfl]
      exact ⟨hk, hflags, hs, h.core.fresh _ le_rfl⟩
    · have he' : e ∈ v.frames := by rw [hf]; exact he
      rw [node_append_old rfl (h.frame_lt he').2]
      exact h.opened e he'
  · intro i hi
    rw [List.take_append_of_le_length hle] at hi
    rw [node_append_old rfl (h.lt (List.mem_of_mem_take hi)).2]
    exact h.parentless i hi

theorem wrap (h : Shape v spine roots leaves rank) {f g : Frame} {fs : List Frame} {n : Node}
    {child : ℕ} {xs : List ℕ} (hf : v.frames = g :: fs) (hx : v.pending = xs ++ [child])
    (hg : g.pendingStart ≤ xs.length) (hk : n.kind = .internal) (hflags : n.flags = 0)
    (hs : n.span.isEmpty = true) (hparent : n.parent = g.id) (hid : f.id = v.arena.length)
    (hstart : f.pendingStart = xs.length + 1)
    (hv : w = { v with
      arena := (v.arena.set child { v.node child with parent := v.arena.length }) ++ [n]
      pending := xs ++ [v.arena.length, child]
      frames := f :: g :: fs }) :
    ∃ spine', Shape w spine' roots leaves rank ∧ w.leafSpans = v.leafSpans := by
  subst hv
  have hframes := h.frames
  rw [hf] at hframes
  cases hframes with
  | @opened _ _ ys seg hys hp hst hrt hseg =>
    have hpend := h.pending
    have hlens := congrArg List.length hpend
    rw [hx] at hlens
    simp only [List.length_append, List.length_drop, List.length_cons, List.length_nil] at hlens
    -- the child is the last of the frame's own children
    rcases List.eq_nil_or_concat' seg with rfl | ⟨seg, last, rfl⟩
    · simp only [List.length_nil] at hlens
      omega
    have hspine : ys ++ g.id :: (seg ++ [last]) = (ys ++ g.id :: seg) ++ [last] := by simp
    rw [hspine] at h hpend
    have hle : roots ≤ (ys ++ g.id :: seg).length := by
      simp only [List.length_append, List.length_cons]
      omega
    rw [hx, List.drop_append_of_le_length hle] at hpend
    obtain ⟨hxs, hlast⟩ := List.append_inj' hpend rfl
    obtain rfl : child = last := by simpa using hlast
    have hchild : child ∈ (ys ++ g.id :: seg) ++ [child] := by simp
    have hclt := (h.lt hchild).2
    have hnew : ∀ x ∈ ys ++ g.id :: seg, x ≠ child ∧ x < v.arena.length := by
      intro x hmem
      refine ⟨?_, (h.lt (List.mem_append_left _ hmem)).2⟩
      have hnd := (List.nodup_append.mp (List.nodup_append.mp h.core.nodup).2.1).2.2
      exact hnd x hmem child (List.mem_singleton_self _)
    let v₁ : TreeView := { v with
      arena := v.arena.set child { v.node child with parent := v.arena.length } }
    have hlen₁ : v₁.arena.length = v.arena.length := List.length_set
    have hcl₁ : ∀ i, v₁.IsClosed i ↔ v.IsClosed i := fun i =>
      isClosed_set (v := v) (n := { v.node child with parent := v.arena.length }) rfl hclt rfl i
    have hcore₁ : Core v₁ ((ys ++ g.id :: seg) ++ [child]) leaves rank :=
      h.core.reparent hchild rfl rfl hcl₁
    have hnode₁ := node_set (v := v) (w := v₁) rfl hclt
    let v₂ : TreeView := { v with
      arena := (v.arena.set child { v.node child with parent := v.arena.length }) ++ [n]
      pending := xs ++ [v.arena.length, child]
      frames := f :: g :: fs }
    have hold₂ : ∀ i, i < v.arena.length → v₂.node i = v₁.node i := fun i hi =>
      node_append_old (v := v₁) rfl (by rw [hlen₁]; exact hi)
    have hself₂ : v₂.node v.arena.length = n := by
      have := node_append_new (v := v₁) (w := v₂) rfl
      rwa [hlen₁] at this
    have hcore₂ : Core v₂ ((ys ++ g.id :: seg) ++ [v.arena.length, child]) leaves rank := by
      have hpush : Core v₂ ((ys ++ g.id :: seg) ++ [child] ++ [v₁.arena.length]) leaves rank := by
        refine hcore₁.push rfl rfl (isClosed_push rfl (fun i hi => ?_) fun _ =>
          ⟨f, List.mem_cons_self .., hid.trans hlen₁.symm⟩)
          (fun he => by rw [hk] at he; cases he) (by rw [if_pos hk])
        rw [hlen₁] at hi
        show (∀ e ∈ f :: g :: fs, e.id ≠ i) ↔ ∀ e ∈ v.frames, e.id ≠ i
        rw [hf]
        simp only [List.forall_mem_cons, hid]
        constructor
        · exact fun h => h.2
        · exact fun h => ⟨by omega, h⟩
      rw [hlen₁, List.append_assoc] at hpush
      exact hpush.swap (by simp) (h.core.fresh _ le_rfl)
    refine ⟨_, ⟨hcore₂, ?_, ?_, ?_, ?_, ?_⟩, ?_⟩
    · show Spine v₂.node roots (f :: g :: fs) ((ys ++ g.id :: seg) ++ [v.arena.length, child])
      rw [← hid]
      have hinner : Spine v.node roots (g :: fs) (ys ++ g.id :: seg) :=
        .opened hys hp hst hrt fun x hmem => hseg x (List.mem_append_left _ hmem)
      refine .opened (hinner.congr fun x hmem => ?_) (fun g' hg' => ?_) ?_ (by simp) ?_
      · rw [hold₂ x (hnew x hmem).2, hnode₁, if_neg (hnew x hmem).1]
      · obtain rfl : g = g' := by simpa using hg'
        rw [hid, hself₂]
        exact hparent
      · rw [hstart, hxs, List.length_drop]
        omega
      · intro x hmem
        obtain rfl := List.mem_singleton.mp hmem
        rw [hold₂ x hclt, hnode₁, if_pos rfl, hid]
    · show xs ++ [v.arena.length, child] = _
      rw [hxs, List.drop_append_of_le_length hle]
    · intro hnil
      cases hnil
    · intro e he
      rcases List.mem_cons.mp he with rfl | he
      · rw [hid, hself₂]
        exact ⟨hk, hflags, hs, h.core.fresh _ le_rfl⟩
      · have he' : e ∈ v.frames := by rw [hf]; exact he
        have hmem : e.id ∈ ys ++ g.id :: seg := by
          rcases List.mem_cons.mp he with rfl | he
          · simp
          · exact List.mem_append_left _ (hys.open_mem e he)
        rw [hold₂ e.id (hnew _ hmem).2, hnode₁, if_neg (hnew _ hmem).1]
        exact h.opened e he'
    · intro i hi
      rw [List.take_append_of_le_length hle] at hi
      show (v₂.node i).kind = _ ∧ (v₂.node i).parent = _
      rw [hold₂ i (hnew _ (List.mem_of_mem_take hi)).2, hnode₁,
        if_neg (hnew _ (List.mem_of_mem_take hi)).1]
      exact h.parentless i (by rwa [List.take_append_of_le_length hle])
    · rw [leafSpans_push (v := v₁) rfl (by rw [hlen₁]; exact h.core.arena), if_pos hk,
        List.append_nil, leafSpans_set (v := v) (w := v₁)
          (n := { v.node child with parent := v.arena.length }) rfl hclt rfl fun _ => rfl]

theorem close (h : Shape v spine roots leaves rank) {f : Frame} {fs : List Frame}
    (hf : v.frames = f :: fs)
    (hv : w = { v with
      arena := v.arena.set f.id { takeNode (v.node f.id)
          ((v.pending.drop f.pendingStart).map v.node) with
        firstChild := v.childIndex.length
        childCount := v.pending.length - f.pendingStart }
      childIndex := v.childIndex ++ v.pending.drop f.pendingStart
      pending := v.pending.take f.pendingStart
      frames := fs }) :
    ∃ spine' leaves' rank', Shape w spine' roots leaves' rank' ∧ w.leafSpans = v.leafSpans := by
  have hframes := h.frames
  rw [hf] at hframes
  obtain ⟨hkind, hflags, hempty, hnil⟩ := h.opened f (by rw [hf]; exact List.mem_cons_self ..)
  cases hframes with
  | @opened _ _ xs seg hxs hp hstart hroot hseg =>
    have hpend := h.pending
    have hcutAt : roots + f.pendingStart = xs.length + 1 := by omega
    have hdrop : v.pending.drop f.pendingStart = seg := by
      rw [hpend, List.drop_drop, hcutAt, ← List.drop_drop, List.drop_left]
      rfl
    have hcount : v.pending.length - f.pendingStart = seg.length := by
      rw [← hdrop, List.length_drop]
    have htake : v.pending.take f.pendingStart = (xs ++ [f.id]).drop roots := by
      have hcut : (xs ++ f.id :: seg).take (roots + f.pendingStart) = xs ++ [f.id] := by
        rw [hcutAt, List.take_append]
        simp
      rw [hpend, List.take_drop, hcut]
    rw [hdrop, hcount, htake] at hv
    subst hv
    have hflt := h.frame_lt (f := f) (by rw [hf]; exact List.mem_cons_self ..)
    obtain ⟨htkind, htparent, -, -⟩ := takeNode_spec (v.node f.id) (seg.map v.node)
    have hnd := List.nodup_append.mp (List.nodup_append.mp h.core.nodup).2.1
    have hidnd := h.frames.open_nodup (List.nodup_append.mp h.core.nodup).2.1
    rw [hf, List.map_cons, List.nodup_cons] at hidnd
    have hout : ∀ g ∈ fs, g.id ≠ f.id := fun g hg heq =>
      hidnd.1 (heq ▸ List.mem_map_of_mem hg)
    let v₁ : TreeView := { v with
      arena := v.arena.set f.id { takeNode (v.node f.id) (seg.map v.node) with
        firstChild := v.childIndex.length, childCount := seg.length }
      childIndex := v.childIndex ++ seg
      pending := (xs ++ [f.id]).drop roots
      frames := fs }
    have hnode := node_set (v := v) (w := v₁) rfl hflt.2
    have hopen : ¬ v.IsClosed f.id := fun hc =>
      hc.2.2.2 f (by rw [hf]; exact List.mem_cons_self ..) rfl
    have hcl : ∀ i, v₁.IsClosed i ↔ v.IsClosed i ∨ i = f.id := by
      intro i
      rw [isClosed_set (v := v) (n := { takeNode (v.node f.id) (seg.map v.node) with
        firstChild := v.childIndex.length, childCount := seg.length }) rfl hflt.2 htkind]
      unfold TreeView.IsClosed
      rw [hf]
      constructor
      · rintro ⟨h0, hlt, hk, hnot⟩
        by_cases hi : i = f.id
        · exact .inr hi
        · refine .inl ⟨h0, hlt, hk, fun e he => ?_⟩
          rcases List.mem_cons.mp he with rfl | he
          · exact Ne.symm hi
          · exact hnot e he
      · rintro (⟨h0, hlt, hk, hnot⟩ | rfl)
        · exact ⟨h0, hlt, hk, fun e he => hnot e (List.mem_cons_of_mem _ he)⟩
        · exact ⟨hflt.1, hflt.2, hkind, hout⟩
    have hdone : ∀ x ∈ seg, (v.node x).kind = .internal → v.IsClosed x := by
      intro x hx hk
      have hlt := h.lt (i := x) (by simp [hx])
      refine ⟨hlt.1, hlt.2, hk, fun e he => ?_⟩
      rw [hf] at he
      rcases List.mem_cons.mp he with rfl | he
      · rintro rfl
        exact (List.nodup_cons.mp hnd.2.1).1 hx
      · exact hnd.2.2 _ (hxs.open_mem e he) x (List.mem_cons_of_mem _ hx)
    have hcloses : Closes v v₁ leaves rank xs seg f.id :=
      ⟨h.core, hkind, hflags, hempty, hnil, hseg, hdone, hopen, rfl, rfl, hcl⟩
    have hcore := hcloses.core_after
    refine ⟨_, _, _, ⟨hcore, ?_, rfl, ?_, ?_, ?_⟩, ?_⟩
    · refine Spine.attach (hxs.congr fun x hx => ?_) fun g hg => ?_
      · show (v₁.node x).parent = _
        rw [hnode, if_neg (hnd.2.2 x hx f.id (List.mem_cons_self ..))]
      · show (v₁.node f.id).parent = _
        rw [hnode, if_pos rfl]
        exact htparent.trans (hp g hg)
    · intro hnil
      have := hroot hnil
      rw [List.length_append, List.length_singleton]
      omega
    · intro g hg
      show (v₁.node g.id).kind = _ ∧ (v₁.node g.id).flags = 0 ∧
        (v₁.node g.id).span.isEmpty = true ∧ _
      rw [hnode, if_neg (hout g hg), Function.update_of_ne (hout g hg)]
      exact h.opened g (by rw [hf]; exact List.mem_cons_of_mem _ hg)
    · intro i hi
      show (v₁.node i).kind = _ ∧ (v₁.node i).parent = _
      have hcutRoots : (xs ++ f.id :: seg).take roots = (xs ++ [f.id]).take roots := by
        rw [List.append_cons, List.take_append_of_le_length
          (by rw [List.length_append, List.length_singleton]; omega)]
      have hmem := h.parentless i (by rwa [hcutRoots])
      rw [hnode]
      split
      · rename_i hi
        rw [hi] at hmem
        exact ⟨htkind.trans hmem.1, htparent.trans hmem.2⟩
      · exact hmem
    · exact leafSpans_set (v := v) (w := v₁) rfl hflt.2 htkind fun hk =>
        absurd (htkind.trans hkind) hk

end Shape

def TreeView.Shaped (v : TreeView) : Prop :=
  ∃ spine roots leaves rank, Shape v spine roots leaves rank

theorem TreeView.Shaped.pending_lt (h : v.Shaped) {x : ℕ} (hx : x ∈ v.pending) :
    0 < x ∧ x < v.arena.length := by
  obtain ⟨spine, roots, leaves, rank, h⟩ := h
  rw [h.pending] at hx
  exact h.lt (List.mem_of_mem_drop hx)

theorem TreeView.Shaped.top (h : v.Shaped) {f : Frame} {fs : List Frame} (hf : v.frames = f :: fs) :
    f.pendingStart ≤ v.pending.length ∧ f.id ∉ v.pending.drop f.pendingStart ∧
      0 < f.id ∧ f.id < v.arena.length := by
  obtain ⟨spine, roots, leaves, rank, h⟩ := h
  have hlt := h.frame_lt (f := f) (by rw [hf]; exact List.mem_cons_self ..)
  have hle := h.roots_le
  have hframes := h.frames
  have hpend := h.pending
  rw [hf] at hframes
  cases hframes with
  | @opened _ _ xs seg hxs hp hstart hroot hseg =>
    have hcutAt : roots + f.pendingStart = xs.length + 1 := by omega
    have hdrop : v.pending.drop f.pendingStart = seg := by
      rw [hpend, List.drop_drop, hcutAt, ← List.drop_drop, List.drop_left]
      rfl
    have hnd := List.nodup_append.mp (List.nodup_append.mp h.core.nodup).2.1
    refine ⟨?_, ?_, hlt⟩
    · rw [hpend, List.length_drop, List.length_append, List.length_cons]
      omega
    · rw [hdrop]
      exact (List.nodup_cons.mp hnd.2.1).1

/-- **Every step keeps the shape**, and its leaves come after those before. -/
theorem TreeStep.shaped {added : List SourceSpan} (hstep : TreeStep v added w) (h : v.Shaped) :
    w.Shaped ∧ w.leafSpans = v.leafSpans ++ added := by
  obtain ⟨spine, roots, leaves, rank, h⟩ := h
  cases hstep with
  | leaf hf hk he =>
    exact ⟨⟨_, _, _, _, h.leaf hf hk he rfl⟩, by
      rw [leafSpans_push rfl h.core.arena, if_neg hk]⟩
  | openRoot hf hk hflags hs hparent hid hstart =>
    exact ⟨⟨_, _, _, _, h.openRoot hf hk hflags hs hparent hid hstart rfl⟩, by
      rw [leafSpans_push rfl h.core.arena, if_pos hk]⟩
  | openNested hf hk hflags hs hparent hid hstart =>
    exact ⟨⟨_, _, _, _, h.openNested hf hk hflags hs hparent hid hstart rfl⟩, by
      rw [leafSpans_push rfl h.core.arena, if_pos hk]⟩
  | wrap hf hx hg hk hflags hs hparent hid hstart =>
    obtain ⟨spine', h', hsp⟩ := h.wrap hf hx hg hk hflags hs hparent hid hstart rfl
    exact ⟨⟨_, _, _, _, h'⟩, by rw [hsp, List.append_nil]⟩
  | close hf =>
    obtain ⟨spine', leaves', rank', h', hsp⟩ := h.close hf rfl
    exact ⟨⟨_, _, _, _, h'⟩, by rw [hsp, List.append_nil]⟩

end

end DssPrime.Parse
