import Mathlib
import DssPrime.Parse.TreeShape
import DssPrime.Parse.Speculation

/-!
# The operations take tree steps

Each operation of the builder is a row of steps on the tree (`TreeSteps`); what it does to the
walker, the scopes, the cookies and the diagnostics is not seen there (`Still`).
-/

namespace DssPrime.Parse

def TreeBuilder.tree (b : TreeBuilder) : TreeView :=
  ⟨b.arena, b.childIndex.v, b.pendingChildren.v, b.openFrames.v.reverse⟩

/-- A row of steps. -/
inductive TreeSteps : TreeView → List SourceSpan → TreeView → Prop
  | refl (v : TreeView) : TreeSteps v [] v
  | tail {u v w : TreeView} {a a' : List SourceSpan} : TreeSteps u a v → TreeStep v a' w →
      TreeSteps u (a ++ a') w

theorem TreeSteps.single {v w : TreeView} {a : List SourceSpan} (h : TreeStep v a w) :
    TreeSteps v a w := by
  simpa using (TreeSteps.refl v).tail h

theorem TreeSteps.trans {u v w : TreeView} {a a' : List SourceSpan} (h : TreeSteps u a v)
    (h' : TreeSteps v a' w) : TreeSteps u (a ++ a') w := by
  induction h' with
  | refl => simpa using h
  | tail _ hs ih =>
    rw [← List.append_assoc]
    exact ih.tail hs

/-- **A row of steps keeps the shape.** -/
theorem TreeSteps.shaped {v w : TreeView} {a : List SourceSpan} (h : TreeSteps v a w)
    (hv : v.Shaped) : w.Shaped ∧ w.leafSpans = v.leafSpans ++ a := by
  induction h with
  | refl => exact ⟨hv, by simp⟩
  | tail _ hs ih =>
    obtain ⟨hm, hl⟩ := ih
    obtain ⟨hw, hl'⟩ := hs.shaped hm
    exact ⟨hw, by rw [hl', hl, List.append_assoc]⟩

def Untouched (b b' : TreeBuilder) : Prop := b'.tree = b.tree ∧ b'.finished = b.finished

def Still {α : Type} (x : BuilderM α) : Prop := ∀ b a b', x b = some (a, b') → Untouched b b'

section

variable {env : BuilderEnv} {b b' : TreeBuilder} {α β : Type}

theorem Untouched.trans {b'' : TreeBuilder} (h : Untouched b b') (h' : Untouched b' b'') :
    Untouched b b'' := ⟨h'.1.trans h.1, h'.2.trans h.2⟩

theorem Still.pure (a : α) : Still (Pure.pure a : BuilderM α) := fun b r b' h => by
  cases h
  exact ⟨rfl, rfl⟩

theorem Still.bind {x : BuilderM α} {f : α → BuilderM β} (hx : Still x) (hf : ∀ a, Still (f a)) :
    Still (x >>= f) := fun b r b' h => by
  obtain ⟨a, b₁, h₁, h₂⟩ := bind_eq_some h
  exact (hx b a b₁ h₁).trans (hf a b₁ r b' h₂)

theorem still_fatal : Still (fatal : BuilderM α) := fun b r b' h => by cases h

theorem still_view : Still view := fun b r b' h => by
  cases h
  exact ⟨rfl, rfl⟩

theorem Still.ite {p : Prop} [Decidable p] {x y : BuilderM α} (hx : Still x) (hy : Still y) :
    Still (if p then x else y) := by
  split
  · exact hx
  · exact hy

theorem Still.doIf {x : BuilderM Unit} (p : Bool) (hx : Still x) : Still (Parse.doIf p x) :=
  .ite hx (.pure _)

theorem Still.forM {f : α → BuilderM PUnit} (hf : ∀ a, Still (f a)) (l : List α) :
    Still (l.forM f) := by
  induction l with
  | nil => exact .pure _
  | cons a l ih =>
    show Still (f a >>= fun _ => l.forM f)
    exact (hf a).bind fun _ => ih

theorem still_map {γ : Type} {o : TreeBuilder → Option γ} {f : TreeBuilder → γ → α × TreeBuilder}
    (hf : ∀ b c, Untouched b (f b c).2) : Still (fun b => (o b).map (f b)) := fun b r b' h => by
  obtain ⟨c, -, hc⟩ := Option.map_eq_some_iff.mp h
  have := hf b c
  rw [hc] at this
  exact this

theorem still_reportRaw (d : ParseDiagnostic) : Still (reportRaw env d) :=
  still_map fun _ _ => ⟨rfl, rfl⟩

theorem still_emitDiagnostic (d : ParseDiagnostic) : Still (emitDiagnostic env d) :=
  still_view.bind fun _ => still_reportRaw _

theorem still_addBuilderInvariant (actual : String) (span : SourceSpan) :
    Still (addBuilderInvariant env actual span) := still_emitDiagnostic _

theorem still_nodeAt (id : ℕ) : Still (nodeAt id) := fun b r b' h => by
  unfold nodeAt at h
  split at h
  · cases h
  · obtain ⟨n, -, hn⟩ := Option.map_eq_some_iff.mp h
    cases hn
    exact ⟨rfl, rfl⟩

theorem still_pushScopeKind (kind : ScopeKind) : Still (pushScopeKind kind) := fun b r b' h => by
  cases h
  exact ⟨rfl, rfl⟩

theorem still_popScopes (n : ℕ) : Still (popScopes n) := still_map fun _ _ => ⟨rfl, rfl⟩

theorem still_insertCookie (cookie : ℕ) : Still (insertCookie cookie) := fun b r b' h => by
  cases h
  exact ⟨rfl, rfl⟩

theorem still_eraseCookie (cookie : ℕ) : Still (eraseCookie cookie) := fun b r b' h => by
  cases h
  exact ⟨rfl, rfl⟩

theorem still_walkerLeave : Still (walkerLeave env) := still_map fun _ _ => ⟨rfl, rfl⟩

theorem still_walkerAdvance (tok : ℕ) : Still (walkerAdvance env tok) := fun b r b' h => by
  cases h
  exact ⟨rfl, rfl⟩

theorem still_reportDesync (lost : Bool) (span : SourceSpan) (rule : ℕ) :
    Still (reportDesync env lost span rule) := .ite (still_emitDiagnostic _) (.pure _)

theorem still_topSpan (c : Visible) (fr : Frame) : Still (topSpan c fr) := by
  unfold topSpan
  split
  · exact .pure _
  · exact (still_nodeAt _).bind fun _ => .pure _

theorem still_underflowSpan (c : Visible) : Still (underflowSpan c) := by
  unfold underflowSpan
  split
  · exact .pure _
  · exact still_topSpan _ _

theorem still_pushScope (kind : ScopeKind) : Still (pushScope env kind) :=
  still_view.bind fun _ => .ite (still_addBuilderInvariant _ _) (still_pushScopeKind _)

theorem still_popScope : Still (popScope env) :=
  still_view.bind fun _ => .ite (still_addBuilderInvariant _ _) (.ite
    ((still_underflowSpan _).bind fun _ => still_addBuilderInvariant _ _) (still_popScopes _))

theorem still_demoteContextual (lexeme : String) (buffer : ℕ) (span : SourceSpan) (rule : ℕ)
    (m : LexemeMeaning) : Still (demoteContextual env lexeme buffer span rule m) :=
  still_view.bind fun _ => .ite still_fatal (.ite
    ((still_emitDiagnostic _).bind fun _ => .pure _) (.pure _))

theorem still_reportDiagnostic (d : ParseDiagnostic) : Still (reportDiagnostic env d) :=
  still_view.bind fun _ => .ite (still_addBuilderInvariant _ _) (still_emitDiagnostic _)

theorem still_ingestDiagnostics (diags : List ParseDiagnostic) :
    Still (ingestDiagnostics env diags) :=
  still_view.bind fun _ => .ite (still_addBuilderInvariant _ _)
    (.forM (fun _ => still_reportRaw _) _)

theorem frames_of_last {fr : Frame} (h : b.openFrames.v.getLast? = some fr) :
    b.tree.frames = fr :: b.openFrames.v.dropLast.reverse := by
  obtain ⟨ys, hys⟩ := List.getLast?_eq_some_iff.mp h
  simp [TreeBuilder.tree, hys]

theorem frames_of_none (h : b.openFrames.v.getLast? = none) : b.tree.frames = [] := by
  simp [TreeBuilder.tree, List.getLast?_eq_none_iff.mp h]

theorem emitAttached_steps {n : Node} {a : Unit} {fr : Frame}
    (hf : b.openFrames.v.getLast? = some fr) (hk : n.kind ≠ .internal)
    (he : n.kind = .error → n.flags.has .hasError = true) (h : emitAttached n b = some (a, b')) :
    TreeSteps b.tree [n.span] b'.tree ∧ b'.finished = b.finished := by
  obtain ⟨c, b₁, hv, h⟩ := bind_eq_some h
  cases hv
  have hf' : b.visible.openFrames.getLast? = some fr := hf
  simp only [hf'] at h
  obtain ⟨id, b₂, h₂, h⟩ := bind_eq_some h
  cases h₂
  cases h
  exact ⟨.single (.leaf (frames_of_last hf) hk he), rfl⟩

/-- **What opening a frame does.** -/
theorem openRule_spec {rule cookie : ℕ} (h : openRule env rule b = some (cookie, b')) :
    ∃ (f : Frame) (n : Node), n.kind = .internal ∧ n.flags = 0 ∧ n.span.isEmpty = true ∧
      f.id = b.arena.length ∧ b'.finished = b.finished ∧ b'.childIndex.v = b.childIndex.v ∧
      b'.arena = b.arena ++ [n] ∧ b'.openFrames.v = b.openFrames.v ++ [f] ∧
      (b.openFrames.v.getLast? = none ∧ n.parent = 0 ∧
          b'.pendingChildren.v = b.pendingChildren.v ∧ f.pendingStart = b.pendingChildren.v.length ∨
        ∃ g, b.openFrames.v.getLast? = some g ∧ n.parent = g.id ∧
          b'.pendingChildren.v = b.pendingChildren.v ++ [b.arena.length] ∧
          f.pendingStart = b.pendingChildren.v.length + 1) := by
  obtain ⟨c, b₁, hv, h⟩ := bind_eq_some h
  cases hv
  obtain ⟨opener, b₁, h₁, h⟩ := bind_eq_some h
  have hopener : opener.isEmpty = true ∧ b₁ = b := by
    cases hlast : b.visible.topFramePendingChildren.getLast? with
    | none =>
      simp only [openerSpan, hlast] at h₁
      cases h₁
      exact ⟨by simp [SourceSpan.empty, SourceSpan.isEmpty], rfl⟩
    | some last =>
      simp only [openerSpan, hlast] at h₁
      obtain ⟨m, b₂, h₂, h₁⟩ := bind_eq_some h₁
      cases h₁
      unfold nodeAt at h₂
      split at h₂
      · cases h₂
      · obtain ⟨n, -, hn⟩ := Option.map_eq_some_iff.mp h₂
        cases hn
        exact ⟨by simp [SourceSpan.empty, SourceSpan.isEmpty], rfl⟩
  obtain ⟨hempty, rfl⟩ := hopener
  obtain ⟨id, b₂, h₂, h⟩ := bind_eq_some h
  obtain ⟨ck, b₃, h₃, h⟩ := bind_eq_some h
  obtain ⟨c', b₄, hv', h⟩ := bind_eq_some h
  cases hv'
  obtain ⟨_, b₅, h₅, h⟩ := bind_eq_some h
  cases h₅
  obtain ⟨_, b₆, h₆, h⟩ := bind_eq_some h
  cases h
  obtain ⟨w, -, hw⟩ := Option.map_eq_some_iff.mp h₆
  cases hw
  have hmint : b₃.arena = b₂.arena ∧ b₃.childIndex = b₂.childIndex ∧
      b₃.pendingChildren = b₂.pendingChildren ∧ b₃.openFrames = b₂.openFrames ∧
      b₃.finished = b₂.finished := by
    unfold mintCookie at h₃
    split at h₃
    · cases h₃
    · cases h₃
      exact ⟨rfl, rfl, rfl, rfl, rfl⟩
  obtain ⟨m₁, m₂, m₃, m₄, m₅⟩ := hmint
  cases hl : b₁.openFrames.v.getLast? with
  | none =>
    have hl' : b₁.visible.openFrames.getLast? = none := hl
    simp only [emitOpened, hl'] at h₂
    cases h₂
    refine ⟨⟨b₁.arena.length, rule, opener, b₃.pendingChildren.v.length, cookie,
      b₃.scopes.v.length⟩,
      { kind := .internal, rule := rule, span := opener }, rfl, rfl, hempty, rfl, m₅, ?_, m₁,
      ?_, .inl ⟨rfl, rfl, ?_, ?_⟩⟩
    · exact congrArg TrailedStack.v m₂
    · show b₃.openFrames.v ++ _ = _
      rw [m₄]
      rfl
    · exact congrArg TrailedStack.v m₃
    · show b₃.pendingChildren.v.length = _
      rw [m₃]
  | some g =>
    have hl' : b₁.visible.openFrames.getLast? = some g := hl
    simp only [emitOpened, hl'] at h₂
    obtain ⟨id', b₇, h₇, h₂⟩ := bind_eq_some h₂
    cases h₇
    obtain ⟨_, b₈, h₈, h₂⟩ := bind_eq_some h₂
    cases h₈
    cases h₂
    refine ⟨⟨b₁.arena.length, rule, opener, b₃.pendingChildren.v.length, cookie,
      b₃.scopes.v.length⟩,
      { kind := .internal, rule := rule, span := opener, parent := g.id }, rfl, rfl, hempty,
      rfl, m₅, ?_, m₁, ?_, .inr ⟨g, rfl, rfl, ?_, ?_⟩⟩
    · exact congrArg TrailedStack.v m₂
    · show b₃.openFrames.v ++ _ = _
      rw [m₄]
      rfl
    · exact congrArg TrailedStack.v m₃
    · show b₃.pendingChildren.v.length = _
      rw [m₃]
      show (b₁.pendingChildren.push _).v.length = _
      simp [TrailedStack.push]

theorem openFrame_steps {rule cookie : ℕ} (h : openFrame env rule b = some (cookie, b')) :
    TreeSteps b.tree [] b'.tree ∧ b'.finished = b.finished := by
  obtain ⟨c, b₁, hv, h⟩ := bind_eq_some h
  cases hv
  split at h
  · obtain ⟨_, b₁, h₁, h⟩ := bind_eq_some h
    cases h
    obtain ⟨ht, hfin⟩ := still_addBuilderInvariant _ _ _ _ _ h₁
    exact ⟨ht ▸ .refl _, hfin⟩
  · obtain ⟨f, n, hk, hflags, hs, hid, hfin, hci, ha, hfr, hcase⟩ := openRule_spec h
    refine ⟨.single ?_, hfin⟩
    have htree : b'.tree = ⟨b.arena ++ [n], b.childIndex.v, b'.pendingChildren.v,
        f :: b.tree.frames⟩ := by
      simp [TreeBuilder.tree, ha, hci, hfr]
    rw [htree]
    rcases hcase with ⟨hl, hpar, hp, hst⟩ | ⟨g, hl, hpar, hp, hst⟩
    · rw [hp, frames_of_none hl]
      exact .openRoot (frames_of_none hl) hk hflags hs hpar hid hst
    · rw [hp, frames_of_last hl]
      exact .openNested (frames_of_last hl) hk hflags hs hpar hid hst

/-- The child moves under the frame on top, which starts where the child does. -/
theorem adoptChild_spec {child : ℕ} {f : Frame} {fs : List Frame} {a : Unit}
    (hfr : b.openFrames.v = fs ++ [f]) (h : adoptChild child b = some (a, b')) :
    ∃ m w, b.arena[child]? = some m ∧
      (b.arena.set child { m with parent := f.id })[f.id]? = some w ∧
      b'.arena = (b.arena.set child { m with parent := f.id }).set f.id
        { w with span := .empty m.span.start } ∧
      b'.childIndex = b.childIndex ∧ b'.pendingChildren.v = b.pendingChildren.v ++ [child] ∧
      b'.openFrames.v = fs ++ [{ f with openerSpan := .empty m.span.start }] ∧
      b'.finished = b.finished := by
  obtain ⟨c, b₁, hv, h⟩ := bind_eq_some h
  cases hv
  have htop : b.visible.openFrames.getLast? = some f := by
    show b.openFrames.v.getLast? = some f
    rw [hfr]
    simp
  simp only [htop] at h
  obtain ⟨_, b₂, h₂, h⟩ := bind_eq_some h
  cases h₂
  obtain ⟨m, b₃, h₃, h⟩ := bind_eq_some h
  obtain ⟨_, b₄, h₄, h⟩ := bind_eq_some h
  obtain ⟨_, b₅, h₅, h⟩ := bind_eq_some h
  obtain ⟨w, b₆, h₆, h⟩ := bind_eq_some h
  unfold nodeAt at h₃
  split at h₃
  · cases h₃
  obtain ⟨m', hm, heq⟩ := Option.map_eq_some_iff.mp h₃
  cases heq
  unfold writeNode at h₄
  split at h₄
  · cases h₄
  obtain ⟨old, -, heq⟩ := Option.map_eq_some_iff.mp h₄
  cases heq
  obtain ⟨s, hs, heq⟩ := Option.map_eq_some_iff.mp h₅
  cases heq
  have hsv : s.v = fs ++ [{ f with openerSpan := .empty m.span.start }] := by
    have hback : b.openFrames.assignBack { f with openerSpan := .empty m.span.start } = some s := hs
    have := TrailedStack.assignBack_map_v { f with openerSpan := .empty m.span.start } b.openFrames
    rw [hback, hfr] at this
    simpa using this
  unfold nodeAt at h₆
  split at h₆
  · cases h₆
  obtain ⟨w', hw, heq⟩ := Option.map_eq_some_iff.mp h₆
  cases heq
  unfold writeNew at h
  split at h
  · cases h
  cases h
  exact ⟨m, w, hm, hw, rfl, rfl, rfl, hsv, rfl⟩

theorem popPending_spec {child : ℕ} {xs : List ℕ} {a : Unit}
    (hxs : b.pendingChildren.v = xs ++ [child]) (h : popPending b = some (a, b')) :
    b' = { b with pendingChildren := b'.pendingChildren } ∧ b'.pendingChildren.v = xs := by
  obtain ⟨s, hpop, hs⟩ := Option.map_eq_some_iff.mp h
  cases hs
  refine ⟨rfl, ?_⟩
  have := TrailedStack.pop_map_v b.pendingChildren
  rw [hpop, hxs] at this
  simpa using this

/-- The three parts of a wrap are one step of the tree. -/
theorem wrapChild_steps {rule cookie child : ℕ} {parent : Frame} {xs : List ℕ}
    {b₁ b₂ : TreeBuilder} {a₁ a₃ : Unit} (hs : b.tree.Shaped)
    (hl : b.openFrames.v.getLast? = some parent) (hxs : b.pendingChildren.v = xs ++ [child])
    (hne : b.pendingChildren.v.length ≠ parent.pendingStart)
    (h₁ : popPending b = some (a₁, b₁)) (h₂ : openRule env rule b₁ = some (cookie, b₂))
    (h₃ : adoptChild child b₂ = some (a₃, b')) :
    TreeSteps b.tree [] b'.tree ∧ b'.finished = b.finished := by
  obtain ⟨hb₁, hpend⟩ := popPending_spec hxs h₁
  rw [hb₁] at h₂
  obtain ⟨f, n, hk, hflags, hspan, hid, hfin, hci, ha, hfr, hcase⟩ := openRule_spec h₂
  simp only [hpend] at hid hfin hci ha hfr hcase
  obtain ⟨hpar, hp, hst⟩ : n.parent = parent.id ∧ b₂.pendingChildren.v = xs ++ [b.arena.length] ∧
      f.pendingStart = xs.length + 1 := by
    rcases hcase with ⟨hnone, -, -⟩ | ⟨g, hg, hpar, hp, hst⟩
    · exact absurd (hl.symm.trans hnone) (by simp)
    · obtain rfl : parent = g := Option.some_inj.mp (hl.symm.trans hg)
      exact ⟨hpar, hp, hst⟩
  obtain ⟨m, w, hm, hw, harena, hci', hp', hfr', hfin'⟩ := adoptChild_spec hfr h₃
  obtain ⟨-, hclt⟩ := hs.pending_lt (x := child) (by
    show child ∈ b.pendingChildren.v
    rw [hxs]
    simp)
  have hclt : child < b.arena.length := hclt
  have hstart : parent.pendingStart ≤ xs.length := by
    have hle := (hs.top (frames_of_last hl)).1
    have hle : parent.pendingStart ≤ b.pendingChildren.v.length := hle
    rw [hxs, List.length_append, List.length_singleton] at hle hne
    omega
  have hm : m = b.tree.node child := by
    rw [ha, List.getElem?_append_left hclt] at hm
    show m = b.arena.getD child {}
    rw [List.getD_eq_getElem?_getD, hm]
    rfl
  subst hm
  have hset : (b.arena ++ [n]).set child { b.tree.node child with parent := f.id } =
      b.arena.set child { b.tree.node child with parent := f.id } ++ [n] :=
    List.set_append_left _ _ hclt
  have hw : w = n := by
    rw [ha, hset, hid, List.getElem?_append_right (by simp)] at hw
    simpa using hw.symm
  subst hw
  refine ⟨.single ?_, hfin'.trans hfin⟩
  have hstep : TreeStep b.tree [] ⟨_, _, _, _⟩ :=
    .wrap (v := b.tree) (f := { f with openerSpan := .empty (b.tree.node child).span.start })
      (n := { w with span := .empty (b.tree.node child).span.start }) (frames_of_last hl) hxs
      hstart hk hflags (by simp [SourceSpan.empty, SourceSpan.isEmpty]) hpar hid hst
  have htree : b'.tree =
      ⟨(b.arena.set child { b.tree.node child with parent := b.arena.length }) ++
        [{ w with span := .empty (b.tree.node child).span.start }], b.childIndex.v,
        xs ++ [b.arena.length, child],
        { f with openerSpan := .empty (b.tree.node child).span.start } :: b.tree.frames⟩ := by
    have harena' : b'.arena =
        (b.arena.set child { b.tree.node child with parent := b.arena.length }) ++
          [{ w with span := .empty (b.tree.node child).span.start }] := by
      rw [harena, ha, hset, hid, List.set_append_right _ _ (by simp)]
      simp
    simp [TreeBuilder.tree, harena', hci', hci, hp', hp, hfr']
  rw [← frames_of_last hl] at hstep
  exact htree ▸ hstep

theorem wrapLastChildInFrame_steps {rule cookie : ℕ} (hs : b.tree.Shaped)
    (h : wrapLastChildInFrame env rule b = some (cookie, b')) :
    TreeSteps b.tree [] b'.tree ∧ b'.finished = b.finished := by
  have hstill : ∀ (actual : String), (do
      addBuilderInvariant env actual (.empty 0)
      pure 0 : BuilderM ℕ) b = some (cookie, b') →
      TreeSteps b.tree [] b'.tree ∧ b'.finished = b.finished := by
    intro actual h
    obtain ⟨_, b₁, h₁, h⟩ := bind_eq_some h
    cases h
    obtain ⟨ht, hfin⟩ := still_addBuilderInvariant _ _ _ _ _ h₁
    exact ⟨ht ▸ .refl _, hfin⟩
  obtain ⟨c, b₁, hv, h⟩ := bind_eq_some h
  cases hv
  split at h
  · exact hstill _ h
  cases hl : b.openFrames.v.getLast? with
  | none =>
    have hl' : b.visible.openFrames.getLast? = none := hl
    simp only [hl'] at h
    exact hstill _ h
  | some parent =>
    have hl' : b.visible.openFrames.getLast? = some parent := hl
    simp only [hl'] at h
    split at h
    · exact hstill _ h
    rename_i hne
    cases hc : b.pendingChildren.v.getLast? with
    | none =>
      have hc' : b.visible.pendingChildren.getLast? = none := hc
      simp only [hc'] at h
      cases h
    | some child =>
      have hc' : b.visible.pendingChildren.getLast? = some child := hc
      simp only [hc'] at h
      obtain ⟨xs, hxs⟩ := List.getLast?_eq_some_iff.mp hc
      obtain ⟨_, b₁, h₁, h⟩ := bind_eq_some h
      obtain ⟨ck, b₂, h₂, h⟩ := bind_eq_some h
      obtain ⟨_, b₃, h₃, h⟩ := bind_eq_some h
      cases h
      exact wrapChild_steps hs hl hxs hne h₁ h₂ h₃

theorem takeNode_cons (node : Node) (n : Node) (ns : List Node) :
    takeNode node (n :: ns) = takeNode (takeNode node [n]) ns := rfl

theorem foldlM_takeChild {id : ℕ} : ∀ (l : List ℕ) (node node' : Node) (b b' : TreeBuilder),
    (∀ c ∈ l, c ≠ id) → l.foldlM (takeChild id) node b = some (node', b') →
    node' = takeNode node (l.map b.tree.node) ∧ b'.arena = b.arena ∧
      b'.childIndex.v = b.childIndex.v ++ l ∧ b'.pendingChildren = b.pendingChildren ∧
      b'.openFrames = b.openFrames ∧ b'.finished = b.finished := by
  intro l
  induction l with
  | nil =>
    intro node node' b b' _ h
    cases h
    exact ⟨rfl, rfl, by simp, rfl, rfl, rfl⟩
  | cons c l ih =>
    intro node node' b b' hne h
    rw [List.foldlM_cons] at h
    obtain ⟨node₁, b₁, h₁, h⟩ := bind_eq_some h
    obtain ⟨_, b₂, h₂, h₁⟩ := bind_eq_some h₁
    cases h₂
    obtain ⟨n, b₃, h₃, h₁⟩ := bind_eq_some h₁
    cases h₁
    unfold readChild at h₃
    rw [if_neg (hne c (List.mem_cons_self ..))] at h₃
    unfold nodeAt at h₃
    split at h₃
    · cases h₃
    obtain ⟨n', hn', heq⟩ := Option.map_eq_some_iff.mp h₃
    cases heq
    have hn : b.tree.node c = n := by
      have hn' : b.arena[c]? = some n := hn'
      show b.arena.getD c {} = n
      rw [List.getD_eq_getElem?_getD, hn']
      rfl
    obtain ⟨hnode, ha, hci, hp, hf, hfin⟩ := ih _ _ _ _
      (fun x hx => hne x (List.mem_cons_of_mem _ hx)) h
    refine ⟨?_, ha, ?_, hp, hf, hfin⟩
    · rw [hnode, List.map_cons, takeNode_cons, hn]
      rfl
    · rw [hci]
      show (b.childIndex.push c).v ++ l = _
      simp [TrailedStack.push]

theorem closeTop_steps {cookie : ℕ} {r : Bool} (hs : b.tree.Shaped)
    (h : closeTop env cookie b = some (r, b')) :
    TreeSteps b.tree [] b'.tree ∧ b'.finished = b.finished ∧
      b'.openFrames.v = b.openFrames.v.dropLast ∧
      ∀ fr, b.openFrames.v.getLast? = some fr → r = decide (fr.cookie = cookie) := by
  obtain ⟨c, b₁, hv, h⟩ := bind_eq_some h
  cases hv
  cases hl : b.openFrames.v.getLast? with
  | none =>
    have hl' : b.visible.openFrames.getLast? = none := hl
    simp only [hl'] at h
    cases h
  | some fr =>
    have hl' : b.visible.openFrames.getLast? = some fr := hl
    simp only [hl'] at h
    obtain ⟨hle, hnot, hid0, hidlt⟩ := hs.top (frames_of_last hl)
    obtain ⟨node, b₁, h₁, h⟩ := bind_eq_some h
    unfold nodeAt at h₁
    split at h₁
    · cases h₁
    obtain ⟨node', hnode', heq⟩ := Option.map_eq_some_iff.mp h₁
    cases heq
    have hnode : b.tree.node fr.id = node := by
      have hnode' : b.arena[fr.id]? = some node := hnode'
      show b.arena.getD fr.id {} = node
      rw [List.getD_eq_getElem?_getD, hnode']
      rfl
    obtain ⟨taken, b₂, h₂, h⟩ := bind_eq_some h
    obtain ⟨htaken, ha₂, hci₂, hp₂, hf₂, hfin₂⟩ := foldlM_takeChild _ _ _ _ _
      (fun c hc heq => by subst heq; exact hnot hc) h₂
    obtain ⟨_, b₃, h₃, h⟩ := bind_eq_some h
    obtain ⟨s, hs₃, heq⟩ := Option.map_eq_some_iff.mp h₃
    cases heq
    have hsv : s.v = b.pendingChildren.v.take fr.pendingStart := by
      have := TrailedStack.truncate_map_v fr.pendingStart b₂.pendingChildren
      have hle : fr.pendingStart ≤ b.pendingChildren.v.length := hle
      rw [hs₃, hp₂, if_neg (by omega)] at this
      simpa using this
    obtain ⟨_, b₄, h₄, h⟩ := bind_eq_some h
    unfold writeNode at h₄
    split at h₄
    · cases h₄
    obtain ⟨old, -, heq⟩ := Option.map_eq_some_iff.mp h₄
    cases heq
    obtain ⟨_, b₅, h₅, h⟩ := bind_eq_some h
    obtain ⟨_, b₆, h₆, h⟩ := bind_eq_some h
    obtain ⟨_, b₇, h₇, h⟩ := bind_eq_some h
    obtain ⟨_, b₈, h₈, h⟩ := bind_eq_some h
    obtain ⟨lost, b₉, h₉, h⟩ := bind_eq_some h
    obtain ⟨_, b₁₀, h₁₀, h⟩ := bind_eq_some h
    cases h
    obtain ⟨t₅, f₅⟩ := (Still.doIf _ (still_addBuilderInvariant _ _)) _ _ _ h₅
    obtain ⟨t₆, f₆⟩ := still_popScopes _ _ _ _ h₆
    obtain ⟨t₇, f₇⟩ := (Still.doIf _ (still_insertCookie _)) _ _ _ h₇
    obtain ⟨s', hs', heq⟩ := Option.map_eq_some_iff.mp h₈
    cases heq
    obtain ⟨t₉, f₉⟩ := still_walkerLeave _ _ _ h₉
    obtain ⟨t₁₀, f₁₀⟩ := still_reportDesync _ _ _ _ _ _ h₁₀
    have t : b₇.tree = _ := t₇.trans (t₆.trans t₅)
    have f : b₇.finished = _ := f₇.trans (f₆.trans f₅)
    have hopen : b₇.openFrames.v.reverse = b.openFrames.v.reverse := by
      have := congrArg TreeView.frames t
      refine this.trans ?_
      show b₂.openFrames.v.reverse = _
      rw [hf₂]
    have hs'v : s'.v = b.openFrames.v.dropLast := by
      have := TrailedStack.pop_map_v b₇.openFrames
      rw [hs', List.reverse_inj.mp hopen, hl] at this
      simpa using this
    have hopen' : b'.openFrames.v = s'.v :=
      List.reverse_inj.mp (congrArg TreeView.frames (t₁₀.trans t₉))
    have hlast : ∀ fr', some fr = some fr' → decide (fr.cookie = cookie) =
        decide (fr'.cookie = cookie) := by
      rintro fr' ⟨⟩
      rfl
    refine ⟨?_, (f₁₀.trans f₉).trans (f.trans hfin₂), hopen'.trans hs'v, hlast⟩
    have hstep := TreeStep.close (v := b.tree) (frames_of_last hl)
    refine .single ?_
    rw [t₁₀, t₉]
    have harena : b₇.arena = b.arena.set fr.id { takeNode (b.tree.node fr.id)
        ((b.tree.pending.drop fr.pendingStart).map b.tree.node) with
        firstChild := b.childIndex.v.length
        childCount := b.pendingChildren.v.length - fr.pendingStart } := by
      refine (congrArg TreeView.arena t).trans ?_
      show b₂.arena.set fr.id _ = _
      rw [ha₂, htaken, hnode]
      rfl
    have hci : b₇.childIndex.v = b.childIndex.v ++ b.pendingChildren.v.drop fr.pendingStart :=
      (congrArg TreeView.childIndex t).trans hci₂
    have hp : b₇.pendingChildren.v = b.pendingChildren.v.take fr.pendingStart :=
      (congrArg TreeView.pending t).trans hsv
    show TreeStep b.tree [] ⟨b₇.arena, b₇.childIndex.v, b₇.pendingChildren.v, s'.v.reverse⟩
    rw [harena, hci, hp, hs'v]
    exact hstep

theorem closeUntil_steps {cookie fuel : ℕ} {a : Unit} (hs : b.tree.Shaped)
    (h : closeUntil env cookie fuel b = some (a, b')) :
    TreeSteps b.tree [] b'.tree ∧ b'.finished = b.finished := by
  induction fuel generalizing b with
  | zero => cases h
  | succ fuel ih =>
    obtain ⟨r, b₁, h₁, h⟩ := bind_eq_some h
    obtain ⟨ht, hfin, -⟩ := closeTop_steps hs h₁
    obtain ⟨c, b₂, hv, h⟩ := bind_eq_some h
    cases hv
    split at h
    · cases h
      exact ⟨ht, hfin⟩
    · obtain ⟨ht', hfin'⟩ := ih (ht.shaped hs).1 h
      exact ⟨ht.trans ht', hfin'.trans hfin⟩

theorem Still.steps {x : BuilderM α} (hx : Still x) {a : α} (h : x b = some (a, b')) :
    TreeSteps b.tree [] b'.tree ∧ b'.finished = b.finished := by
  obtain ⟨ht, hfin⟩ := hx b a b' h
  exact ⟨ht ▸ .refl _, hfin⟩

theorem closeFrame_steps {cookie : ℕ} {a : Unit} (hs : b.tree.Shaped)
    (h : closeFrame env cookie b = some (a, b')) :
    TreeSteps b.tree [] b'.tree ∧ b'.finished = b.finished := by
  obtain ⟨was, b₁, h₁, h⟩ := bind_eq_some h
  obtain ⟨t₁, f₁⟩ := still_eraseCookie _ _ _ _ h₁
  obtain ⟨c, b₂, hv, h⟩ := bind_eq_some h
  cases hv
  rw [← t₁, ← f₁]
  rw [← t₁] at hs
  cases hl : b₁.visible.openFrames.getLast? with
  | none =>
    simp only [hl] at h
    exact (Still.pure _).steps h
  | some top =>
    simp only [hl] at h
    split at h
    · exact (Still.pure _).steps h
    cases hfind : b₁.visible.openFrames.reverse.find? (·.cookie = cookie) with
    | none =>
      simp only [hfind] at h
      exact ((still_topSpan _ _).bind fun _ => still_addBuilderInvariant _ _).steps h
    | some fr =>
      simp only [hfind] at h
      obtain ⟨_, b₂, h₂, h⟩ := bind_eq_some h
      obtain ⟨t₂, f₂⟩ := (Still.doIf _ (still_addBuilderInvariant _ _)) _ _ _ h₂
      rw [← t₂, ← f₂]
      exact closeUntil_steps (by rw [t₂]; exact hs) h

/-- The range of the leaf that an operation makes in an open frame, if it makes one. -/
def BuilderOp.leaf (env : BuilderEnv) : BuilderOp → List SourceSpan
  | .pushToken tok => if env.source.isSome then [tok.span] else []
  | .pushError span _ _ _ => [span]
  | .pushErrorNode span => [span]
  | _ => []

/-- The range of the leaf that an operation makes, if it makes one: without an open frame it is
dropped. -/
def BuilderOp.leafSpan (env : BuilderEnv) (op : BuilderOp) (b : TreeBuilder) : List SourceSpan :=
  if b.finished || b.openFrames.v.isEmpty then [] else op.leaf env

theorem errorNode_hasError (span : SourceSpan) : (errorNode span).flags.has .hasError = true := by
  show NodeFlags.has .hasError .hasError = true
  decide

theorem leafSpan_idle {op : BuilderOp} (h : b.finished = true ∨ b.openFrames.v = []) :
    op.leafSpan env b = [] := by
  unfold BuilderOp.leafSpan
  rw [if_pos]
  rcases h with h | h <;> simp [h]

theorem leafSpan_open {op : BuilderOp} {fr : Frame} (hfin : ¬ b.finished = true)
    (hl : b.openFrames.v.getLast? = some fr) : op.leafSpan env b = op.leaf env := by
  unfold BuilderOp.leafSpan
  rw [if_neg]
  have hne : b.openFrames.v.isEmpty = false := by
    cases hv : b.openFrames.v with
    | nil => simp [hv] at hl
    | cons _ _ => rfl
  simp [hfin, hne]

theorem pushLeaf_steps {tok : Token} {rule : ℕ} {m : LexemeMeaning} {a : Unit} {fr : Frame}
    (hf : b.openFrames.v.getLast? = some fr) (h : pushLeaf env tok rule m b = some (a, b')) :
    TreeSteps b.tree [tok.span] b'.tree ∧ b'.finished = b.finished := by
  obtain ⟨_, b₁, h₁, h⟩ := bind_eq_some h
  obtain ⟨_, b₂, h₂, h⟩ := bind_eq_some h
  obtain ⟨_, b₃, h₃, h⟩ := bind_eq_some h
  obtain ⟨t₁, f₁⟩ := (Still.doIf _ (still_pushScope _)) _ _ _ h₁
  obtain ⟨t₂, f₂⟩ := (Still.doIf _ still_popScope) _ _ _ h₂
  have t : b₂.tree = b.tree := t₂.trans t₁
  have hf₂ : b₂.openFrames.v.getLast? = some fr := by
    have := List.reverse_inj.mp (congrArg TreeView.frames t)
    rw [this]
    exact hf
  obtain ⟨hst, hfin⟩ := emitAttached_steps hf₂ (by simp) (by simp) h₃
  obtain ⟨t₄, f₄⟩ := (Still.doIf _ (still_walkerAdvance _ |>.bind fun _ =>
    still_reportDesync _ _ _)) _ _ _ h
  rw [t₄, ← t]
  exact ⟨hst, (f₄.trans hfin).trans (f₂.trans f₁)⟩

theorem last_of_tree {b₁ : TreeBuilder} {fr : Frame} (t : b₁.tree = b.tree)
    (hf : b.openFrames.v.getLast? = some fr) : b₁.openFrames.v.getLast? = some fr := by
  rw [List.reverse_inj.mp (congrArg TreeView.frames t)]
  exact hf

theorem pushResolved_steps {tok : Token} {rule buffer : ℕ} {lexeme : String} {d : ParseDiagnostic}
    {p : Bool} {m : LexemeMeaning} {a : Unit} {fr : Frame} (hf : b.openFrames.v.getLast? = some fr)
    (h : (do
      doIf p (emitDiagnostic env d)
      let m' ← demoteContextual env lexeme buffer tok.span rule m
      pushLeaf env tok rule m' : BuilderM Unit) b = some (a, b')) :
    TreeSteps b.tree [tok.span] b'.tree ∧ b'.finished = b.finished := by
  obtain ⟨_, b₂, h₂, h⟩ := bind_eq_some h
  obtain ⟨t₂, f₂⟩ := (Still.doIf _ (still_emitDiagnostic _)) _ _ _ h₂
  obtain ⟨m', b₃, h₃, h⟩ := bind_eq_some h
  obtain ⟨t₃, f₃⟩ := still_demoteContextual _ _ _ _ _ _ _ _ h₃
  have t : b₃.tree = b.tree := t₃.trans t₂
  obtain ⟨hst, hfin⟩ := pushLeaf_steps (last_of_tree t hf) h
  rw [← t]
  exact ⟨hst, hfin.trans (f₃.trans f₂)⟩

theorem pushToken_steps {tok : Token} {a : Unit} (h : pushToken env tok b = some (a, b')) :
    TreeSteps b.tree ((BuilderOp.pushToken tok).leafSpan env b) b'.tree ∧
      b'.finished = b.finished := by
  obtain ⟨c, b₁, hv, h⟩ := bind_eq_some h
  cases hv
  split at h
  · rename_i hfin
    rw [leafSpan_idle (.inl hfin)]
    exact (still_addBuilderInvariant _ _).steps h
  rename_i hfin
  cases hl : b.openFrames.v.getLast? with
  | none =>
    rw [leafSpan_idle (.inr (List.getLast?_eq_none_iff.mp hl))]
    cases hsrc : env.source with
    | none =>
      simp only [hsrc] at h
      exact (still_addBuilderInvariant _ _).steps h
    | some source =>
      have hl' : b.visible.openFrames.getLast? = none := hl
      simp only [hsrc, hl'] at h
      exact (still_addBuilderInvariant _ _).steps h
  | some top =>
    rw [leafSpan_open hfin hl, BuilderOp.leaf]
    cases hsrc : env.source with
    | none =>
      simp only [hsrc] at h
      exact (still_addBuilderInvariant _ _).steps h
    | some source =>
      have hl' : b.visible.openFrames.getLast? = some top := hl
      simp only [hsrc, hl'] at h
      split at h
      · cases h
      cases hres : resolveMeaning env.schema (if tok.flags.has .implied then
          env.schema.endOfInputImplies else source.slice tok.span) b.visible.scopes
          tok.schemaKind with
      | none =>
        simp only [hres] at h
        cases h
      | some resolved =>
        simp only [hres] at h
        split at h
        · exact pushResolved_steps hl h
        split at h
        · obtain ⟨_, b₂, h₂, h⟩ := bind_eq_some h
          obtain ⟨t₂, f₂⟩ := still_emitDiagnostic _ _ _ _ h₂
          obtain ⟨hst, hf⟩ := emitAttached_steps (last_of_tree t₂ hl) (by simp [errorNode])
            (fun _ => errorNode_hasError _) h
          rw [← t₂]
          exact ⟨hst, hf.trans f₂⟩
        · exact pushResolved_steps hl h

theorem pushError_steps {span : SourceSpan} {rule token : Option ℕ} {note : String} {a : Unit}
    (h : pushError env span rule token note b = some (a, b')) :
    TreeSteps b.tree ((BuilderOp.pushError span rule token note).leafSpan env b) b'.tree ∧
      b'.finished = b.finished := by
  obtain ⟨c, b₁, hv, h⟩ := bind_eq_some h
  cases hv
  split at h
  · rename_i hfin
    rw [leafSpan_idle (.inl hfin)]
    exact (still_addBuilderInvariant _ _).steps h
  rename_i hfin
  cases hl : b.openFrames.v.getLast? with
  | none =>
    rw [leafSpan_idle (.inr (List.getLast?_eq_none_iff.mp hl))]
    have hl' : b.visible.openFrames.getLast? = none := hl
    simp only [hl'] at h
    exact (still_addBuilderInvariant _ _).steps h
  | some top =>
    rw [leafSpan_open hfin hl]
    have hl' : b.visible.openFrames.getLast? = some top := hl
    simp only [hl'] at h
    obtain ⟨_, b₂, h₂, h⟩ := bind_eq_some h
    obtain ⟨t₂, f₂⟩ := still_emitDiagnostic _ _ _ _ h₂
    obtain ⟨hst, hf⟩ := emitAttached_steps (last_of_tree t₂ hl) (by simp [errorNode])
      (fun _ => errorNode_hasError _) h
    rw [← t₂]
    exact ⟨hst, hf.trans f₂⟩

theorem pushErrorNode_steps {span : SourceSpan} {a : Unit}
    (h : pushErrorNode env span b = some (a, b')) :
    TreeSteps b.tree ((BuilderOp.pushErrorNode span).leafSpan env b) b'.tree ∧
      b'.finished = b.finished := by
  obtain ⟨c, b₁, hv, h⟩ := bind_eq_some h
  cases hv
  split at h
  · rename_i hfin
    rw [leafSpan_idle (.inl hfin)]
    exact (still_addBuilderInvariant _ _).steps h
  rename_i hfin
  cases hl : b.openFrames.v.getLast? with
  | none =>
    rw [leafSpan_idle (.inr (List.getLast?_eq_none_iff.mp hl))]
    have hl' : b.visible.openFrames.getLast? = none := hl
    simp only [hl'] at h
    exact (still_addBuilderInvariant _ _).steps h
  | some top =>
    rw [leafSpan_open hfin hl]
    have hl' : b.visible.openFrames.getLast? = some top := hl
    simp only [hl'] at h
    exact emitAttached_steps hl (by simp [errorNode]) (fun _ => errorNode_hasError _) h

theorem leafSpan_none {op : BuilderOp} (h : ∀ fr, b.openFrames.v.getLast? = some fr →
    ¬ b.finished = true → op.leafSpan env b = []) : op.leafSpan env b = [] := by
  by_cases hfin : b.finished = true
  · exact leafSpan_idle (.inl hfin)
  cases hl : b.openFrames.v.getLast? with
  | none => exact leafSpan_idle (.inr (List.getLast?_eq_none_iff.mp hl))
  | some fr => exact h fr hl hfin

/-- **Every operation is a row of tree steps**, and makes the leaf it says. -/
theorem BuilderOp.steps {op : BuilderOp} {a : Unit} (hs : b.tree.Shaped)
    (h : op.run env b = some (a, b')) :
    TreeSteps b.tree (op.leafSpan env b) b'.tree ∧ b'.finished = b.finished := by
  cases op with
  | openFrame rule =>
    rw [leafSpan_none fun fr hl hfin => leafSpan_open hfin hl]
    obtain ⟨ck, b₁, h₁, h⟩ := bind_eq_some h
    cases h
    exact openFrame_steps h₁
  | closeFrame cookie =>
    rw [leafSpan_none fun fr hl hfin => leafSpan_open hfin hl]
    exact closeFrame_steps hs h
  | wrapLastChildInFrame rule =>
    rw [leafSpan_none fun fr hl hfin => leafSpan_open hfin hl]
    obtain ⟨ck, b₁, h₁, h⟩ := bind_eq_some h
    cases h
    exact wrapLastChildInFrame_steps hs h₁
  | pushToken tok => exact pushToken_steps h
  | pushError span rule token note => exact pushError_steps h
  | pushErrorNode span => exact pushErrorNode_steps h
  | pushScope kind =>
    rw [leafSpan_none fun fr hl hfin => leafSpan_open hfin hl]
    exact (still_pushScope kind).steps h
  | popScope =>
    rw [leafSpan_none fun fr hl hfin => leafSpan_open hfin hl]
    exact still_popScope.steps h
  | reportDiagnostic d =>
    rw [leafSpan_none fun fr hl hfin => leafSpan_open hfin hl]
    exact (still_reportDiagnostic d).steps h
  | ingestDiagnostics diags =>
    rw [leafSpan_none fun fr hl hfin => leafSpan_open hfin hl]
    exact (still_ingestDiagnostics diags).steps h

end

end DssPrime.Parse
