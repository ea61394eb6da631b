import DssPrime.Parse.ReporterRollback
import DssPrime.Parse.TreeBuilder

/-!
# What operations of the builder keep

Two things that every operation of the tree builder does at once (`Good`).  It keeps the builder
able to go back to any state it may have to go back to (`TreeBuilder.Since`, step by step `Steps`),
and what it does to the builder as it can be seen does not depend on the trails or on the
checkpoints (`Blind`).  Both are proved of the single steps and compose.  The one write to a node
that is not recorded is to a node that was just added (`good_wrapChild`).
-/

namespace DssPrime.Parse

/-- The depths of the walker are right. -/
structure Walker.Ok (w : Walker) : Prop where
  frames : ∀ i fr, w.frames.v[i]? = some fr →
    fr.wrapsAtAndBelow = (w.frames.v.take (i + 1)).countP (·.isWrap)
  wrapDepth : w.wrapDepth = w.frames.v.countP (·.isWrap)

/-- What every operation keeps. -/
structure TreeBuilder.Ok (env : BuilderEnv) (b : TreeBuilder) : Prop where
  reporter : Reporter.Ok env.reporter b.reporter
  walker : b.walker.Ok
  marks : b.walker.liveMarks = b.checkpointStack.length
  sentinel : 0 < b.arena.length
  ids : ∀ e ∈ b.checkpointStack, e.1 < b.nextCheckpointId
  nextId : 0 < b.nextCheckpointId

def TreeBuilder.snapshot (b : TreeBuilder) : CheckpointSnapshot where
  nodesSize := b.arena.length
  childIndex := b.childIndex.markOf
  pendingChildren := b.pendingChildren.markOf
  openFrames := b.openFrames.markOf
  scopes := b.scopes.markOf
  closedCookies := b.closedCookies.journal.length
  nodeWrites := b.nodeWrites.journal.length
  walker := ⟨b.walker.frames.markOf, b.walker.cursor, b.walker.wrapDepth, b.walker.cursorDesynced⟩
  nextCookie := b.nextCookie
  maxSpeculationDepthReached := b.maxSpeculationDepthReached
  reporterSnap := b.reporter.snapshotForRollback

/-- The builder can go back to an earlier state, whose checkpoint is still live. -/
structure TreeBuilder.Since (b₀ b : TreeBuilder) : Prop where
  arena : ArenaSince b₀.arena b₀.nodeWrites b.arena b.nodeWrites
  childIndex : b₀.childIndex.Since b.childIndex
  pendingChildren : b₀.pendingChildren.Since b.pendingChildren
  openFrames : b₀.openFrames.Since b.openFrames
  scopes : b₀.scopes.Since b.scopes
  walkerFrames : b₀.walker.frames.Since b.walker.frames
  closedCookies : b₀.closedCookies.Since b.closedCookies
  reporter : b₀.reporter.Since b.reporter
  finished : b.finished = b₀.finished
  /-- The checkpoint is live, and those inside it are younger. -/
  stack : ∃ rest, b.checkpointStack =
      b₀.checkpointStack ++ (b₀.nextCheckpointId, b₀.snapshot) :: rest ∧
    ∀ e ∈ rest, b₀.arena.length ≤ e.2.nodesSize

/-- One step: what holds still holds, the checkpoints stay, and an earlier state with no more than
`n` nodes can still be gone back to. -/
structure StepsBelow (env : BuilderEnv) (n : ℕ) (b b' : TreeBuilder) : Prop where
  ok : b.Ok env → b'.Ok env
  stack : b'.checkpointStack = b.checkpointStack
  nextId : b'.nextCheckpointId = b.nextCheckpointId
  grown : b.arena.length ≤ b'.arena.length
  /-- Earlier states can still be gone back to. -/
  since : ∀ b₀ : TreeBuilder, b₀.arena.length ≤ n → b₀.Since b → b₀.Since b'

def Steps (env : BuilderEnv) (b b' : TreeBuilder) : Prop := ∀ n, StepsBelow env n b b'

section

variable {env : BuilderEnv} {n : ℕ} {b b' b'' : TreeBuilder} {α β : Type}

theorem StepsBelow.refl (env : BuilderEnv) (n : ℕ) (b : TreeBuilder) : StepsBelow env n b b :=
  ⟨fun h => h, rfl, rfl, le_rfl, fun _ _ h => h⟩

theorem StepsBelow.trans (h : StepsBelow env n b b') (h' : StepsBelow env n b' b'') :
    StepsBelow env n b b'' :=
  ⟨fun hok => h'.ok (h.ok hok), h'.stack.trans h.stack, h'.nextId.trans h.nextId,
    h.grown.trans h'.grown, fun b₀ hn hs => h'.since b₀ hn (h.since b₀ hn hs)⟩

/-- A part of an operation whose effect does not depend on the trails or on the checkpoints. -/
def Blind (x : BuilderM α) : Prop :=
  ∀ b c : TreeBuilder, b.visible = c.visible →
    (x b).map (Prod.map id TreeBuilder.visible) = (x c).map (Prod.map id TreeBuilder.visible)

/-- A part of an operation that keeps what speculation needs. -/
structure Good (env : BuilderEnv) (x : BuilderM α) : Prop where
  steps : ∀ b a b', x b = some (a, b') → Steps env b b'
  blind : Blind x

theorem bind_eq_some {x : BuilderM α} {f : α → BuilderM β} {r : β × TreeBuilder}
    (h : (x >>= f) b = some r) : ∃ a b', x b = some (a, b') ∧ f a b' = some r := by
  obtain ⟨p, hp, hr⟩ := Option.bind_eq_some_iff.mp h
  exact ⟨p.1, p.2, hp, hr⟩

theorem Blind.bind {x : BuilderM α} {f : α → BuilderM β} (hx : Blind x) (hf : ∀ a, Blind (f a)) :
    Blind (x >>= f) := by
  intro b c hbc
  have hxbc := hx b c hbc
  show ((x b).bind fun p => f p.1 p.2).map _ = ((x c).bind fun p => f p.1 p.2).map _
  cases hb : x b with
  | none =>
    rw [hb] at hxbc
    cases hc : x c with
    | none => rfl
    | some q =>
      rw [hc] at hxbc
      cases hxbc
  | some p =>
    rw [hb] at hxbc
    cases hc : x c with
    | none =>
      rw [hc] at hxbc
      cases hxbc
    | some q =>
      rw [hc] at hxbc
      have heq := Option.some_inj.mp hxbc
      have h₁ : p.1 = q.1 := congrArg (fun z : α × Visible => z.1) heq
      have h₂ : p.2.visible = q.2.visible := congrArg (fun z : α × Visible => z.2) heq
      show (f p.1 p.2).map _ = (f q.1 q.2).map _
      rw [h₁]
      exact hf q.1 p.2 q.2 h₂

theorem Good.bind {x : BuilderM α} {f : α → BuilderM β} (hx : Good env x)
    (hf : ∀ a, Good env (f a)) : Good env (x >>= f) := by
  refine ⟨fun b r b' h => ?_, hx.blind.bind fun a => (hf a).blind⟩
  obtain ⟨a, b₁, h₁, h₂⟩ := bind_eq_some h
  exact fun n => (hx.steps b a b₁ h₁ n).trans ((hf a).steps b₁ r b' h₂ n)

theorem Good.pure (a : α) : Good env (Pure.pure a : BuilderM α) := by
  refine ⟨fun b r b' h => ?_, fun b c hbc => ?_⟩
  · cases h
    exact fun n => .refl env n b
  · exact congrArg (fun v => some (a, v)) hbc

theorem good_fatal : Good env (fatal : BuilderM α) := by
  refine ⟨fun b r b' h => ?_, fun b c hbc => rfl⟩
  cases h

theorem good_view : Good env view := by
  refine ⟨fun b r b' h => ?_, fun b c hbc => ?_⟩
  · cases h
    exact fun n => .refl env n b
  · exact congrArg (fun v => some (v, v)) hbc

theorem Good.ite {p : Prop} [Decidable p] {x y : BuilderM α} (hx : p → Good env x)
    (hy : ¬ p → Good env y) : Good env (if p then x else y) := by
  by_cases hp : p
  · rw [if_pos hp]
    exact hx hp
  · rw [if_neg hp]
    exact hy hp

theorem Good.doIf {x : BuilderM Unit} (p : Bool) (hx : Good env x) : Good env (Parse.doIf p x) :=
  .ite (fun _ => hx) fun _ => .pure _

theorem Good.foldlM {f : β → α → BuilderM β} (hf : ∀ s a, Good env (f s a)) (l : List α) (s : β) :
    Good env (l.foldlM f s) := by
  induction l generalizing s with
  | nil => exact .pure s
  | cons a l ih =>
    rw [List.foldlM_cons]
    exact (hf s a).bind ih

theorem Good.forM {f : α → BuilderM PUnit} (hf : ∀ a, Good env (f a)) (l : List α) :
    Good env (l.forM f) := by
  induction l with
  | nil => exact .pure _
  | cons a l ih =>
    show Good env (f a >>= fun _ => l.forM f)
    exact (hf a).bind fun _ => ih

theorem blind_of {x : BuilderM α} (F : Visible → Option (α × Visible))
    (h : ∀ b, (x b).map (Prod.map id TreeBuilder.visible) = F b.visible) : Blind x := by
  intro b c hbc
  rw [h, h, hbc]

theorem map_values {s : Option (TrailedStack β)} {v : Option (List β)}
    (h : s.map TrailedStack.v = v) {f : TrailedStack β → α × TreeBuilder} {g : List β → α × Visible}
    (hfg : ∀ s, Prod.map id TreeBuilder.visible (f s) = g s.v) :
    (s.map f).map (Prod.map id TreeBuilder.visible) = v.map g := by
  subst h
  cases s with
  | none => rfl
  | some s => exact congrArg some (hfg s)

theorem steps_of_since (harena : b'.arena = b.arena) (hwalker : b'.walker = b.walker)
    (hstack : b'.checkpointStack = b.checkpointStack)
    (hnext : b'.nextCheckpointId = b.nextCheckpointId) (hreporter : b'.reporter = b.reporter)
    (hsince : ∀ b₀ : TreeBuilder, b₀.Since b → b₀.Since b') : Steps env b b' := by
  refine fun n => ⟨fun hok => ⟨?_, ?_, ?_, ?_, ?_, ?_⟩, hstack, hnext, ?_, fun b₀ _ => hsince b₀⟩
  · rw [hreporter]
    exact hok.reporter
  · rw [hwalker]
    exact hok.walker
  · rw [hwalker, hstack]
    exact hok.marks
  · rw [harena]
    exact hok.sentinel
  · rw [hstack, hnext]
    exact hok.ids
  · rw [hnext]
    exact hok.nextId
  · rw [harena]

theorem steps_childIndex {s : TrailedStack ℕ}
    (h : ∀ s₀ : TrailedStack ℕ, s₀.Since b.childIndex → s₀.Since s) :
    Steps env b { b with childIndex := s } :=
  steps_of_since rfl rfl rfl rfl rfl fun _ hs => { hs with childIndex := h _ hs.childIndex }

theorem steps_pending {s : TrailedStack ℕ}
    (h : ∀ s₀ : TrailedStack ℕ, s₀.Since b.pendingChildren → s₀.Since s) :
    Steps env b { b with pendingChildren := s } :=
  steps_of_since rfl rfl rfl rfl rfl fun _ hs =>
    { hs with pendingChildren := h _ hs.pendingChildren }

theorem steps_openFrames {s : TrailedStack Frame}
    (h : ∀ s₀ : TrailedStack Frame, s₀.Since b.openFrames → s₀.Since s) :
    Steps env b { b with openFrames := s } :=
  steps_of_since rfl rfl rfl rfl rfl fun _ hs => { hs with openFrames := h _ hs.openFrames }

theorem steps_scopes {s : TrailedStack ScopeKind}
    (h : ∀ s₀ : TrailedStack ScopeKind, s₀.Since b.scopes → s₀.Since s) :
    Steps env b { b with scopes := s } :=
  steps_of_since rfl rfl rfl rfl rfl fun _ hs => { hs with scopes := h _ hs.scopes }

theorem steps_closedCookies {t : TrailedSet ℕ}
    (h : ∀ t₀ : TrailedSet ℕ, t₀.Since b.closedCookies → t₀.Since t) :
    Steps env b { b with closedCookies := t } :=
  steps_of_since rfl rfl rfl rfl rfl fun _ hs => { hs with closedCookies := h _ hs.closedCookies }

theorem steps_reporter {r : Reporter} {d : ParseDiagnostic}
    (h : b.reporter.report env.reporter d = some r) : Steps env b { b with reporter := r } :=
  fun _ =>
  ⟨fun hok => ⟨hok.reporter.report h, hok.walker, hok.marks, hok.sentinel, hok.ids, hok.nextId⟩,
    rfl, rfl, le_rfl, fun _ _ hs => { hs with reporter := hs.reporter.report h }⟩

theorem good_pushChildIndex (id : ℕ) : Good env (pushChildIndex id) := by
  refine ⟨fun b a b' h => ?_, blind_of (fun c => some ((), { c with
    childIndex := c.childIndex ++ [id] })) fun b => rfl⟩
  cases h
  exact steps_childIndex fun s₀ hs => hs.push id

theorem good_pushPending (id : ℕ) : Good env (pushPending id) := by
  refine ⟨fun b a b' h => ?_, blind_of (fun c => some ((), { c with
    pendingChildren := c.pendingChildren ++ [id] })) fun b => rfl⟩
  cases h
  exact steps_pending fun s₀ hs => hs.push id

theorem good_popPending : Good env popPending := by
  refine ⟨fun b a b' h => ?_, blind_of (fun c => (c.pendingChildren.getLast?.map fun _ =>
    c.pendingChildren.dropLast).map fun v => ((), { c with pendingChildren := v })) fun b =>
      map_values (TrailedStack.pop_map_v _) fun s => rfl⟩
  obtain ⟨s, hs, heq⟩ := Option.map_eq_some_iff.mp h
  cases heq
  exact steps_pending fun s₀ h₀ => h₀.pop hs

theorem good_truncatePending (n : ℕ) : Good env (truncatePending n) := by
  refine ⟨fun b a b' h => ?_, blind_of (fun c => (if c.pendingChildren.length < n then none
    else some (c.pendingChildren.take n)).map
      fun v => ((), { c with pendingChildren := v })) fun b =>
      map_values (TrailedStack.truncate_map_v n _) fun s => rfl⟩
  obtain ⟨s, hs, heq⟩ := Option.map_eq_some_iff.mp h
  cases heq
  exact steps_pending fun s₀ h₀ => h₀.truncate hs

theorem good_pushFrame (fr : Frame) : Good env (pushFrame fr) := by
  refine ⟨fun b a b' h => ?_, blind_of (fun c => some ((), { c with
    openFrames := c.openFrames ++ [fr] })) fun b => rfl⟩
  cases h
  exact steps_openFrames fun s₀ hs => hs.push fr

theorem good_popFrame : Good env popFrame := by
  refine ⟨fun b a b' h => ?_, blind_of (fun c => (c.openFrames.getLast?.map fun _ =>
    c.openFrames.dropLast).map fun v => ((), { c with openFrames := v })) fun b =>
      map_values (TrailedStack.pop_map_v _) fun s => rfl⟩
  obtain ⟨s, hs, heq⟩ := Option.map_eq_some_iff.mp h
  cases heq
  exact steps_openFrames fun s₀ h₀ => h₀.pop hs

theorem good_assignFrame (fr : Frame) : Good env (assignFrame fr) := by
  refine ⟨fun b a b' h => ?_, blind_of (fun c => (if c.openFrames = [] then none
    else (c.openFrames[c.openFrames.length - 1]?).map fun _ =>
      c.openFrames.set (c.openFrames.length - 1) fr).map fun v => ((), { c with openFrames := v }))
      fun b => map_values (TrailedStack.assignBack_map_v fr _) fun s => rfl⟩
  obtain ⟨s, hs, heq⟩ := Option.map_eq_some_iff.mp h
  cases heq
  exact steps_openFrames fun s₀ h₀ => h₀.assignBack hs

theorem good_pushScopeKind (kind : ScopeKind) : Good env (pushScopeKind kind) := by
  refine ⟨fun b a b' h => ?_, blind_of (fun c => some ((), { c with
    scopes := c.scopes ++ [kind] })) fun b => rfl⟩
  cases h
  exact steps_scopes fun s₀ hs => hs.push kind

theorem good_popScopes (n : ℕ) : Good env (popScopes n) := by
  refine ⟨fun b a b' h => ?_, blind_of (fun c => (if c.scopes.length < n then none
    else some (c.scopes.take (c.scopes.length - n))).map fun v => ((), { c with scopes := v }))
      fun b => map_values (TrailedStack.popN_map_v n _) fun s => rfl⟩
  obtain ⟨s, hs, heq⟩ := Option.map_eq_some_iff.mp h
  cases heq
  exact steps_scopes fun s₀ h₀ => h₀.popN hs

theorem good_insertCookie (cookie : ℕ) : Good env (insertCookie cookie) := by
  refine ⟨fun b a b' h => ?_, blind_of (fun c => some ((), { c with
    closedCookies := insert cookie c.closedCookies })) fun b => ?_⟩
  · cases h
    exact steps_closedCookies fun t₀ ht => ht.insert cookie
  · have hs : (b.closedCookies.insert cookie).s = insert cookie b.closedCookies.s := by
      unfold TrailedSet.insert
      split
      · rename_i hmem
        exact (Finset.insert_eq_of_mem hmem).symm
      · rfl
    simp [insertCookie, TreeBuilder.visible, hs]

theorem good_eraseCookie (cookie : ℕ) : Good env (eraseCookie cookie) := by
  refine ⟨fun b a b' h => ?_, blind_of (fun c =>
    let t := (⟨c.closedCookies, [], false⟩ : TrailedSet ℕ).erase cookie
    some (t.1, { c with closedCookies := t.2.s })) fun b => ?_⟩
  · cases h
    exact steps_closedCookies fun t₀ ht => ht.erase cookie
  · have hs : (b.closedCookies.erase cookie).1 =
          ((⟨b.closedCookies.s, [], false⟩ : TrailedSet ℕ).erase cookie).1 ∧
        (b.closedCookies.erase cookie).2.s =
          ((⟨b.closedCookies.s, [], false⟩ : TrailedSet ℕ).erase cookie).2.s := by
      unfold TrailedSet.erase
      by_cases hmem : cookie ∈ b.closedCookies.s
      · simp [hmem]
      · simp [hmem]
    simp only [eraseCookie, TreeBuilder.visible, Option.map_some, Prod.map_apply, id_eq, hs.1, hs.2]

theorem good_mintCookie : Good env mintCookie := by
  refine ⟨fun b a b' h => ?_, blind_of (fun c => if c.nextCookie = 0 then none
    else some (c.nextCookie, { c with nextCookie := (c.nextCookie + 1) % 2 ^ 32 })) fun b => ?_⟩
  · unfold mintCookie at h
    split at h
    · cases h
    · cases h
      exact fun n => ⟨fun hok => ⟨hok.reporter, hok.walker, hok.marks, hok.sentinel, hok.ids,
        hok.nextId⟩, rfl, rfl, le_rfl, fun _ _ hs => { hs with }⟩
  · show Option.map _ (if b.nextCookie = 0 then none else _) = if b.nextCookie = 0 then none else _
    split <;> rfl

theorem good_reportRaw (d : ParseDiagnostic) : Good env (reportRaw env d) := by
  refine ⟨fun b a b' h => ?_, blind_of (fun c => (c.reporter.report env.reporter d).map fun r =>
    ((), { c with reporter := r })) fun b => ?_⟩
  · obtain ⟨r, hr, heq⟩ := Option.map_eq_some_iff.mp h
    cases heq
    exact steps_reporter hr
  · show Option.map _ (Option.map _ (b.reporter.report env.reporter d)) =
      Option.map _ (b.reporter.report env.reporter d)
    cases b.reporter.report env.reporter d <;> rfl

theorem good_nodeAt (id : ℕ) : Good env (nodeAt id) := by
  refine ⟨fun b a b' h => ?_, blind_of (fun c => if id = 0 then none
    else (c.arena[id]?).map fun n => (n, c)) fun b => ?_⟩
  · unfold nodeAt at h
    split at h
    · cases h
    · obtain ⟨x, -, heq⟩ := Option.map_eq_some_iff.mp h
      cases heq
      exact fun n => .refl env n b
  · show Option.map _ (if id = 0 then none else Option.map _ (b.arena[id]?)) =
      if id = 0 then none else Option.map _ (b.arena[id]?)
    split
    · rfl
    · cases b.arena[id]? <;> rfl

theorem good_emit (x : Node) : Good env (emit x) := by
  refine ⟨fun b a b' h => ?_, blind_of (fun c => some (c.arena.length, { c with
    arena := c.arena ++ [x] })) fun b => rfl⟩
  cases h
  refine fun n => ⟨fun hok => ⟨hok.reporter, hok.walker, hok.marks, ?_, hok.ids, hok.nextId⟩, rfl,
    rfl, ?_, fun _ _ hs => { hs with arena := hs.arena.push x }⟩
  · simp
  · simp

theorem stepsBelow_writeNew {id : ℕ} {x : Node} {a : Unit} (h : writeNew id x b = some (a, b')) :
    StepsBelow env id b b' := by
  unfold writeNew at h
  split at h
  · cases h
  · cases h
    refine ⟨fun hok => ⟨hok.reporter, hok.walker, hok.marks, ?_, hok.ids, hok.nextId⟩, rfl, rfl, ?_,
      fun _ hn hs => { hs with arena := hs.arena.writeAbove hn x }⟩
    · simpa using hok.sentinel
    · simp

theorem blind_writeNew (id : ℕ) (x : Node) : Blind (writeNew id x) := by
  refine blind_of (fun c => if id = 0 ∨ c.arena.length ≤ id then none
    else some ((), { c with arena := c.arena.set id x })) fun b => ?_
  show Option.map _ (if id = 0 ∨ b.arena.length ≤ id then none else _) =
    if id = 0 ∨ b.arena.length ≤ id then none else _
  split <;> rfl

theorem TreeBuilder.Since.writeNode {b₀ : TreeBuilder} (hs : b₀.Since b) {id : ℕ} {old x : Node}
    (hold : b.arena[id]? = some old) :
    b₀.Since { b with arena := b.arena.set id x, nodeWrites := recordNodeWrite b id old } := by
  obtain ⟨rest, hstack, hrest⟩ := hs.stack
  have harena :
    ArenaSince b₀.arena b₀.nodeWrites (b.arena.set id x) (recordNodeWrite b id old) := by
    unfold recordNodeWrite
    cases htop : b.checkpointStack.getLast? with
    | none =>
      rw [List.getLast?_eq_none_iff.mp htop] at hstack
      simp at hstack
    | some top =>
      have hsize : b₀.arena.length ≤ top.2.nodesSize := by
        have hmem := List.mem_of_getLast? htop
        rw [hstack] at htop
        cases rest with
        | nil =>
          simp only [List.getLast?_append, List.getLast?_singleton, Option.some_or,
            Option.some.injEq] at htop
          rw [← htop]
          exact le_rfl
        | cons e rest =>
          rw [List.getLast?_append, List.getLast?_cons_cons] at htop
          have hlast : (e :: rest).getLast? = some top := by
            cases hl : (e :: rest).getLast? with
            | none =>
              rw [List.getLast?_eq_none_iff] at hl
              cases hl
            | some t =>
              rw [hl] at htop
              exact htop
          exact hrest top (List.mem_of_getLast? hlast)
      dsimp only
      split
      · rename_i hle
        exact hs.arena.writeAbove (hsize.trans hle) x
      · exact hs.arena.write hold x
  exact { hs with arena := harena }

theorem good_writeNode (id : ℕ) (x : Node) : Good env (writeNode id x) := by
  refine ⟨fun b a b' h => ?_, blind_of (fun c => if id = 0 then none
    else (c.arena[id]?).map fun _ => ((), { c with arena := c.arena.set id x })) fun b => ?_⟩
  · unfold Parse.writeNode at h
    split at h
    · cases h
    · obtain ⟨old, hold, heq⟩ := Option.map_eq_some_iff.mp h
      cases heq
      refine fun n =>
        ⟨fun hok => ⟨hok.reporter, hok.walker, hok.marks, ?_, hok.ids, hok.nextId⟩, rfl,
        rfl, ?_, fun _ _ hs => hs.writeNode hold⟩
      · simpa using hok.sentinel
      · simp
  · show Option.map _ (if id = 0 then none else Option.map _ (b.arena[id]?)) =
      if id = 0 then none else Option.map _ (b.arena[id]?)
    split
    · rfl
    · cases b.arena[id]? <;> rfl

theorem Walker.Ok.stackWrapDepth {w : Walker} (h : w.Ok) :
    w.stackWrapDepth = w.frames.v.countP (·.isWrap) := by
  unfold Walker.stackWrapDepth
  cases hlast : w.frames.v.getLast? with
  | none => simp [List.getLast?_eq_none_iff.mp hlast]
  | some fr =>
    obtain ⟨v, hv⟩ := List.getLast?_eq_some_iff.mp hlast
    have := h.frames v.length fr (by simp [hv])
    dsimp only
    rw [this, hv, List.take_of_length_le (by simp)]

theorem Walker.Ok.of_frames {w w' : Walker} (h : w.Ok) (hv : w'.frames.v = w.frames.v)
    (hd : w'.wrapDepth = w.wrapDepth) : w'.Ok := by
  constructor
  · rw [hv]
    exact h.frames
  · rw [hv, hd]
    exact h.wrapDepth

theorem Walker.noteDesync_fst (w : Walker) (was now : Bool) :
    (w.noteDesync was now).1.frames = w.frames ∧ (w.noteDesync was now).1.wrapDepth = w.wrapDepth ∧
      (w.noteDesync was now).1.liveMarks = w.liveMarks := by
  unfold Walker.noteDesync
  split
  · exact ⟨rfl, rfl, rfl⟩
  split
  · exact ⟨rfl, rfl, rfl⟩
  split <;> exact ⟨rfl, rfl, rfl⟩

theorem steps_walker {w : Walker} (hok : b.walker.Ok → w.Ok)
    (hmarks : w.liveMarks = b.walker.liveMarks)
    (h : ∀ s₀ : TrailedStack WalkerFrame, s₀.Since b.walker.frames → s₀.Since w.frames) :
    Steps env b { b with walker := w } := fun _ =>
  ⟨fun hb =>
      ⟨hb.reporter, hok hb.walker, hmarks.trans hb.marks, hb.sentinel, hb.ids, hb.nextId⟩, rfl,
    rfl, le_rfl, fun _ _ hs => { hs with walkerFrames := h _ hs.walkerFrames }⟩

theorem Walker.Ok.enterRule {w w' : Walker} (h : w.Ok) {rule : ℕ}
    (hw : w.enterRule env.schema rule = some w') : w'.Ok := by
  have hdepth := h.stackWrapDepth
  unfold Walker.enterRule at hw
  split at hw
  · cases hw
  · cases hw
    constructor
    · intro i fr hfr
      simp only [TrailedStack.push] at hfr ⊢
      by_cases hi : i < w.frames.v.length
      · rw [List.getElem?_append_left hi] at hfr
        rw [List.take_append_of_le_length (by omega)]
        exact h.frames i fr hfr
      · have hlt := (List.getElem?_eq_some_iff.mp hfr).1
        rw [List.length_append, List.length_singleton] at hlt
        obtain rfl : i = w.frames.v.length := by omega
        rw [List.getElem?_concat_length] at hfr
        rw [← Option.some_inj.mp hfr, List.take_of_length_le (by simp), List.countP_append, hdepth]
        simp [List.countP_cons]
    · simp only [TrailedStack.push, List.countP_append, h.wrapDepth, List.countP_cons,
        List.countP_nil]
      split <;> simp_all

theorem Walker.Ok.leaveRule {w w' : Walker} (h : w.Ok) {lost : Bool}
    (hw : w.leaveRule env.schema = some (w', lost)) : w'.Ok := by
  unfold Walker.leaveRule at hw
  cases hlast : w.frames.v.getLast? with
  | none =>
    rw [hlast] at hw
    cases hw
  | some leaving =>
    rw [hlast] at hw
    obtain ⟨frames, hpop, heq⟩ := Option.map_eq_some_iff.mp hw
    obtain ⟨v, hv⟩ := List.getLast?_eq_some_iff.mp hlast
    have hframes : frames.v = v := by
      have hmap := TrailedStack.pop_map_v w.frames
      rw [hpop, hlast] at hmap
      rw [Option.some_inj.mp hmap, hv, List.dropLast_concat]
    -- the counts of the frames below do not change, and the wrapper is taken off
    have hold : ∀ i fr, v[i]? = some fr →
      fr.wrapsAtAndBelow = (v.take (i + 1)).countP (·.isWrap) := by
      intro i fr hfr
      have hi := (List.getElem?_eq_some_iff.mp hfr).1
      have := h.frames i fr (by rw [hv, List.getElem?_append_left hi]; exact hfr)
      rw [this, hv, List.take_append_of_le_length (by omega)]
    have hdepth : (if leaving.isWrap then w.wrapDepth - 1 else w.wrapDepth) =
        v.countP (·.isWrap) := by
      rw [h.wrapDepth, hv, List.countP_append]
      cases hwrap : leaving.isWrap <;> simp [hwrap]
    have hfinal : ∀ u : Walker, u.frames = frames → u.wrapDepth = w.wrapDepth →
        Walker.Ok (if leaving.isWrap then { u with wrapDepth := u.wrapDepth - 1 } else u) := by
      intro u hu hud
      cases hwrap : leaving.isWrap with
      | true =>
        rw [hwrap] at hdepth
        refine ⟨?_, ?_⟩
        · show ∀ i fr, u.frames.v[i]? = some fr → _
          simp only [if_true, hu, hframes]
          exact hold
        · simp only [if_true, hu, hframes, hud]
          simpa using hdepth
      | false =>
        rw [hwrap] at hdepth
        refine ⟨?_, ?_⟩
        · simp only [Bool.false_eq_true, if_false, hu, hframes]
          exact hold
        · simp only [Bool.false_eq_true, if_false, hu, hframes, hud]
          simpa using hdepth
    dsimp only at heq
    split at heq
    · cases heq
      exact hfinal _ rfl rfl
    · cases heq
      obtain ⟨h₁, h₂, -⟩ := Walker.noteDesync_fst
        { w with frames := frames, cursor := env.schema.leaveRule leaving.parent } true
        (env.schema.leaveRule leaving.parent).valid
      exact hfinal _ h₁ h₂

def Walker.seen (w : Walker) : SchemaCursor × List WalkerFrame × ℕ × Bool :=
  (w.cursor, w.frames.v, w.wrapDepth, w.cursorDesynced)

def Visible.withWalker (c : Visible) (x : SchemaCursor × List WalkerFrame × ℕ × Bool) : Visible :=
  { c with cursor := x.1, walkerFrames := x.2.1, wrapDepth := x.2.2.1, cursorDesynced := x.2.2.2 }

theorem seen_of_visible {b c : TreeBuilder} (h : b.visible = c.visible) :
    b.walker.seen = c.walker.seen := by
  have h₁ := congrArg Visible.cursor h
  have h₂ := congrArg Visible.walkerFrames h
  have h₃ := congrArg Visible.wrapDepth h
  have h₄ := congrArg Visible.cursorDesynced h
  simp only [TreeBuilder.visible] at h₁ h₂ h₃ h₄
  simp only [Walker.seen, h₁, h₂, h₃, h₄]

theorem Walker.enterRule_seen {w u : Walker} (h : w.seen = u.seen) (schema : GrammarSchema)
    (rule : ℕ) : (w.enterRule schema rule).map Walker.seen =
      (u.enterRule schema rule).map Walker.seen := by
  simp only [Walker.seen, Prod.mk.injEq] at h
  obtain ⟨h₁, h₂, h₃, h₄⟩ := h
  unfold Walker.enterRule Walker.stackWrapDepth
  split
  · rfl
  · simp only [Option.map_some, Walker.seen, TrailedStack.push, h₁, h₂, h₃, h₄]

theorem Walker.noteDesync_seen {w u : Walker} (h : w.seen = u.seen) (was now : Bool) :
    ((w.noteDesync was now).1.seen, (w.noteDesync was now).2) =
      ((u.noteDesync was now).1.seen, (u.noteDesync was now).2) := by
  have h' := h
  simp only [Walker.seen, Prod.mk.injEq] at h
  obtain ⟨h₁, h₂, h₃, h₄⟩ := h
  unfold Walker.noteDesync
  rw [h₃, h₄]
  split
  · rw [h']
  split
  · rw [h']
  split
  · rw [h']
  · simp only [Walker.seen, h₁, h₂]

theorem Walker.advance_seen {w u : Walker} (h : w.seen = u.seen) (schema : GrammarSchema)
    (tok : ℕ) : ((w.advance schema tok).1.seen, (w.advance schema tok).2) =
      ((u.advance schema tok).1.seen, (u.advance schema tok).2) := by
  have h' := h
  simp only [Walker.seen, Prod.mk.injEq] at h
  obtain ⟨h₁, h₂, h₃, h₄⟩ := h
  unfold Walker.advance
  dsimp only
  rw [h₁]
  exact Walker.noteDesync_seen (by simp only [Walker.seen, h₂, h₃, h₄]) _ _

theorem Walker.unwrap_seen {w u : Walker} (h : w.seen = u.seen) (isWrap : Bool) :
    (if isWrap then { w with wrapDepth := w.wrapDepth - 1 } else w).seen =
      (if isWrap then { u with wrapDepth := u.wrapDepth - 1 } else u).seen := by
  cases isWrap with
  | false => exact h
  | true =>
    simp only [Walker.seen, Prod.mk.injEq] at h
    simp [Walker.seen, h]

theorem Walker.leaveRule_seen {w u : Walker} (h : w.seen = u.seen) (schema : GrammarSchema) :
    (w.leaveRule schema).map (Prod.map Walker.seen id) =
      (u.leaveRule schema).map (Prod.map Walker.seen id) := by
  have h' := h
  simp only [Walker.seen, Prod.mk.injEq] at h
  obtain ⟨h₁, h₂, h₃, h₄⟩ := h
  have hw := TrailedStack.pop_map_v w.frames
  have hu := TrailedStack.pop_map_v u.frames
  unfold Walker.leaveRule
  rw [h₂] at hw ⊢
  cases hlast : u.frames.v.getLast? with
  | none => rfl
  | some leaving =>
    rw [hlast] at hw hu
    obtain ⟨f, hf, hfv⟩ := Option.map_eq_some_iff.mp hw
    obtain ⟨g, hg, hgv⟩ := Option.map_eq_some_iff.mp hu
    rw [hf, hg]
    simp only [Option.map_some]
    refine congrArg some ?_
    split
    · refine Prod.ext ?_ rfl
      exact Walker.unwrap_seen (by simp only [Walker.seen, hfv, hgv, h₃, h₄]) _
    · have hnote := Walker.noteDesync_seen (w := { w with
          frames := f, cursor := schema.leaveRule leaving.parent }) (u := { u with
          frames := g, cursor := schema.leaveRule leaving.parent })
        (by simp only [Walker.seen, hfv, hgv, h₃, h₄]) true
        (schema.leaveRule leaving.parent).valid
      obtain ⟨hseen, hlost⟩ := Prod.mk.inj hnote
      exact Prod.ext (Walker.unwrap_seen hseen _) hlost

theorem good_walkerEnter (rule : ℕ) : Good env (walkerEnter env rule) := by
  refine ⟨fun b a b' h => ?_, fun b c hbc => ?_⟩
  · obtain ⟨w, hw, heq⟩ := Option.map_eq_some_iff.mp h
    cases heq
    refine steps_walker (fun hok => hok.enterRule hw) ?_ ?_
    · unfold Walker.enterRule at hw
      split at hw
      · cases hw
      · cases hw
        rfl
    · intro s₀ hs
      unfold Walker.enterRule at hw
      split at hw
      · cases hw
      · cases hw
        exact hs.push _
  · have hseen := Walker.enterRule_seen (seen_of_visible hbc) env.schema rule
    have hmap : ∀ b : TreeBuilder, (walkerEnter env rule b).map (Prod.map id TreeBuilder.visible) =
        ((b.walker.enterRule env.schema rule).map Walker.seen).map fun x =>
          ((), b.visible.withWalker x) := by
      intro b
      unfold walkerEnter
      cases b.walker.enterRule env.schema rule <;> rfl
    rw [hmap, hmap, hseen, hbc]

theorem good_walkerLeave : Good env (walkerLeave env) := by
  refine ⟨fun b a b' h => ?_, fun b c hbc => ?_⟩
  · obtain ⟨⟨w, lost⟩, hw, heq⟩ := Option.map_eq_some_iff.mp h
    cases heq
    have hframes : w.liveMarks = b.walker.liveMarks ∧ b.walker.frames.pop = some w.frames := by
      unfold Walker.leaveRule at hw
      cases hlast : b.walker.frames.v.getLast? with
      | none =>
        rw [hlast] at hw
        cases hw
      | some leaving =>
        rw [hlast] at hw
        obtain ⟨frames, hpop, heq⟩ := Option.map_eq_some_iff.mp hw
        rw [hpop]
        dsimp only at heq
        split at heq
        · cases heq
          cases leaving.isWrap <;> exact ⟨rfl, rfl⟩
        · cases heq
          obtain ⟨h₁, -, h₃⟩ := Walker.noteDesync_fst
            { b.walker with frames := frames, cursor := env.schema.leaveRule leaving.parent } true
            (env.schema.leaveRule leaving.parent).valid
          cases leaving.isWrap <;> exact ⟨h₃, congrArg some h₁.symm⟩
    exact steps_walker (fun hok => hok.leaveRule hw) hframes.1 fun s₀ hs => hs.pop hframes.2
  · have hseen := Walker.leaveRule_seen (seen_of_visible hbc) env.schema
    have hmap : ∀ b : TreeBuilder, (walkerLeave env b).map (Prod.map id TreeBuilder.visible) =
        ((b.walker.leaveRule env.schema).map (Prod.map Walker.seen id)).map fun x =>
          (x.2, b.visible.withWalker x.1) := by
      intro b
      unfold walkerLeave
      cases b.walker.leaveRule env.schema <;> rfl
    rw [hmap, hmap, hseen, hbc]

theorem good_walkerAdvance (tok : ℕ) : Good env (walkerAdvance env tok) := by
  refine ⟨fun b a b' h => ?_, fun b c hbc => ?_⟩
  · cases h
    obtain ⟨h₁, h₂, h₃⟩ := Walker.noteDesync_fst
      { b.walker with cursor := env.schema.advance b.walker.cursor tok } b.walker.cursor.valid
      (env.schema.advance b.walker.cursor tok).valid
    refine steps_walker
      (fun hok => hok.of_frames (congrArg TrailedStack.v h₁) h₂) h₃ fun s₀ hs => ?_
    have hsame : (b.walker.advance env.schema tok).1.frames = b.walker.frames := h₁
    rw [hsame]
    exact hs
  · have hseen := Walker.advance_seen (seen_of_visible hbc) env.schema tok
    have hmap : ∀ b : TreeBuilder, (walkerAdvance env tok b).map (Prod.map id TreeBuilder.visible) =
        some ((b.walker.advance env.schema tok).2,
          b.visible.withWalker (b.walker.advance env.schema tok).1.seen) := fun b => rfl
    obtain ⟨h₁, h₂⟩ := Prod.mk.inj hseen
    rw [hmap, hmap, hbc, h₁, h₂]

theorem good_emitDiagnostic (d : ParseDiagnostic) : Good env (emitDiagnostic env d) :=
  good_view.bind fun _ => good_reportRaw _

theorem good_addBuilderInvariant (actual : String) (span : SourceSpan) :
    Good env (addBuilderInvariant env actual span) := good_emitDiagnostic _

theorem good_reportDesync (lost : Bool) (span : SourceSpan) (rule : ℕ) :
    Good env (reportDesync env lost span rule) :=
  .ite (fun _ => good_emitDiagnostic _) fun _ => .pure _

theorem good_emitAttached (n : Node) : Good env (emitAttached n) := by
  refine good_view.bind fun c => ?_
  cases c.openFrames.getLast? with
  | none => exact (good_emit n).bind fun _ => .pure _
  | some fr => exact (good_emit _).bind fun id => good_pushPending id

theorem good_openerSpan (c : Visible) : Good env (openerSpan c) := by
  unfold openerSpan
  cases c.topFramePendingChildren.getLast? with
  | none => exact .pure _
  | some last => exact (good_nodeAt last).bind fun _ => .pure _

theorem good_emitOpened (c : Visible) (n : Node) : Good env (emitOpened c n) := by
  unfold emitOpened
  cases c.openFrames.getLast? with
  | none => exact good_emit _
  | some fr => exact (good_emit _).bind fun id => (good_pushPending id).bind fun _ => .pure _

theorem good_openRule (rule : ℕ) : Good env (openRule env rule) := by
  refine good_view.bind fun c => ?_
  refine (good_openerSpan c).bind fun opener => (good_emitOpened c _).bind fun id => ?_
  refine good_mintCookie.bind fun cookie => good_view.bind fun c' => ?_
  exact (good_pushFrame _).bind fun _ => (good_walkerEnter rule).bind fun _ => .pure _

theorem good_openFrame (rule : ℕ) : Good env (openFrame env rule) :=
  good_view.bind fun _ => .ite (fun _ => (good_addBuilderInvariant _ _).bind fun _ => .pure _)
    fun _ => good_openRule rule

theorem good_takeChild (id : ℕ) (node : Node) (child : ℕ) : Good env (takeChild id node child) := by
  refine (good_pushChildIndex child).bind fun _ => Good.bind ?_ fun n => .pure _
  exact Good.ite (fun _ => .pure _) fun _ => good_nodeAt child

theorem good_closeTop (cookie : ℕ) : Good env (closeTop env cookie) := by
  refine good_view.bind fun c => ?_
  cases c.openFrames.getLast? with
  | none => exact good_fatal
  | some fr =>
    refine (good_nodeAt fr.id).bind fun node => ?_
    refine (Good.foldlM (fun _ _ => good_takeChild _ _ _) _ _).bind fun node => ?_
    refine (good_truncatePending _).bind fun _ => (good_writeNode _ _).bind fun _ => ?_
    refine (Good.doIf _ (good_addBuilderInvariant _ _)).bind fun _ => ?_
    refine (good_popScopes _).bind fun _ => ?_
    refine (Good.doIf _ (good_insertCookie _)).bind fun _ => ?_
    refine good_popFrame.bind fun _ => good_walkerLeave.bind fun lost => ?_
    exact (good_reportDesync _ _ _).bind fun _ => .pure _

theorem good_closeUntil (cookie fuel : ℕ) : Good env (closeUntil env cookie fuel) := by
  induction fuel with
  | zero => exact good_fatal
  | succ fuel ih =>
    refine (good_closeTop cookie).bind fun isTarget => good_view.bind fun c => ?_
    exact .ite (fun _ => .pure _) fun _ => ih

theorem good_topSpan (c : Visible) (fr : Frame) : Good env (topSpan c fr) := by
  unfold topSpan
  cases c.topFramePendingChildren.getLast? with
  | none => exact .pure _
  | some last => exact (good_nodeAt last).bind fun _ => .pure _

theorem good_closeFrame (cookie : ℕ) : Good env (closeFrame env cookie) := by
  refine (good_eraseCookie cookie).bind fun wasClosed => good_view.bind fun c => ?_
  cases c.openFrames.getLast? with
  | none => exact .pure _
  | some top =>
    refine .ite (fun _ => .pure _) fun _ => ?_
    cases c.openFrames.reverse.find? (·.cookie = cookie) with
    | none => exact (good_topSpan c top).bind fun _ => good_addBuilderInvariant _ _
    | some fr =>
      exact (Good.doIf _ (good_addBuilderInvariant _ _)).bind fun _ => good_closeUntil _ _

theorem good_pushScope (kind : ScopeKind) : Good env (pushScope env kind) :=
  good_view.bind fun _ => .ite (fun _ => good_addBuilderInvariant _ _) fun _ => good_pushScopeKind _

theorem good_underflowSpan (c : Visible) : Good env (underflowSpan c) := by
  unfold underflowSpan
  cases c.openFrames.getLast? with
  | none => exact .pure _
  | some top => exact good_topSpan c top

theorem good_popScope : Good env (popScope env) := by
  refine good_view.bind fun c => .ite (fun _ => good_addBuilderInvariant _ _) fun _ => ?_
  refine .ite (fun _ => ?_) fun _ => good_popScopes 1
  exact (good_underflowSpan c).bind fun _ => good_addBuilderInvariant _ _

theorem good_demoteContextual (lexeme : String) (buffer : ℕ) (span : SourceSpan) (rule : ℕ)
    (m : LexemeMeaning) : Good env (demoteContextual env lexeme buffer span rule m) := by
  refine good_view.bind fun c => .ite (fun _ => good_fatal) fun _ => ?_
  exact .ite (fun _ => (good_emitDiagnostic _).bind fun _ => .pure _) fun _ => .pure _

theorem good_pushLeaf (tok : Token) (rule : ℕ) (m : LexemeMeaning) :
    Good env (pushLeaf env tok rule m) := by
  refine (Good.doIf _ (good_pushScope _)).bind fun _ => ?_
  refine (Good.doIf _ good_popScope).bind fun _ => (good_emitAttached _).bind fun _ => ?_
  exact Good.doIf _ ((good_walkerAdvance _).bind fun _ => good_reportDesync _ _ _)

theorem good_pushToken (tok : Token) : Good env (pushToken env tok) := by
  refine good_view.bind fun c => .ite (fun _ => good_addBuilderInvariant _ _) fun _ => ?_
  cases env.source with
  | none => exact good_addBuilderInvariant _ _
  | some source =>
    cases c.openFrames.getLast? with
    | none => exact good_addBuilderInvariant _ _
    | some top =>
      refine .ite (fun _ => good_fatal) fun _ => ?_
      dsimp only
      generalize resolveMeaning env.schema _ c.scopes tok.schemaKind = resolved
      cases resolved with
      | none => exact good_fatal
      | some resolved =>
        refine .ite (fun _ => ?_) fun _ => ?_
        · exact (good_emitDiagnostic _).bind fun _ => good_emitAttached _
        · refine (Good.doIf _ (good_emitDiagnostic _)).bind fun _ => ?_
          exact (good_demoteContextual _ _ _ _ _).bind fun _ => good_pushLeaf _ _ _

theorem good_pushError (span : SourceSpan) (rule token : Option ℕ) (note : String) :
    Good env (pushError env span rule token note) := by
  refine good_view.bind fun c => .ite (fun _ => good_addBuilderInvariant _ _) fun _ => ?_
  cases c.openFrames.getLast? with
  | none => exact good_addBuilderInvariant _ _
  | some top => exact (good_emitDiagnostic _).bind fun _ => good_emitAttached _

theorem good_pushErrorNode (span : SourceSpan) : Good env (pushErrorNode env span) := by
  refine good_view.bind fun c => .ite (fun _ => good_addBuilderInvariant _ _) fun _ => ?_
  cases c.openFrames.getLast? with
  | none => exact good_addBuilderInvariant _ _
  | some top => exact good_emitAttached _

theorem emitOpened_id {c : Visible} {n : Node} {id : ℕ} (h : emitOpened c n b = some (id, b')) :
    id = b.arena.length := by
  unfold emitOpened at h
  cases htop : c.openFrames.getLast? with
  | none =>
    rw [htop] at h
    cases h
    rfl
  | some fr =>
    rw [htop] at h
    cases h
    rfl

theorem openRule_top {rule cookie : ℕ} (h : openRule env rule b = some (cookie, b')) :
    ∃ fr, b'.openFrames.v.getLast? = some fr ∧ b.arena.length ≤ fr.id := by
  obtain ⟨c, b₁, h₁, k₁⟩ := bind_eq_some h
  obtain ⟨opener, b₂, h₂, k₂⟩ := bind_eq_some k₁
  obtain ⟨id, b₃, h₃, k₃⟩ := bind_eq_some k₂
  obtain ⟨cookie', b₄, h₄, k₄⟩ := bind_eq_some k₃
  obtain ⟨c', b₅, h₅, k₅⟩ := bind_eq_some k₄
  obtain ⟨_, b₆, h₆, k₆⟩ := bind_eq_some k₅
  obtain ⟨_, b₇, h₇, k₇⟩ := bind_eq_some k₆
  cases h₁
  cases h₆
  cases k₇
  obtain ⟨w, -, heq⟩ := Option.map_eq_some_iff.mp h₇
  cases heq
  refine ⟨_, List.getLast?_concat, ?_⟩
  have hgrown := ((@good_openerSpan env b.visible).steps _ _ _ h₂ 0).grown
  rw [emitOpened_id h₃]
  exact hgrown

theorem stepsBelow_adoptChild {child : ℕ} {a : Unit} {wrapper : Frame}
    (htop : b.openFrames.v.getLast? = some wrapper) (h : adoptChild child b = some (a, b')) :
    StepsBelow env wrapper.id b b' := by
  obtain ⟨c, b₁, h₁, h⟩ := bind_eq_some h
  cases h₁
  have hc : b.visible.openFrames.getLast? = some wrapper := htop
  rw [hc] at h
  obtain ⟨_, b₂, h₂, h⟩ := bind_eq_some h
  obtain ⟨n, b₃, h₃, h⟩ := bind_eq_some h
  obtain ⟨_, b₄, h₄, h⟩ := bind_eq_some h
  obtain ⟨_, b₅, h₅, h⟩ := bind_eq_some h
  obtain ⟨w, b₆, h₆, h⟩ := bind_eq_some h
  have s₂ := (@good_pushPending env child).steps _ _ _ h₂ wrapper.id
  have s₃ := (@good_nodeAt env child).steps _ _ _ h₃ wrapper.id
  have s₄ := (@good_writeNode env _ _).steps _ _ _ h₄ wrapper.id
  have s₅ := (@good_assignFrame env _).steps _ _ _ h₅ wrapper.id
  have s₆ := (@good_nodeAt env wrapper.id).steps _ _ _ h₆ wrapper.id
  exact s₂.trans (s₃.trans (s₄.trans (s₅.trans (s₆.trans (stepsBelow_writeNew h)))))

theorem blind_adoptChild (env : BuilderEnv) (child : ℕ) : Blind (adoptChild child) := by
  refine (@good_view env).blind.bind fun c => ?_
  cases c.openFrames.getLast? with
  | none => exact (@good_pushPending env child).blind
  | some wrapper =>
    refine (@good_pushPending env child).blind.bind fun _ => ?_
    refine (@good_nodeAt env child).blind.bind fun n => ?_
    refine (@good_writeNode env _ _).blind.bind fun _ => ?_
    refine (@good_assignFrame env _).blind.bind fun _ => ?_
    exact (@good_nodeAt env wrapper.id).blind.bind fun w => blind_writeNew _ _

theorem good_wrapChild (rule child : ℕ) : Good env (do
    popPending
    let cookie ← openRule env rule
    adoptChild child
    pure cookie) := by
  constructor
  · intro b cookie b' h n
    obtain ⟨_, b₁, h₁, h⟩ := bind_eq_some h
    obtain ⟨cookie', b₂, h₂, h⟩ := bind_eq_some h
    obtain ⟨_, b₃, h₃, h⟩ := bind_eq_some h
    cases h
    obtain ⟨fr, htop, hnew⟩ := openRule_top h₂
    have s₁ := (@good_popPending env).steps _ _ _ h₁ n
    have s₂ := (good_openRule rule).steps _ _ _ h₂ n
    have s₃ : StepsBelow env fr.id b₂ b' := stepsBelow_adoptChild htop h₃
    refine ⟨fun hok => s₃.ok (s₂.ok (s₁.ok hok)), s₃.stack.trans (s₂.stack.trans s₁.stack),
      s₃.nextId.trans (s₂.nextId.trans s₁.nextId), s₁.grown.trans (s₂.grown.trans s₃.grown), ?_⟩
    intro b₀ hn hs
    have hs₁ := s₁.since b₀ hn hs
    exact s₃.since b₀ (hs₁.arena.grown.trans hnew) (s₂.since b₀ hn hs₁)
  · refine (@good_popPending env).blind.bind fun _ => ?_
    refine (good_openRule rule).blind.bind fun cookie => ?_
    exact (blind_adoptChild env child).bind fun _ => (@Good.pure env _ _).blind

theorem good_wrapLastChildInFrame (rule : ℕ) : Good env (wrapLastChildInFrame env rule) := by
  refine good_view.bind fun c => .ite (fun _ => ?_) fun _ => ?_
  · exact (good_addBuilderInvariant _ _).bind fun _ => .pure _
  cases c.openFrames.getLast? with
  | none => exact (good_addBuilderInvariant _ _).bind fun _ => .pure _
  | some parent =>
    refine .ite (fun _ => (good_addBuilderInvariant _ _).bind fun _ => .pure _) fun _ => ?_
    cases c.pendingChildren.getLast? with
    | none => exact good_fatal
    | some child => exact good_wrapChild rule child

/-- **Every operation keeps what speculation needs.** -/
theorem BuilderOp.good (op : BuilderOp) : Good env (op.run env) := by
  cases op with
  | openFrame rule => exact (good_openFrame rule).bind fun _ => .pure _
  | closeFrame cookie => exact good_closeFrame cookie
  | wrapLastChildInFrame rule => exact (good_wrapLastChildInFrame rule).bind fun _ => .pure _
  | pushToken tok => exact good_pushToken tok
  | pushError span rule token note => exact good_pushError span rule token note
  | pushErrorNode span => exact good_pushErrorNode span
  | pushScope kind => exact good_pushScope kind
  | popScope => exact good_popScope
  | reportDiagnostic d =>
    exact good_view.bind fun _ => .ite (fun _ => good_addBuilderInvariant _ _)
      fun _ => good_emitDiagnostic _
  | ingestDiagnostics diags =>
    exact good_view.bind fun _ => .ite (fun _ => good_addBuilderInvariant _ _)
      fun _ => Good.forM (fun d => good_reportRaw d) diags

end

end DssPrime.Parse
