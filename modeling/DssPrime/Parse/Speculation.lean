import DssPrime.Parse.BuilderSteps

/-!
# Speculation is exact

The branch is any run of operations with checkpoints of its own inside, closed in nested order
(`Script`); it may close frames and scopes that were open before. When the last checkpoint is closed
no undo record is left.
-/

namespace DssPrime.Parse

section

variable {env : BuilderEnv} {b b' b₀ : TreeBuilder}

def TreeBuilder.checkpointed (b : TreeBuilder) : TreeBuilder :=
  { b with
    childIndex := b.childIndex.arm
    pendingChildren := b.pendingChildren.arm
    openFrames := b.openFrames.arm
    scopes := b.scopes.arm
    closedCookies := b.closedCookies.arm
    nodeWrites := b.nodeWrites.arm
    walker := { b.walker with
      liveMarks := b.walker.liveMarks + 1, frames := b.walker.frames.arm }
    checkpointStack := b.checkpointStack ++ [(b.nextCheckpointId, b.snapshot)]
    nextCheckpointId := (b.nextCheckpointId + 1) % 2 ^ 32 }

theorem Walker.Ok.counts {w : Walker} (h : w.Ok) : w.wrapDepth = w.stackWrapDepth :=
  h.wrapDepth.trans h.stackWrapDepth.symm

theorem checkpoint_eq (hok : b.Ok env)
    (hdepth : b.checkpointStack.length < env.maxSpeculationDepth) :
    checkpoint env b = some (b.nextCheckpointId, b.checkpointed) := by
  have hsnap : b.walker.snapshot = some (b.snapshot.walker,
      { b.walker with liveMarks := b.walker.liveMarks + 1, frames := b.walker.frames.arm }) := by
    unfold Walker.snapshot
    rw [if_neg (not_not.mpr hok.walker.counts)]
    rfl
  show (ite (env.maxSpeculationDepth ≤ b.checkpointStack.length) _ _ : BuilderM ℕ) b = _
  rw [if_neg (not_le.mpr hdepth), hsnap]
  rfl

theorem TreeBuilder.Ok.checkpointed (hok : b.Ok env) (hid : b.nextCheckpointId + 1 < 2 ^ 32) :
    b.checkpointed.Ok env := by
  have hmod : (b.nextCheckpointId + 1) % 2 ^ 32 = b.nextCheckpointId + 1 := Nat.mod_eq_of_lt hid
  refine ⟨hok.reporter, hok.walker.of_frames rfl rfl, ?_, hok.sentinel, ?_, ?_⟩
  · simp [TreeBuilder.checkpointed, hok.marks]
  · intro e he
    show e.1 < (b.nextCheckpointId + 1) % 2 ^ 32
    rw [hmod]
    rcases List.mem_append.mp he with he | he
    · exact Nat.lt_succ_of_lt (hok.ids e he)
    · rw [List.mem_singleton.mp he]
      exact Nat.lt_succ_self _
  · show 0 < (b.nextCheckpointId + 1) % 2 ^ 32
    rw [hmod]
    exact Nat.succ_pos _

theorem TreeBuilder.since_checkpointed (b : TreeBuilder) : b.Since b.checkpointed where
  arena := .arm _ _
  childIndex := TrailedStack.since_arm _
  pendingChildren := TrailedStack.since_arm _
  openFrames := TrailedStack.since_arm _
  scopes := TrailedStack.since_arm _
  walkerFrames := TrailedStack.since_arm _
  closedCookies := TrailedSet.since_arm _
  reporter := Reporter.since_refl _
  finished := rfl
  stack := ⟨[], rfl, by simp⟩

theorem TreeBuilder.Since.checkpointed (h : b₀.Since b) : b₀.Since b.checkpointed where
  arena := h.arena.arm_again
  childIndex := h.childIndex.arm
  pendingChildren := h.pendingChildren.arm
  openFrames := h.openFrames.arm
  scopes := h.scopes.arm
  walkerFrames := h.walkerFrames.arm
  closedCookies := h.closedCookies.arm
  reporter := h.reporter
  finished := h.finished
  stack := by
    obtain ⟨rest, hstack, hrest⟩ := h.stack
    refine ⟨rest ++ [(b.nextCheckpointId, b.snapshot)], ?_, fun e he => ?_⟩
    · simp [TreeBuilder.checkpointed, hstack]
    · rcases List.mem_append.mp he with he | he
      · exact hrest e he
      · rw [List.mem_singleton.mp he]
        exact h.arena.grown

theorem checkpoint_cap {id : ℕ} (hcap : env.maxSpeculationDepth ≤ b.checkpointStack.length)
    (h : checkpoint env b = some (id, b')) : id = 0 ∧ Steps env b b' := by
  have hrun : checkpoint env b = (do
      doIf (!b.maxSpeculationDepthReached) do
        set { b with maxSpeculationDepthReached := true }
        emitDiagnostic env {
          code := .maxSpeculationDepth, severity := .error, buffer := env.buffer, span := .empty 0
          actual := "speculation depth cap (" ++ toString env.maxSpeculationDepth ++
            ") reached; further checkpoints are no-ops" }
      pure 0 : BuilderM ℕ) b := by
    show (ite (env.maxSpeculationDepth ≤ b.checkpointStack.length) _ _ : BuilderM ℕ) b = _
    rw [if_pos hcap]
  rw [hrun] at h
  obtain ⟨_, b₁, h₁, h₂⟩ := bind_eq_some h
  cases h₂
  refine ⟨rfl, fun n => ?_⟩
  cases hreached : b.maxSpeculationDepthReached with
  | true =>
    rw [hreached] at h₁
    cases h₁
    exact .refl env n b
  | false =>
    rw [hreached] at h₁
    obtain ⟨_, b₂, h₃, h₄⟩ := bind_eq_some h₁
    cases h₃
    refine StepsBelow.trans ?_ ((good_emitDiagnostic _).steps _ _ _ h₄ n)
    exact ⟨fun hok => ⟨hok.reporter, hok.walker, hok.marks, hok.sentinel, hok.ids, hok.nextId⟩, rfl,
      rfl, le_rfl, fun _ _ hs => { hs with }⟩

def TreeBuilder.undoRecords (b : TreeBuilder) : ℕ :=
  b.childIndex.journal.length + b.pendingChildren.journal.length + b.openFrames.journal.length +
    b.scopes.journal.length + b.walker.frames.journal.length + b.closedCookies.journal.length +
    b.nodeWrites.journal.length

theorem findCheckpoint_last {id : ℕ} {snap : CheckpointSnapshot}
    {stack : List (ℕ × CheckpointSnapshot)} (hstack : b.checkpointStack = stack ++ [(id, snap)])
    (hids : ∀ e ∈ stack, e.1 < id) : b.findCheckpoint id = some stack.length := by
  unfold TreeBuilder.findCheckpoint
  have hfind : b.checkpointStack.findIdx? (fun e => id ≤ e.1) = some stack.length := by
    rw [hstack, List.findIdx?_append]
    have hnone : stack.findIdx? (fun e => decide (id ≤ e.1)) = none := by
      rw [List.findIdx?_eq_none_iff]
      intro e he
      have := hids e he
      simp only [decide_eq_false_iff_not, not_le]
      exact this
    rw [hnone]
    simp
  rw [hfind]
  simp [hstack]

theorem get_bind {α : Type} (f : TreeBuilder → BuilderM α) (b : TreeBuilder) :
    ((get : BuilderM TreeBuilder) >>= f) b = f b b := rfl

theorem doIf_false_bind {α : Type} (x : BuilderM Unit) (f : Unit → BuilderM α) (b : TreeBuilder) :
    (doIf false x >>= f) b = f () b := rfl

theorem releaseMarks_one (w : Walker) : Walker.releaseMarks 1 w = w.releaseMark := by
  show w.releaseMark.bind some = w.releaseMark
  cases w.releaseMark <;> rfl

/-- The walker when the innermost snapshot is retired and `n` are left. -/
def Walker.released (w : Walker) (n : ℕ) : Walker :=
  if n = 0 then { w with liveMarks := 0, frames := w.frames.discardJournal }
  else { w with liveMarks := n }

theorem releaseMark_eq {w : Walker} {n : ℕ} (h : w.liveMarks = n + 1) :
    w.releaseMark = some (w.released n) := by
  unfold Walker.releaseMark Walker.released
  rw [h, if_neg (Nat.succ_ne_zero n)]
  by_cases hn : n = 0
  · rw [if_pos (by omega), if_pos hn]
  · rw [if_neg (by omega), if_neg hn]
    simp

/-- A builder whose innermost checkpoint is closed, with these left. -/
def TreeBuilder.close (c : TreeBuilder) (stack : List (ℕ × CheckpointSnapshot)) : TreeBuilder :=
  ({ c with checkpointStack := stack, walker := c.walker.released stack.length } :
    TreeBuilder).discardTrailsIfIdle

section

variable {c : TreeBuilder} {stack : List (ℕ × CheckpointSnapshot)}

theorem TreeBuilder.close_nil (c : TreeBuilder) : c.close [] = { c with
    checkpointStack := []
    walker := { c.walker with liveMarks := 0, frames := c.walker.frames.discardJournal }
    pendingChildren := c.pendingChildren.discardJournal
    openFrames := c.openFrames.discardJournal
    scopes := c.scopes.discardJournal
    closedCookies := c.closedCookies.discardJournal
    nodeWrites := c.nodeWrites.discardJournal
    childIndex := c.childIndex.discardJournal } := rfl

theorem TreeBuilder.close_of_ne_nil (c : TreeBuilder) (h : stack ≠ []) : c.close stack = { c with
    checkpointStack := stack
    walker := { c.walker with liveMarks := stack.length } } := by
  unfold TreeBuilder.close TreeBuilder.discardTrailsIfIdle Walker.released
  rw [if_pos h, if_neg (by simpa using h)]

@[simp]
theorem TreeBuilder.close_visible (c : TreeBuilder) (stack : List (ℕ × CheckpointSnapshot)) :
    (c.close stack).visible = c.visible := by
  by_cases h : stack = []
  · rw [h, c.close_nil]
    rfl
  · rw [c.close_of_ne_nil h]
    rfl

@[simp]
theorem TreeBuilder.close_stack (c : TreeBuilder) (stack : List (ℕ × CheckpointSnapshot)) :
    (c.close stack).checkpointStack = stack := by
  by_cases h : stack = []
  · rw [h, c.close_nil]
  · rw [c.close_of_ne_nil h]

@[simp]
theorem TreeBuilder.close_nextId (c : TreeBuilder) (stack : List (ℕ × CheckpointSnapshot)) :
    (c.close stack).nextCheckpointId = c.nextCheckpointId := by
  by_cases h : stack = []
  · rw [h, c.close_nil]
  · rw [c.close_of_ne_nil h]

theorem TreeBuilder.ok_close (hr : Reporter.Ok env.reporter c.reporter) (hw : c.walker.Ok)
    (harena : 0 < c.arena.length) (hids : ∀ e ∈ stack, e.1 < c.nextCheckpointId)
    (hnext : 0 < c.nextCheckpointId) : (c.close stack).Ok env := by
  by_cases h : stack = []
  · subst h
    rw [c.close_nil]
    exact ⟨hr, hw.of_frames rfl rfl, rfl, harena, by simp, hnext⟩
  · rw [c.close_of_ne_nil h]
    exact ⟨hr, hw.of_frames rfl rfl, rfl, harena, hids, hnext⟩

theorem TreeBuilder.Since.close (h : b₀.Since { c with checkpointStack := stack }) :
    b₀.Since (c.close stack) := by
  have hne : stack ≠ [] := by
    obtain ⟨rest, hstack, -⟩ := h.stack
    have hs : stack = b₀.checkpointStack ++ (b₀.nextCheckpointId, b₀.snapshot) :: rest := hstack
    rw [hs]
    exact List.append_ne_nil_of_right_ne_nil _ (List.cons_ne_nil _ _)
  rw [c.close_of_ne_nil hne]
  exact { h with }

end

/-- The checkpoints of a run are closed again. -/
structure Closed (env : BuilderEnv) (b₀ b b' : TreeBuilder) : Prop where
  ok : b'.Ok env
  stack : b'.checkpointStack = b₀.checkpointStack
  nextId : b'.nextCheckpointId = b.nextCheckpointId
  /-- Earlier states can still be gone back to. -/
  since : ∀ b₁ : TreeBuilder, b₁.Since b₀ → b₁.Since b → b₁.Since b'
  idle : b₀.checkpointStack = [] → b'.undoRecords = 0

theorem TreeBuilder.undoRecords_close (c : TreeBuilder) : (c.close []).undoRecords = 0 := rfl

/-- **A commit leaves the builder as it can be seen.** -/
theorem commit_spec {id : ℕ} {snap : CheckpointSnapshot} (hid : id ≠ 0)
    (hids : ∀ e ∈ b₀.checkpointStack, e.1 < id) (hok : b.Ok env)
    (hstack : b.checkpointStack = b₀.checkpointStack ++ [(id, snap)]) :
    ∃ b', commitToId env id b = some ((), b') ∧ b'.visible = b.visible ∧ Closed env b₀ b b' := by
  have hfind := findCheckpoint_last hstack hids
  have hlen : b.checkpointStack.length = b₀.checkpointStack.length + 1 := by simp [hstack]
  have hrelease := releaseMark_eq (w := b.walker) (n := b₀.checkpointStack.length)
    (hok.marks.trans hlen)
  have hrun : commitToId env id b = some ((), b.close b₀.checkpointStack) := by
    have hcond : decide (b₀.checkpointStack.length + 1 ≠ b.checkpointStack.length) = false := by
      simp [hlen]
    have htake : b.checkpointStack.take b₀.checkpointStack.length = b₀.checkpointStack := by
      rw [hstack, List.take_left]
    show (ite (id = 0) _ _ : BuilderM Unit) b = _
    rw [if_neg hid, get_bind]
    simp only [hfind]
    rw [hcond, doIf_false_bind, get_bind, hlen, Nat.add_sub_cancel_left, releaseMarks_one, hrelease]
    simp only [htake]
    rfl
  refine ⟨_, hrun, b.close_visible _, ?_, b.close_stack _, b.close_nextId _, ?_, ?_⟩
  · refine TreeBuilder.ok_close hok.reporter hok.walker hok.sentinel
      (fun e he => hok.ids e ?_) hok.nextId
    rw [hstack]
    exact List.mem_append_left _ he
  · exact fun b₁ h₀ h => TreeBuilder.Since.close { h with stack := h₀.stack }
  · intro hnil
    rw [hnil]
    exact b.undoRecords_close

theorem restore_eq {w₀ w : Walker} {n : ℕ} (hok : w₀.Ok) (hs : w₀.frames.Since w.frames)
    (hmarks : w.liveMarks = n + 1) : ∃ frames, frames.v = w₀.frames.v ∧
      frames.journal = w₀.frames.journal ∧ frames.armed = true ∧
      frames.maxSizeSeen = w.frames.maxSizeSeen ∧
      w.restore ⟨w₀.frames.markOf, w₀.cursor, w₀.wrapDepth, w₀.cursorDesynced⟩ =
        some (({ w₀ with frames := frames, liveMarks := n + 1 } : Walker).released n) := by
  obtain ⟨frames, hrew, hv, hj, ha, hm⟩ := hs.rewindTo
  refine ⟨frames, hv, hj, ha, hm, ?_⟩
  have hcount : w₀.wrapDepth = ({ w with frames := frames, cursor := w₀.cursor
                                         wrapDepth := w₀.wrapDepth
                                         cursorDesynced := w₀.cursorDesynced } :
      Walker).stackWrapDepth := by
    rw [hok.counts]
    unfold Walker.stackWrapDepth
    rw [← hv]
  unfold Walker.restore
  rw [hrew]
  show (ite _ _ _ : Option Walker) = _
  rw [if_neg (not_not.mpr hcount)]
  refine (releaseMark_eq (n := n) (by exact hmarks)).trans ?_
  unfold Walker.released
  split
  · rfl
  · rfl

/-- **A rollback gives the builder of the checkpoint back.** -/
theorem rollback_spec (hok₀ : b₀.Ok env) (hs : b₀.Since b) (hok : b.Ok env)
    (hstack : b.checkpointStack = b₀.checkpointStack ++ [(b₀.nextCheckpointId, b₀.snapshot)]) :
    ∃ b', rollbackToId env b₀.nextCheckpointId b = some ((), b') ∧ b'.visible = b₀.visible ∧
      Closed env b₀ b b' := by
  have hfind := findCheckpoint_last hstack hok₀.ids
  have hlen : b.checkpointStack.length = b₀.checkpointStack.length + 1 := by simp [hstack]
  have htake : b.checkpointStack.take b₀.checkpointStack.length = b₀.checkpointStack := by
    rw [hstack, List.take_left]
  have hentry : b.checkpointStack[b₀.checkpointStack.length]? =
      some (b₀.nextCheckpointId, b₀.snapshot) := by simp [hstack]
  obtain ⟨log, arena, harena, hnodes, hgrown, hlog, hlogArmed⟩ := hs.arena.rewindTo
  obtain ⟨childIndex, hchild, hchild'⟩ := hs.childIndex.rewindTo
  obtain ⟨pending, hpending, hpending'⟩ := hs.pendingChildren.rewindTo
  obtain ⟨openFrames, hopen, hopen'⟩ := hs.openFrames.rewindTo
  obtain ⟨scopes, hscopes, hscopes'⟩ := hs.scopes.rewindTo
  obtain ⟨cookies, hcookies, hcookies'⟩ := hs.closedCookies.rewindTo
  obtain ⟨frames, hv, hj, ha, hm, hrestore⟩ :=
    restore_eq (n := b₀.checkpointStack.length) hok₀.walker hs.walkerFrames (hok.marks.trans hlen)
  -- the builder of the checkpoint, with the trails as they are now
  let c : TreeBuilder := { b with
    nodeWrites := log, arena := b₀.arena, childIndex := childIndex, pendingChildren := pending
    openFrames := openFrames, scopes := scopes
    walker := { b₀.walker with frames := frames, liveMarks := b₀.checkpointStack.length + 1 }
    nextCookie := b₀.nextCookie, closedCookies := cookies
    maxSpeculationDepthReached := b₀.maxSpeculationDepthReached, reporter := b₀.reporter }
  have hrewind :
      TreeBuilder.rewind env { b with checkpointStack := b₀.checkpointStack } b₀.snapshot =
      some (c.close b₀.checkpointStack) := by
    have hsize : ¬ (b₀.snapshot.nodesSize < 1 ∨ arena.length < b₀.snapshot.nodesSize) := by
      have := hok₀.sentinel
      simp only [TreeBuilder.snapshot]
      omega
    unfold TreeBuilder.rewind
    refine Option.bind_eq_some_iff.mpr ⟨(log, arena), harena, (if_neg hsize).trans ?_⟩
    refine Option.bind_eq_some_iff.mpr ⟨childIndex, hchild, ?_⟩
    refine Option.bind_eq_some_iff.mpr ⟨pending, hpending, ?_⟩
    refine Option.bind_eq_some_iff.mpr ⟨openFrames, hopen, ?_⟩
    refine Option.bind_eq_some_iff.mpr ⟨scopes, hscopes, ?_⟩
    refine Option.bind_eq_some_iff.mpr ⟨_, hrestore, ?_⟩
    refine Option.bind_eq_some_iff.mpr ⟨cookies, hcookies, ?_⟩
    refine Option.bind_eq_some_iff.mpr ⟨_, hs.reporter.truncateTo hok₀.reporter, ?_⟩
    have hcut : (log, arena).2.take b₀.snapshot.nodesSize = b₀.arena := hnodes
    rw [hcut]
    rfl
  have hrun : rollbackToId env b₀.nextCheckpointId b = some ((), c.close b₀.checkpointStack) := by
    show (ite (b₀.nextCheckpointId = 0) _ _ : BuilderM Unit) b = _
    rw [if_neg hok₀.nextId.ne', get_bind]
    simp only [hfind, hentry, hlen, Nat.sub_self, Walker.releaseMarks, htake, hrewind]
    rfl
  refine ⟨_, hrun, ?_, ?_, c.close_stack _, c.close_nextId _, ?_, ?_⟩
  · rw [c.close_visible]
    show (⟨b₀.arena, childIndex.v, pending.v, openFrames.v, scopes.v, _, frames.v, _, _,
      cookies.s, _,
      b.finished, _, _⟩ : Visible) = b₀.visible
    rw [hchild'.1, hpending'.1, hopen'.1, hscopes'.1, hcookies'.1, hv, hs.finished]
    rfl
  · refine TreeBuilder.ok_close hok₀.reporter (hok₀.walker.of_frames hv rfl) hok₀.sentinel
      (fun e he => hok.ids e ?_) hok.nextId
    rw [hstack]
    exact List.mem_append_left _ he
  · intro b₁ h₀ h
    refine TreeBuilder.Since.close ?_
    exact {
      arena := h₀.arena.congr hlog hlogArmed
      childIndex := h₀.childIndex.rewound h.childIndex hchild'
      pendingChildren := h₀.pendingChildren.rewound h.pendingChildren hpending'
      openFrames := h₀.openFrames.rewound h.openFrames hopen'
      scopes := h₀.scopes.rewound h.scopes hscopes'
      walkerFrames := h₀.walkerFrames.rewound h.walkerFrames ⟨hv, hj, ha, hm⟩
      closedCookies := h₀.closedCookies.congr hcookies'.1 hcookies'.2.1 hcookies'.2.2
      reporter := h₀.reporter
      finished := h.finished
      stack := h₀.stack }
  · intro hnil
    rw [hnil]
    exact c.undoRecords_close

def settle (env : BuilderEnv) (keep : Bool) (id : ℕ) : BuilderM Unit :=
  if keep then commitToId env id else rollbackToId env id

/-- A run of operations with checkpoints inside that are closed in nested order, committed (`keep`)
or rolled back. -/
inductive Script where
  | done
  | op (o : BuilderOp) (rest : Script)
  | block (body : Script) (keep : Bool) (rest : Script)

def Script.run (env : BuilderEnv) : Script → BuilderM Unit
  | .done => pure ()
  | .op o rest => do
    o.run env
    rest.run env
  | .block body keep rest => do
    let id ← checkpoint env
    body.run env
    settle env keep id
    rest.run env

def Script.checkpoints : Script → ℕ
  | .done => 0
  | .op _ rest => rest.checkpoints
  | .block body _ rest => body.checkpoints + 1 + rest.checkpoints

def Script.depth : Script → ℕ
  | .done => 0
  | .op _ rest => rest.depth
  | .block body _ rest => max (body.depth + 1) rest.depth

/-- What a run keeps. -/
structure Kept (env : BuilderEnv) (n : ℕ) (b b' : TreeBuilder) : Prop where
  ok : b'.Ok env
  stack : b'.checkpointStack = b.checkpointStack
  nextId : b'.nextCheckpointId ≤ b.nextCheckpointId + n
  /-- Earlier states can still be gone back to. -/
  since : ∀ b₀ : TreeBuilder, b₀.Since b → b₀.Since b'

theorem Kept.trans {m n : ℕ} {b'' : TreeBuilder} (h : Kept env m b b') (h' : Kept env n b' b'') :
    Kept env (m + n) b b'' := by
  refine ⟨h'.ok, h'.stack.trans h.stack, ?_, fun b₀ hs => h'.since b₀ (h.since b₀ hs)⟩
  have h₁ := h.nextId
  have h₂ := h'.nextId
  omega

theorem Kept.of_steps (h : Steps env b b') (hok : b.Ok env) : Kept env 0 b b' :=
  ⟨(h 0).ok hok, (h 0).stack, (h 0).nextId.le, fun b₀ hs => (h _).since b₀ le_rfl hs⟩

theorem Kept.mono {m n : ℕ} (h : Kept env m b b') (hmn : m ≤ n) : Kept env n b b' :=
  ⟨h.ok, h.stack, h.nextId.trans (Nat.add_le_add_left hmn _), h.since⟩

theorem settle_zero (env : BuilderEnv) (keep : Bool) (b : TreeBuilder) :
    settle env keep 0 b = some ((), b) := by
  cases keep <;> rfl

theorem Kept.block {n : ℕ} (keep : Bool) {b₂ : TreeBuilder} (hok : b.Ok env)
    (hbody : Kept env n b.checkpointed b₂) (hid : b.nextCheckpointId + 1 < 2 ^ 32) :
    ∃ b₃, settle env keep b.nextCheckpointId b₂ = some ((), b₃) ∧
      b₃.visible = (if keep then b₂.visible else b.visible) ∧
      Closed env b b₂ b₃ ∧ Kept env (n + 1) b b₃ := by
  have hmod : b.checkpointed.nextCheckpointId = b.nextCheckpointId + 1 := Nat.mod_eq_of_lt hid
  have hclosed : ∃ b₃, settle env keep b.nextCheckpointId b₂ = some ((), b₃) ∧
      b₃.visible = (if keep then b₂.visible else b.visible) ∧ Closed env b b₂ b₃ := by
    cases keep with
    | true => exact commit_spec hok.nextId.ne' hok.ids hbody.ok hbody.stack
    | false =>
      exact rollback_spec hok (hbody.since b b.since_checkpointed) hbody.ok hbody.stack
  obtain ⟨b₃, hrun, hvisible, hclosed⟩ := hclosed
  refine ⟨b₃, hrun, hvisible, hclosed, hclosed.ok, hclosed.stack, ?_, fun b₀ hs => ?_⟩
  · have := hbody.nextId
    rw [hclosed.nextId]
    omega
  · exact hclosed.since b₀ hs (hbody.since b₀ hs.checkpointed)

/-- **A run keeps what speculation needs.** -/
theorem Script.kept (s : Script) (hok : b.Ok env)
    (hid : b.nextCheckpointId + s.checkpoints < 2 ^ 32) (hrun : s.run env b = some ((), b')) :
    Kept env s.checkpoints b b' := by
  induction s generalizing b b' with
  | done =>
    cases hrun
    exact .of_steps (fun n => .refl env n b) hok
  | op o rest ih =>
    obtain ⟨_, b₁, h₁, h₂⟩ := bind_eq_some hrun
    have hop := Kept.of_steps ((BuilderOp.good o).steps b _ b₁ h₁) hok
    have hid₁ : b₁.nextCheckpointId + rest.checkpoints < 2 ^ 32 := by
      have := hop.nextId
      simp only [Script.checkpoints] at hid
      omega
    exact (hop.trans (ih hop.ok hid₁ h₂)).mono (by simp [Script.checkpoints])
  | block body keep rest ihbody ihrest =>
    simp only [Script.checkpoints] at hid
    obtain ⟨id, b₁, h₁, hrun⟩ := bind_eq_some hrun
    obtain ⟨_, b₂, h₂, hrun⟩ := bind_eq_some hrun
    obtain ⟨_, b₃, h₃, hrun⟩ := bind_eq_some hrun
    have hblock : Kept env (body.checkpoints + 1) b b₃ := by
      by_cases hdepth : b.checkpointStack.length < env.maxSpeculationDepth
      · rw [checkpoint_eq hok hdepth] at h₁
        cases h₁
        have hid₁ : b.nextCheckpointId + 1 < 2 ^ 32 := by omega
        have hmod : b.checkpointed.nextCheckpointId = b.nextCheckpointId + 1 :=
          Nat.mod_eq_of_lt hid₁
        have hbody := ihbody (hok.checkpointed hid₁) (by omega) h₂
        obtain ⟨b₄, hsettle, -, -, hkept⟩ := Kept.block keep hok hbody hid₁
        rw [hsettle] at h₃
        cases h₃
        exact hkept
      · -- the checkpoint does nothing, and so does closing it
        obtain ⟨rfl, hsteps⟩ := checkpoint_cap (not_lt.mp hdepth) h₁
        rw [settle_zero] at h₃
        cases h₃
        have hnoop := Kept.of_steps hsteps hok
        have hnext := hnoop.nextId
        have hbody := ihbody hnoop.ok (by omega) h₂
        exact (hnoop.trans hbody).mono (by omega)
    have hnext := hblock.nextId
    exact (hblock.trans (ihrest hblock.ok (by omega) hrun)).mono le_rfl

theorem Blind.run {x : BuilderM Unit} (hx : Blind x) {c : TreeBuilder} (hbc : b.visible = c.visible)
    (hb : x b = some ((), b')) : ∃ c', x c = some ((), c') ∧ c'.visible = b'.visible := by
  have hmap := hx b c hbc
  rw [hb] at hmap
  obtain ⟨⟨_, c'⟩, hc, heq⟩ := Option.map_eq_some_iff.mp hmap.symm
  exact ⟨c', hc, congrArg Prod.snd heq⟩

/-- **A run does the same to builders that look the same**, however many checkpoints are live, as
long as there is room for those of the run. -/
theorem Script.run_visible (s : Script) {c : TreeBuilder} (hb : b.Ok env) (hc : c.Ok env)
    (hbc : b.visible = c.visible) (hidb : b.nextCheckpointId + s.checkpoints < 2 ^ 32)
    (hidc : c.nextCheckpointId + s.checkpoints < 2 ^ 32)
    (hdb : b.checkpointStack.length + s.depth ≤ env.maxSpeculationDepth)
    (hdc : c.checkpointStack.length + s.depth ≤ env.maxSpeculationDepth)
    (hrun : s.run env b = some ((), b')) :
    ∃ c', s.run env c = some ((), c') ∧ c'.visible = b'.visible := by
  induction s generalizing b c b' with
  | done =>
    cases hrun
    exact ⟨c, rfl, hbc.symm⟩
  | op o rest ih =>
    simp only [Script.checkpoints, Script.depth] at hidb hidc hdb hdc
    obtain ⟨_, b₁, h₁, h₂⟩ := bind_eq_some hrun
    obtain ⟨c₁, k₁, hvis⟩ := (@BuilderOp.good env o).blind.run hbc h₁
    have sb := (BuilderOp.good o).steps b _ b₁ h₁ 0
    have sc := (BuilderOp.good o).steps c _ c₁ k₁ 0
    obtain ⟨c', k₂, hvis'⟩ := ih (sb.ok hb) (sc.ok hc) hvis.symm (by rw [sb.nextId]; exact hidb)
      (by rw [sc.nextId]; exact hidc) (by rw [sb.stack]; exact hdb) (by rw [sc.stack]; exact hdc) h₂
    exact ⟨c', Option.bind_eq_some_iff.mpr ⟨_, k₁, k₂⟩, hvis'⟩
  | block body keep rest ihbody ihrest =>
    simp only [Script.checkpoints, Script.depth] at hidb hidc hdb hdc
    obtain ⟨id, b₁, h₁, hrun₁⟩ := bind_eq_some hrun
    obtain ⟨_, b₂, h₂, hrun₂⟩ := bind_eq_some hrun₁
    obtain ⟨_, b₃, h₃, hrun₃⟩ := bind_eq_some hrun₂
    have hroomb : b.checkpointStack.length < env.maxSpeculationDepth := by omega
    have hroomc : c.checkpointStack.length < env.maxSpeculationDepth := by omega
    have hidb₁ : b.nextCheckpointId + 1 < 2 ^ 32 := by omega
    have hidc₁ : c.nextCheckpointId + 1 < 2 ^ 32 := by omega
    have hmodb : b.checkpointed.nextCheckpointId = b.nextCheckpointId + 1 := Nat.mod_eq_of_lt hidb₁
    have hmodc : c.checkpointed.nextCheckpointId = c.nextCheckpointId + 1 := Nat.mod_eq_of_lt hidc₁
    have hlenb : b.checkpointed.checkpointStack.length = b.checkpointStack.length + 1 := by
      simp [TreeBuilder.checkpointed]
    have hlenc : c.checkpointed.checkpointStack.length = c.checkpointStack.length + 1 := by
      simp [TreeBuilder.checkpointed]
    rw [checkpoint_eq hb hroomb] at h₁
    cases h₁
    -- the branch does the same behind both checkpoints
    obtain ⟨c₂, k₂, hvis₂⟩ := ihbody (hb.checkpointed hidb₁) (hc.checkpointed hidc₁) hbc (by omega)
      (by omega) (by omega) (by omega) h₂
    have keptb := body.kept (hb.checkpointed hidb₁) (by omega) h₂
    have keptc := body.kept (hc.checkpointed hidc₁) (by omega) k₂
    obtain ⟨b₄, hsettle, hvisb, -, kb⟩ := Kept.block keep hb keptb hidb₁
    obtain ⟨c₃, k₃, hvisc, -, kc⟩ := Kept.block keep hc keptc hidc₁
    rw [hsettle] at h₃
    cases h₃
    have hvis₃ : b₃.visible = c₃.visible := by
      rw [hvisb, hvisc, hvis₂, hbc]
    have hnextb := kb.nextId
    have hnextc := kc.nextId
    have hstackb := congrArg List.length kb.stack
    have hstackc := congrArg List.length kc.stack
    obtain ⟨c', k₄, hvis'⟩ :=
      ihrest kb.ok kc.ok hvis₃ (by omega) (by omega) (by omega) (by omega) hrun₃
    refine ⟨c', ?_, hvis'⟩
    refine Option.bind_eq_some_iff.mpr ⟨_, checkpoint_eq hc hroomc, ?_⟩
    refine Option.bind_eq_some_iff.mpr ⟨_, k₂, ?_⟩
    exact Option.bind_eq_some_iff.mpr ⟨_, k₃, k₄⟩

/-- The builders that a parser meets, with the number of checkpoints it has asked for: runs, and
checkpoints that are still live. -/
inductive Reachable (env : BuilderEnv) : ℕ → TreeBuilder → Prop where
  | start : Reachable env 0 .start
  | run {n : ℕ} {b b' : TreeBuilder} (s : Script) (h : Reachable env n b)
    (hrun : s.run env b = some ((), b')) : Reachable env (n + s.checkpoints) b'
  | checkpoint {n id : ℕ} {b b' : TreeBuilder} (h : Reachable env n b)
    (hrun : Parse.checkpoint env b = some (id, b')) : Reachable env (n + 1) b'

theorem TreeBuilder.ok_start (env : BuilderEnv) : TreeBuilder.start.Ok env where
  reporter := Reporter.ok_empty _
  walker := ⟨fun i fr h => by simp [TreeBuilder.start, Walker.start, TrailedStack.empty] at h, rfl⟩
  marks := rfl
  sentinel := Nat.one_pos
  ids := fun e he => by cases he
  nextId := Nat.one_pos

theorem Reachable.ok {n : ℕ} (h : Reachable env n b) (hn : n + 1 < 2 ^ 32) :
    b.Ok env ∧ b.nextCheckpointId ≤ n + 1 := by
  induction h with
  | start => exact ⟨TreeBuilder.ok_start env, le_rfl⟩
  | run s _ hrun ih =>
    obtain ⟨hok, hle⟩ := ih (by omega)
    have hkept := s.kept hok (by omega) hrun
    have hnext := hkept.nextId
    exact ⟨hkept.ok, by omega⟩
  | @checkpoint n id b b' _ hrun ih =>
    obtain ⟨hok, hle⟩ := ih (by omega)
    by_cases hdepth : b.checkpointStack.length < env.maxSpeculationDepth
    · rw [checkpoint_eq hok hdepth] at hrun
      cases hrun
      have hid : b.nextCheckpointId + 1 < 2 ^ 32 := by omega
      have hmod : b.checkpointed.nextCheckpointId = b.nextCheckpointId + 1 := Nat.mod_eq_of_lt hid
      exact ⟨hok.checkpointed hid, by omega⟩
    · obtain ⟨-, hsteps⟩ := checkpoint_cap (not_lt.mp hdepth) hrun
      have hnext := (hsteps 0).nextId
      exact ⟨(hsteps 0).ok hok, by omega⟩

/-- **Speculation is exact.**  A checkpoint that is taken while there is room for it can be rolled
back after any run, and the builder is where it was; or committed, and the builder is where the run
would have left it without the checkpoint.  When it was the last one, no undo record is left. -/
theorem speculation_exact (env : BuilderEnv) {n : ℕ} {b : TreeBuilder} (hb : Reachable env n b)
    (hdepth : b.checkpointStack.length < env.maxSpeculationDepth) (hn : n + 2 < 2 ^ 32) :
    ∃ id b₁, checkpoint env b = some (id, b₁) ∧ b₁.visible = b.visible ∧
      ∀ (s : Script) (b₂ : TreeBuilder), n + 2 + s.checkpoints < 2 ^ 32 →
        s.run env b₁ = some ((), b₂) →
        (∃ b₃, rollbackToId env id b₂ = some ((), b₃) ∧ b₃.visible = b.visible ∧
          b₃.walker.wrapDepth = b₃.walker.frames.v.countP (·.isWrap) ∧
          b₃.checkpointStack = b.checkpointStack ∧
          (b.checkpointStack = [] → b₃.undoRecords = 0)) ∧
        (∃ b₃, commitToId env id b₂ = some ((), b₃) ∧ b₃.visible = b₂.visible ∧
          b₃.walker.wrapDepth = b₃.walker.frames.v.countP (·.isWrap) ∧
          b₃.checkpointStack = b.checkpointStack ∧
          (b.checkpointStack = [] → b₃.undoRecords = 0) ∧
          (b.checkpointStack.length + 1 + s.depth ≤ env.maxSpeculationDepth →
            ∃ c, s.run env b = some ((), c) ∧ c.visible = b₃.visible ∧
              c.checkpointStack = b₃.checkpointStack)) := by
  obtain ⟨hok, hle⟩ := hb.ok (by omega)
  have hid : b.nextCheckpointId + 1 < 2 ^ 32 := by omega
  have hmod : b.checkpointed.nextCheckpointId = b.nextCheckpointId + 1 := Nat.mod_eq_of_lt hid
  refine ⟨_, _, checkpoint_eq hok hdepth, rfl, fun s b₂ hs hrun => ?_⟩
  have hkept := s.kept (hok.checkpointed hid) (by omega) hrun
  constructor
  · obtain ⟨b₃, hback, hvis, hclosed, -⟩ := Kept.block false hok hkept hid
    exact ⟨b₃, hback, hvis, hclosed.ok.walker.wrapDepth, hclosed.stack, hclosed.idle⟩
  · obtain ⟨b₃, hcommit, hvis, hclosed, -⟩ := Kept.block true hok hkept hid
    refine ⟨b₃, hcommit, hvis, hclosed.ok.walker.wrapDepth, hclosed.stack,
      hclosed.idle, fun hd => ?_⟩
    have hlen : b.checkpointed.checkpointStack.length = b.checkpointStack.length + 1 := by
      simp [TreeBuilder.checkpointed]
    obtain ⟨c, hc, hcvis⟩ := s.run_visible (hok.checkpointed hid) hok rfl (by omega) (by omega)
      (by omega) (by omega) hrun
    refine ⟨c, hc, hcvis.trans hvis.symm, ?_⟩
    rw [hclosed.stack, (s.kept hok (by omega) hc).stack]

end

def ruleOnly : GrammarSchema where
  lookupLexeme := fun _ => []
  isTokenValidInScope := fun _ _ => true
  isModeIntroducedKind := fun _ => false
  declaresLexemeToken := fun _ => false
  isEmptySpace := fun _ => false
  tokenName := fun _ => "Error"
  ruleName := fun _ => "root"
  bodyDefaultTokenKinds := []
  endOfInputImplies := ""
  errorKind := 1
  identifierKind := 2
  routeToRuleLeaf := fun _ _ => {}
  isAutoInternedWrapperRule := fun _ => false
  enterRule := fun rule => ⟨rule, 1⟩
  leaveRule := fun _ => {}
  advance := fun c _ => c
  expectedSet := fun _ => []

def ruleOnlyEnv (maxSpeculationDepth : ℕ) : BuilderEnv where
  schema := ruleOnly
  source := none
  reporter := { codes := ⟨fun _ => 0, fun _ => "", fun _ => "", fun _ => false⟩ }
  maxSpeculationDepth := maxSpeculationDepth

/-- A frame and a scope that are open before the checkpoint are closed behind it, and a rollback
opens them again. -/
theorem speculation_exact_closedBehind : ∃ b b₁ b₂ b₃ : TreeBuilder, ∃ id : ℕ,
    Reachable (ruleOnlyEnv 64) 0 b ∧ b.visible.scopes = [.paren] ∧
    checkpoint (ruleOnlyEnv 64) b = some (id, b₁) ∧
    Script.run (ruleOnlyEnv 64) (.op .popScope (.op (.closeFrame 1) .done)) b₁ = some ((), b₂) ∧
    b₂.visible.openFrames = [] ∧ rollbackToId (ruleOnlyEnv 64) id b₂ = some ((), b₃) ∧
    b₃.visible = b.visible ∧ b₃.undoRecords = 0 := by
  have hrun : ((Script.run (ruleOnlyEnv 64)
      (.op (.openFrame 1) (.op (.pushScope .paren) .done)) .start).bind fun p =>
        (Script.run (ruleOnlyEnv 64) (.op .popScope (.op (.closeFrame 1) .done))
          p.2.checkpointed).map fun q =>
            (p.2.scopes.v, p.2.checkpointStack.length, q.2.openFrames.v.length)) =
      some ([.paren], 0, 0) := by
    decide +kernel
  obtain ⟨⟨_, b⟩, hrun, hrest⟩ := Option.bind_eq_some_iff.mp hrun
  obtain ⟨⟨_, b₂⟩, hbranch, heq⟩ := Option.map_eq_some_iff.mp hrest
  have hscopes : b.visible.scopes = [.paren] := congrArg (fun x => x.1) heq
  have hstack : b.checkpointStack = [] := by
    exact List.length_eq_zero_iff.mp (congrArg (fun x => x.2.1) heq)
  have hopen : b₂.visible.openFrames = [] := by
    exact List.length_eq_zero_iff.mp (congrArg (fun x => x.2.2) heq)
  have hreach : Reachable (ruleOnlyEnv 64) 0 b := .run _ .start hrun
  have hroom : b.checkpointStack.length < (ruleOnlyEnv 64).maxSpeculationDepth := by
    rw [hstack]
    decide
  have hcheck := checkpoint_eq (hreach.ok (by decide)).1 hroom
  obtain ⟨id, b₁, hcp, -, hexact⟩ := speculation_exact (ruleOnlyEnv 64) hreach hroom (by decide)
  rw [hcheck] at hcp
  cases hcp
  obtain ⟨⟨b₃, hback, hvis, -, -, hidle⟩, -⟩ := hexact _ b₂ (by decide) hbranch
  exact ⟨b, _, b₂, b₃, _, hreach, hscopes, hcheck, hbranch, hopen, hback, hvis, hidle hstack⟩

/-- A checkpoint beyond the allowed number is not rolled back: the scope that was pushed behind it
stays. -/
theorem not_rollback_at_cap :
    Reachable (ruleOnlyEnv 1) 1 TreeBuilder.start.checkpointed ∧
    TreeBuilder.start.checkpointed.visible.scopes = [] ∧
    ∃ b₁ b₂ b₃ : TreeBuilder, ∃ id : ℕ,
      checkpoint (ruleOnlyEnv 1) TreeBuilder.start.checkpointed = some (id, b₁) ∧
      Script.run (ruleOnlyEnv 1) (.op (.pushScope .paren) .done) b₁ = some ((), b₂) ∧
      rollbackToId (ruleOnlyEnv 1) id b₂ = some ((), b₃) ∧ b₃.visible.scopes = [.paren] := by
  refine ⟨?_, rfl, ?_⟩
  · exact @Reachable.checkpoint _ 0 1 _ _ .start rfl
  · exact ⟨_, _, _, 0, rfl, rfl, rfl, rfl⟩

end DssPrime.Parse
