import Mathlib
import DssPrime.Parse.TreeOps

/-!
# Runs with checkpoints keep the shape

A run is any row of operations, checkpoints, commits and rollbacks, in any order (`Calls`): a commit
or a rollback may name an outer checkpoint while inner ones are live, or one that is gone.  The list
a run carries holds the ranges of the leaves that were pushed and not rolled back.
-/

namespace DssPrime.Parse

def TreeBuilder.isLive (b : TreeBuilder) (id : ℕ) : Bool := id ≠ 0 && (b.findCheckpoint id).isSome

/-- **The builders a run meets**, with the number of checkpoints asked for, the ranges of the leaves
pushed and not rolled back, and those ranges at each checkpoint. -/
inductive Calls (env : BuilderEnv) : ℕ → TreeBuilder → List SourceSpan →
    (ℕ → List SourceSpan) → Prop
  | start : Calls env 0 .start [] fun _ => []
  | op {n : ℕ} {b b' : TreeBuilder} {l : List SourceSpan} {at' : ℕ → List SourceSpan}
      (o : BuilderOp) : Calls env n b l at' → o.run env b = some ((), b') →
      Calls env n b' (l ++ o.leafSpan env b) at'
  | checkpoint {n id : ℕ} {b b' : TreeBuilder} {l : List SourceSpan} {at' : ℕ → List SourceSpan} :
      Calls env n b l at' → Parse.checkpoint env b = some (id, b') →
      Calls env (n + 1) b' l (Function.update at' id l)
  | commit {n : ℕ} {b b' : TreeBuilder} {l : List SourceSpan} {at' : ℕ → List SourceSpan} (id : ℕ) :
      Calls env n b l at' → commitToId env id b = some ((), b') → Calls env n b' l at'
  | rollback {n : ℕ} {b b' : TreeBuilder} {l : List SourceSpan} {at' : ℕ → List SourceSpan}
      (id : ℕ) : Calls env n b l at' → rollbackToId env id b = some ((), b') →
      Calls env n b' (if b.isLive id then at' id else l) at'

section

variable {env : BuilderEnv} {b b' b₀ : TreeBuilder} {at' : ℕ → List SourceSpan}
  {past : List TreeBuilder}

theorem tree_of_visible (h : b.visible = b'.visible) : b.tree = b'.tree := by
  have ha := congrArg Visible.arena h
  have hc := congrArg Visible.childIndex h
  have hp := congrArg Visible.pendingChildren h
  have hf := congrArg Visible.openFrames h
  simp only [TreeBuilder.visible] at ha hc hp hf
  simp [TreeBuilder.tree, ha, hc, hp, hf]

theorem finished_of_visible (h : b.visible = b'.visible) : b.finished = b'.finished :=
  congrArg Visible.finished h

/-- **The states of the live checkpoints**, the outermost first: each can be gone back to from those
after it, and had the shape. -/
structure Past (env : BuilderEnv) (at' : ℕ → List SourceSpan) (past : List TreeBuilder)
    (b : TreeBuilder) : Prop where
  length : past.length = b.checkpointStack.length
  state : ∀ k b₀, past[k]? = some b₀ → b₀.Ok env ∧
    b₀.checkpointStack = b.checkpointStack.take k ∧
    b.checkpointStack[k]? = some (b₀.nextCheckpointId, b₀.snapshot)
  shape : ∀ b₀ ∈ past, b₀.tree.Shaped ∧ b₀.tree.leafSpans = at' b₀.nextCheckpointId ∧
    b₀.finished = false
  nested : ∀ (j k : ℕ) (b₁ b₂ : TreeBuilder), j < k → past[j]? = some b₁ → past[k]? = some b₂ →
    b₁.Since b₂
  since : ∀ b₀ ∈ past, b₀.Since b

theorem Past.of_steps (h : Past env at' past b) (hs : Steps env b b') : Past env at' past b' where
  length := by rw [(hs 0).stack]; exact h.length
  state k b₀ hk := by rw [(hs 0).stack]; exact h.state k b₀ hk
  shape := h.shape
  nested := h.nested
  since b₀ hm := (hs _).since b₀ le_rfl (h.since b₀ hm)

theorem Past.checkpointed (h : Past env at' past b) (hok : b.Ok env) (hshape : b.tree.Shaped)
    (hfin : b.finished = false) : Past env
      (Function.update at' b.nextCheckpointId b.tree.leafSpans) (past ++ [b]) b.checkpointed where
  length := by simp [TreeBuilder.checkpointed, h.length]
  state k b₀ hk := by
    by_cases hlt : k < past.length
    · rw [List.getElem?_append_left hlt] at hk
      obtain ⟨h₁, h₂, h₃⟩ := h.state k b₀ hk
      rw [h.length] at hlt
      refine ⟨h₁, ?_, ?_⟩
      · show _ = (b.checkpointStack ++ _).take k
        rw [List.take_append_of_le_length (by omega), h₂]
      · show (b.checkpointStack ++ _)[k]? = _
        rw [List.getElem?_append_left hlt, h₃]
    · have hk' : k = past.length ∧ b = b₀ := by
        rw [List.getElem?_append_right (by omega)] at hk
        have : k - past.length = 0 := by
          by_contra hne
          obtain ⟨m, hm⟩ := Nat.exists_eq_succ_of_ne_zero hne
          rw [hm] at hk
          simp at hk
        rw [this] at hk
        exact ⟨by omega, by simpa using hk⟩
      obtain ⟨rfl, rfl⟩ := hk'
      rw [h.length]
      refine ⟨hok, ?_, ?_⟩
      · show _ = (b.checkpointStack ++ _).take _
        rw [List.take_left]
      · show (b.checkpointStack ++ _)[b.checkpointStack.length]? = _
        simp
  shape b₀ hm := by
    rcases List.mem_append.mp hm with hm | hm
    · obtain ⟨h₁, h₂, h₃⟩ := h.shape b₀ hm
      obtain ⟨k, hk⟩ := List.getElem?_of_mem hm
      have hmem := List.mem_of_getElem? (h.state k b₀ hk).2.2
      have hlt := hok.ids _ hmem
      have hlt : b₀.nextCheckpointId < b.nextCheckpointId := hlt
      rw [Function.update_of_ne (by omega)]
      exact ⟨h₁, h₂, h₃⟩
    · obtain rfl := List.mem_singleton.mp hm
      rw [Function.update_self]
      exact ⟨hshape, rfl, hfin⟩
  nested j k b₁ b₂ hjk hj hk := by
    by_cases hlt : k < past.length
    · rw [List.getElem?_append_left hlt] at hk
      rw [List.getElem?_append_left (by omega)] at hj
      exact h.nested j k b₁ b₂ hjk hj hk
    · have hklt := (List.getElem?_eq_some_iff.mp hk).1
      rw [List.length_append, List.length_singleton] at hklt
      obtain rfl : k = past.length := by omega
      rw [List.getElem?_append_left hjk] at hj
      have hb : b = b₂ := by simpa using hk
      subst hb
      exact h.since b₁ (List.mem_of_getElem? hj)
  since b₀ hm := by
    rcases List.mem_append.mp hm with hm | hm
    · exact (h.since b₀ hm).checkpointed
    · obtain rfl := List.mem_singleton.mp hm
      exact b₀.since_checkpointed

theorem TreeBuilder.Since.cut (h : b₀.Since b) {k : ℕ} (hk : b₀.checkpointStack.length < k)
    {w : Walker} (hw : w.frames = b.walker.frames) :
    b₀.Since { b with checkpointStack := b.checkpointStack.take k, walker := w } := by
  obtain ⟨rest, hstack, hrest⟩ := h.stack
  refine { h with
    walkerFrames := by rw [hw]; exact h.walkerFrames
    stack := ⟨rest.take (k - b₀.checkpointStack.length - 1), ?_, fun e he =>
      hrest e (List.mem_of_mem_take he)⟩ }
  show b.checkpointStack.take k = _
  obtain ⟨m, rfl⟩ : ∃ m, k = b₀.checkpointStack.length + (m + 1) :=
    ⟨k - b₀.checkpointStack.length - 1, by omega⟩
  rw [hstack, List.take_length_add_append, List.take_succ_cons]
  congr 3
  omega

theorem releaseMarks_eq {n : ℕ} : ∀ (m : ℕ) (w : Walker), w.liveMarks = n + 1 + m →
    Walker.releaseMarks m w = some { w with liveMarks := n + 1 }
  | 0, w, h => by
    show some w = _
    rw [← h]
  | m + 1, w, h => by
    have hrel := releaseMark_eq (w := w) (n := n + 1 + m) (by omega)
    show w.releaseMark.bind _ = _
    rw [hrel, Option.bind_some]
    unfold Walker.released
    rw [if_neg (by omega), releaseMarks_eq m _ rfl]

theorem releaseMarks_released {n m : ℕ} {w : Walker} (h : w.liveMarks = n + (m + 1)) :
    Walker.releaseMarks (m + 1) w = some (w.released n) := by
  induction m generalizing w with
  | zero =>
    rw [releaseMarks_one]
    exact releaseMark_eq h
  | succ m ih =>
    have hrel := releaseMark_eq (w := w) (n := n + (m + 1)) (by omega)
    show w.releaseMark.bind _ = _
    rw [hrel, Option.bind_some]
    have hstep : (w.released (n + (m + 1))) = { w with liveMarks := n + (m + 1) } := by
      unfold Walker.released
      rw [if_neg (by omega)]
    rw [hstep, ih rfl]
    rfl

theorem findCheckpoint_entry {id k : ℕ} (h : b.findCheckpoint id = some k) :
    ∃ snap, b.checkpointStack[k]? = some (id, snap) := by
  unfold TreeBuilder.findCheckpoint at h
  split at h
  · cases h
  · split at h
    · rename_i hk
      cases h
      obtain ⟨e, he, hid⟩ := Option.map_eq_some_iff.mp hk
      obtain ⟨i, snap⟩ := e
      obtain rfl : i = id := hid
      exact ⟨snap, he⟩
    · cases h

/-- What a run keeps. -/
structure Sane (env : BuilderEnv) (b : TreeBuilder) (l : List SourceSpan)
    (at' : ℕ → List SourceSpan) : Prop where
  ok : b.Ok env
  past : ∃ past, Past env at' past b
  shape : b.tree.Shaped
  leaves : b.tree.leafSpans = l
  unfinished : b.finished = false

theorem Past.take (h : Past env at' past b) {k : ℕ} (hk : k ≤ past.length) {c : TreeBuilder}
    (hstack : c.checkpointStack = b.checkpointStack.take k)
    (hsince : ∀ j b₀, j < k → past[j]? = some b₀ → b₀.Since c) : Past env at' (past.take k) c where
  length := by
    rw [hstack, List.length_take, List.length_take, h.length]
  state j b₀ hj := by
    have hjk : j < k := by
      have := (List.getElem?_eq_some_iff.mp hj).1
      rw [List.length_take] at this
      omega
    rw [List.getElem?_take_of_lt hjk] at hj
    obtain ⟨h₁, h₂, h₃⟩ := h.state j b₀ hj
    rw [hstack, List.take_take, Nat.min_eq_left hjk.le, List.getElem?_take_of_lt hjk]
    exact ⟨h₁, h₂, h₃⟩
  shape b₀ hm := h.shape b₀ (List.mem_of_mem_take hm)
  nested i j b₁ b₂ hij hi hj := by
    have hjk : j < k := by
      have := (List.getElem?_eq_some_iff.mp hj).1
      rw [List.length_take] at this
      omega
    rw [List.getElem?_take_of_lt (by omega)] at hi
    rw [List.getElem?_take_of_lt hjk] at hj
    exact h.nested i j b₁ b₂ hij hi hj
  since b₀ hm := by
    obtain ⟨j, hj⟩ := List.getElem?_of_mem hm
    have hjk : j < k := by
      have := (List.getElem?_eq_some_iff.mp hj).1
      rw [List.length_take] at this
      omega
    rw [List.getElem?_take_of_lt hjk] at hj
    exact hsince j b₀ hjk hj

theorem Past.stack_length (h : Past env at' past b) {j : ℕ} (hj : past[j]? = some b₀) :
    b₀.checkpointStack.length = j := by
  have hlt := (List.getElem?_eq_some_iff.mp hj).1
  rw [(h.state j b₀ hj).2.1, List.length_take, ← h.length]
  omega

theorem Untouched.of_checkpoint {id : ℕ} (h : checkpoint env b = some (id, b')) :
    Untouched b b' := by
  have h : (if env.maxSpeculationDepth ≤ b.checkpointStack.length then _ else _ : BuilderM ℕ) b =
      some (id, b') := h
  split at h
  · obtain ⟨_, b₁, h₁, h⟩ := bind_eq_some h
    cases h
    unfold doIf at h₁
    split at h₁
    · obtain ⟨_, b₂, h₂, h₁⟩ := bind_eq_some h₁
      cases h₂
      obtain ⟨t, f⟩ := still_emitDiagnostic _ _ _ _ h₁
      exact ⟨t, f⟩
    · cases h₁
      exact ⟨rfl, rfl⟩
  · cases hw : b.walker.snapshot with
    | none =>
      simp only [hw] at h
      cases h
    | some p =>
      simp only [hw] at h
      cases h
      exact ⟨rfl, rfl⟩

theorem Sane.of_steps {l : List SourceSpan} (h : Sane env b l at') (hs : Steps env b b')
    (ht : Untouched b b') : Sane env b' l at' := by
  obtain ⟨past, hp⟩ := h.past
  refine ⟨(hs 0).ok h.ok, ⟨past, hp.of_steps hs⟩, ?_, ?_, ?_⟩
  · rw [ht.1]
    exact h.shape
  · rw [ht.1]
    exact h.leaves
  · rw [ht.2]
    exact h.unfinished

/-- **A commit of any number** forgets its checkpoint and those inside it. -/
theorem Sane.commit {l : List SourceSpan} {id : ℕ} (h : Sane env b l at')
    (hrun : commitToId env id b = some ((), b')) :
    Sane env b' l at' ∧ b'.nextCheckpointId = b.nextCheckpointId := by
  have hrun : (if id = 0 then pure () else _ : BuilderM Unit) b = some ((), b') := hrun
  split at hrun
  · cases hrun
    exact ⟨h, rfl⟩
  rw [get_bind] at hrun
  cases hfind : b.findCheckpoint id with
  | none =>
    simp only [hfind] at hrun
    have hs := (good_addBuilderInvariant _ _).steps _ _ _ hrun
    exact ⟨h.of_steps hs (still_addBuilderInvariant _ _ _ _ _ hrun), (hs 0).nextId⟩
  | some k =>
    simp only [hfind] at hrun
    obtain ⟨snap, hentry⟩ := findCheckpoint_entry hfind
    obtain ⟨_, b₁, h₁, hrun⟩ := bind_eq_some hrun
    rw [get_bind] at hrun
    have hs := (Good.doIf _ (good_addBuilderInvariant _ _)).steps _ _ _ h₁
    have h₁ := h.of_steps hs ((Still.doIf _ (still_addBuilderInvariant _ _)) _ _ _ h₁)
    have hklt : k < b₁.checkpointStack.length := by
      rw [(hs 0).stack]
      exact (List.getElem?_eq_some_iff.mp hentry).1
    obtain ⟨m, hm⟩ : ∃ m, b₁.checkpointStack.length - k = m + 1 :=
      ⟨b₁.checkpointStack.length - k - 1, by omega⟩
    rw [hm, releaseMarks_released (n := k) (by rw [h₁.ok.marks]; omega)] at hrun
    have hlen : (b₁.checkpointStack.take k).length = k := by
      rw [List.length_take]
      omega
    have hb' : b' = b₁.close (b₁.checkpointStack.take k) := by
      unfold TreeBuilder.close
      rw [hlen]
      exact (congrArg Prod.snd (Option.some_inj.mp hrun)).symm
    obtain ⟨past, hp⟩ := h₁.past
    have htree : b'.tree = b₁.tree := tree_of_visible (by rw [hb']; exact b₁.close_visible _)
    have hfin : b'.finished = b₁.finished :=
      finished_of_visible (by rw [hb']; exact b₁.close_visible _)
    refine ⟨⟨?_, ⟨past.take k, hp.take (by rw [hp.length]; omega) ?_ fun j b₀ hjk hj => ?_⟩, ?_, ?_,
      ?_⟩, ?_⟩
    · rw [hb']
      exact TreeBuilder.ok_close h₁.ok.reporter h₁.ok.walker h₁.ok.sentinel
        (fun e he => h₁.ok.ids e (List.mem_of_mem_take he)) h₁.ok.nextId
    · rw [hb', b₁.close_stack]
    · rw [hb']
      exact TreeBuilder.Since.close ((hp.since b₀ (List.mem_of_getElem? hj)).cut
        (by rw [hp.stack_length hj]; exact hjk) rfl)
    · rw [htree]
      exact h₁.shape
    · rw [htree]
      exact h₁.leaves
    · rw [hfin]
      exact h₁.unfinished
    · rw [hb', b₁.close_nextId, (hs 0).nextId]

/-- **A rollback of any number** goes back to its checkpoint, or does nothing. -/
theorem Sane.rollback {l : List SourceSpan} {id : ℕ} (h : Sane env b l at')
    (hrun : rollbackToId env id b = some ((), b')) :
    Sane env b' (if b.isLive id then at' id else l) at' ∧
      b'.nextCheckpointId = b.nextCheckpointId := by
  have hrun' : (if id = 0 then pure () else _ : BuilderM Unit) b = some ((), b') := hrun
  unfold TreeBuilder.isLive
  split at hrun'
  · rename_i hid
    cases hrun'
    simp only [hid, ne_eq, not_true_eq_false, decide_false, Bool.false_and, Bool.false_eq_true,
      if_false]
    exact ⟨h, trivial⟩
  rename_i hid
  rw [get_bind] at hrun'
  cases hfind : b.findCheckpoint id with
  | none =>
    simp only [hfind] at hrun'
    have hs := (good_addBuilderInvariant _ _).steps _ _ _ hrun'
    simp only [Option.isSome_none, Bool.and_false, Bool.false_eq_true, if_false]
    exact ⟨h.of_steps hs (still_addBuilderInvariant _ _ _ _ _ hrun'), (hs 0).nextId⟩
  | some k =>
    obtain ⟨snap, hentry⟩ := findCheckpoint_entry hfind
    have hklt := (List.getElem?_eq_some_iff.mp hentry).1
    obtain ⟨past, hp⟩ := h.past
    have hkp : k < past.length := by
      rw [hp.length]
      exact hklt
    obtain ⟨b₀, hb₀⟩ : ∃ b₀, past[k]? = some b₀ := ⟨_, List.getElem?_eq_getElem hkp⟩
    obtain ⟨hok₀, hstack₀, hentry₀⟩ := hp.state k b₀ hb₀
    obtain ⟨rfl, rfl⟩ : id = b₀.nextCheckpointId ∧ snap = b₀.snapshot := by
      simpa using hentry.symm.trans hentry₀
    -- the builder without the checkpoints inside
    let c : TreeBuilder := { b with
      checkpointStack := b.checkpointStack.take (k + 1)
      walker := { b.walker with liveMarks := k + 1 } }
    have hcstack : c.checkpointStack =
        b₀.checkpointStack ++ [(b₀.nextCheckpointId, b₀.snapshot)] := by
      show b.checkpointStack.take (k + 1) = _
      rw [hstack₀, List.take_add_one, hentry₀]
      rfl
    have hlen₀ : b₀.checkpointStack.length = k := hp.stack_length hb₀
    have hcok : c.Ok env := by
      refine ⟨h.ok.reporter, h.ok.walker.of_frames rfl rfl, ?_, h.ok.sentinel, fun e he =>
        h.ok.ids e (List.mem_of_mem_take he), h.ok.nextId⟩
      rw [hcstack, List.length_append, hlen₀]
      rfl
    have hcut : ∀ j b₁, j ≤ k → past[j]? = some b₁ → b₁.Since c := fun j b₁ hjk hj =>
      (hp.since b₁ (List.mem_of_getElem? hj)).cut (by rw [hp.stack_length hj]; omega) rfl
    obtain ⟨b₂, hback, hvis, hclosed⟩ := rollback_spec hok₀ (hcut k b₀ le_rfl hb₀) hcok hcstack
    have hsame : b' = b₂ := by
      have hrel := releaseMarks_eq (n := k) (b.checkpointStack.length - (k + 1)) b.walker
        (by rw [h.ok.marks]; omega)
      have hback' : (if b₀.nextCheckpointId = 0 then pure () else _ : BuilderM Unit) c =
          some ((), b₂) := hback
      rw [if_neg hid, get_bind] at hback'
      have hcfind : c.findCheckpoint b₀.nextCheckpointId = some k := by
        rw [← hlen₀]
        exact findCheckpoint_last hcstack hok₀.ids
      have hcentry : c.checkpointStack[k]? = some (b₀.nextCheckpointId, b₀.snapshot) := by
        rw [hcstack, ← hlen₀]
        simp
      have hclen : c.checkpointStack.length - (k + 1) = 0 := by
        rw [hcstack, List.length_append, hlen₀]
        simp
      simp only [hfind, hentry, hrel] at hrun'
      simp only [hcfind, hcentry, hclen, Walker.releaseMarks] at hback'
      have htake : c.checkpointStack.take k = b.checkpointStack.take k := by
        show (b.checkpointStack.take (k + 1)).take k = _
        rw [List.take_take, Nat.min_eq_left (by omega)]
      rw [htake] at hback'
      cases hrew : TreeBuilder.rewind env { b with
          checkpointStack := b.checkpointStack.take k
          walker := { b.walker with liveMarks := k + 1 } } b₀.snapshot with
      | none =>
        simp only [hrew] at hrun'
        cases hrun'
      | some b₃ =>
        simp only [hrew] at hrun'
        have hrew' : TreeBuilder.rewind env { c with
            checkpointStack := b.checkpointStack.take k
            walker := c.walker } b₀.snapshot = some b₃ := hrew
        simp only [hrew'] at hback'
        cases hrun'
        cases hback'
        rfl
    subst hsame
    obtain ⟨hshape₀, hleaves₀, hfin₀⟩ := hp.shape b₀ (List.mem_of_getElem? hb₀)
    have hlive : (decide (b₀.nextCheckpointId ≠ 0) && (some k).isSome) = true := by simp [hid]
    rw [hlive, if_pos rfl]
    refine ⟨⟨hclosed.ok, ⟨past.take k, hp.take hkp.le (by rw [hclosed.stack, hstack₀])
      fun j b₁ hjk hj => hclosed.since b₁ (hp.nested j k b₁ b₀ hjk hj hb₀) (hcut j b₁ hjk.le hj)⟩,
      ?_, ?_, ?_⟩, hclosed.nextId⟩
    · rw [tree_of_visible hvis]
      exact hshape₀
    · rw [tree_of_visible hvis]
      exact hleaves₀
    · rw [finished_of_visible hvis]
      exact hfin₀

theorem shaped_start : TreeBuilder.start.tree.Shaped := by
  refine ⟨[], 0, fun _ => [], fun _ => 0, ⟨?_, .closed [], rfl, fun _ => rfl, ?_, by simp⟩⟩
  · have hclosed : ∀ i, ¬ TreeBuilder.start.tree.IsClosed i := by
      rintro i ⟨h0, h1, -⟩
      simp only [TreeBuilder.start, TreeBuilder.tree, List.length_singleton] at h1
      omega
    refine ⟨by decide, by decide, fun i => ?_, ?_, ?_, ?_, fun i hi => absurd hi (hclosed i),
      fun i j hi => absurd hi (hclosed i), ?_, by simp, by simp, by decide⟩
    · simp only [TreeBuilder.start, TreeBuilder.tree, TrailedStack.empty, List.append_nil,
        List.not_mem_nil, List.length_singleton, false_iff]
      omega
    · intro h
      simp [TreeBuilder.start, TreeBuilder.tree] at h
    · intro i h0 h1
      simp only [TreeBuilder.start, TreeBuilder.tree, List.length_singleton] at h1
      omega
    · intro i h0 h1
      simp only [TreeBuilder.start, TreeBuilder.tree, List.length_singleton] at h1
      omega
    · intro i hi
      simp [TreeBuilder.start, TreeBuilder.tree, TrailedStack.empty] at hi
  · intro f hf
    simp [TreeBuilder.start, TreeBuilder.tree, TrailedStack.empty] at hf

/-- **Every run keeps the shape**, and its leaves are those that were pushed and not rolled back. -/
theorem Calls.sane {n : ℕ} {l : List SourceSpan} (h : Calls env n b l at') (hn : n + 1 < 2 ^ 32) :
    Sane env b l at' ∧ b.nextCheckpointId ≤ n + 1 := by
  induction h with
  | start =>
    refine ⟨⟨TreeBuilder.ok_start env, ⟨[], rfl, by simp, by simp, by simp, by simp⟩, shaped_start,
      by decide, rfl⟩, le_rfl⟩
  | @op n b b' l at' o _ hrun ih =>
    obtain ⟨hk, hle⟩ := ih hn
    have hs := (BuilderOp.good o).steps _ _ _ hrun
    obtain ⟨htree, hfin⟩ := BuilderOp.steps hk.shape hrun
    obtain ⟨hshape, hleaves⟩ := htree.shaped hk.shape
    obtain ⟨past, hp⟩ := hk.past
    refine ⟨⟨(hs 0).ok hk.ok, ⟨past, hp.of_steps hs⟩, hshape, by rw [hleaves, hk.leaves], by
      rw [hfin, hk.unfinished]⟩, ?_⟩
    rw [(hs 0).nextId]
    exact hle
  | @checkpoint n id b b' l at' _ hrun ih =>
    obtain ⟨hk, hle⟩ := ih (by omega)
    obtain ⟨past, hp⟩ := hk.past
    by_cases hdepth : b.checkpointStack.length < env.maxSpeculationDepth
    · rw [checkpoint_eq hk.ok hdepth] at hrun
      cases hrun
      have hid : b.nextCheckpointId + 1 < 2 ^ 32 := by omega
      have hmod : b.checkpointed.nextCheckpointId = b.nextCheckpointId + 1 := Nat.mod_eq_of_lt hid
      have hpast := hp.checkpointed hk.ok hk.shape hk.unfinished
      rw [hk.leaves] at hpast
      exact ⟨⟨hk.ok.checkpointed hid, ⟨_, hpast⟩, hk.shape, hk.leaves, hk.unfinished⟩, by omega⟩
    · obtain ⟨rfl, hs⟩ := checkpoint_cap (not_lt.mp hdepth) hrun
      have hk' := hk.of_steps hs (Untouched.of_checkpoint hrun)
      obtain ⟨past', hp'⟩ := hk'.past
      refine ⟨⟨hk'.ok, ⟨past', { hp' with shape := fun b₀ hm => ?_ }⟩, hk'.shape, hk'.leaves,
        hk'.unfinished⟩, by rw [(hs 0).nextId]; omega⟩
      obtain ⟨j, hj⟩ := List.getElem?_of_mem hm
      have hpos := (hp'.state j b₀ hj).1.nextId
      rw [Function.update_of_ne (by omega)]
      exact hp'.shape b₀ hm
  | commit id _ hrun ih =>
    obtain ⟨hk, hle⟩ := ih hn
    obtain ⟨hk', hnext⟩ := hk.commit hrun
    exact ⟨hk', by rw [hnext]; exact hle⟩
  | rollback id _ hrun ih =>
    obtain ⟨hk, hle⟩ := ih hn
    obtain ⟨hk', hnext⟩ := hk.rollback hrun
    exact ⟨hk', by rw [hnext]; exact hle⟩

end

end DssPrime.Parse
