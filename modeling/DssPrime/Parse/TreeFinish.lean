import Mathlib
import DssPrime.Parse.TreeRuns

/-!
# The finished tree

`finish` gives every frame that is still open a leaf for what is missing and closes it, the
innermost first, and hands the nodes and the child index over.
-/

namespace DssPrime.Parse

def NodeFlags.missing : NodeFlags := 2

def NodeFlags.synthetic : NodeFlags := 8

/-- A finished tree. -/
structure Tree where
  arena : List Node
  childIndex : List ℕ
  root : Option ℕ
  diagnostics : Reporter

def setFinished : BuilderM Unit := fun b => some ((), { b with finished := true })

def missingNode (span : SourceSpan) : Node :=
  { kind := .error, flags := .missing ||| .synthetic ||| .hasError, span := span }

section

variable (env : BuilderEnv)

def endSpan (size : ℕ) : SourceSpan := .empty (if env.source.isSome then size else 0)

/-- Close the innermost frame at the end of the input.  `ancestors` are the places of the frames
inside it, and its own is added. -/
def finishTop (eof : SourceSpan) (ancestors : List RelatedLocation) :
    BuilderM (List RelatedLocation) := do
  let c ← view
  match c.openFrames.getLast? with
  | none => fatal
  | some fr => do
    emitAttached (missingNode eof)
    emitDiagnostic env {
      code := .other 0x0004, severity := .error, buffer := env.buffer, span := eof
      ruleContext := some fr.rule
      actual := "end of input while inside rule '" ++ env.schema.ruleName fr.rule ++ "'"
      related := ancestors }
    closeFrame env fr.cookie
    insertCookie fr.cookie
    pure (ancestors ++ [⟨env.buffer, fr.openerSpan,
      "inside rule '" ++ env.schema.ruleName fr.rule ++ "' opened here"⟩])

/-- Close the open frames; there are at most as many as the fuel. -/
def finishFrames (eof : SourceSpan) : ℕ → List RelatedLocation → BuilderM Unit
  | 0, _ => do
    let c ← view
    if c.openFrames.isEmpty then pure () else fatal
  | fuel + 1, ancestors => do
    let c ← view
    if c.openFrames.isEmpty then pure ()
    else do
      let ancestors ← finishTop env eof ancestors
      finishFrames eof fuel ancestors

def finish (size : ℕ) : BuilderM Tree := do
  let c ← view
  if c.finished then fatal
  else do
    setFinished
    finishFrames env (endSpan env size) c.openFrames.length []
    let c ← view
    doIf (!c.scopes.isEmpty) (addBuilderInvariant env ("scope stack non-empty at finish (" ++
      toString c.scopes.length ++ " unbalanced)") (endSpan env size))
    let c ← view
    pure (if c.arena.length ≤ 1 then ⟨[], [], none, c.reporter⟩
      else ⟨c.arena, c.childIndex, some 1, c.reporter⟩)

end

section

variable {env : BuilderEnv} {b b' : TreeBuilder}

theorem missingNode_hasError (span : SourceSpan) :
    (missingNode span).flags.has .hasError = true := by
  show NodeFlags.has (.missing ||| .synthetic ||| .hasError) .hasError = true
  decide

theorem emitAttached_frames {n : Node} {a : Unit} (h : emitAttached n b = some (a, b')) :
    b'.openFrames = b.openFrames := by
  obtain ⟨c, b₁, hv, h⟩ := bind_eq_some h
  cases hv
  cases hl : b.visible.openFrames.getLast? with
  | none =>
    simp only [hl] at h
    cases h
    rfl
  | some fr =>
    simp only [hl] at h
    cases h
    rfl

theorem closeUntil_top {fr : Frame} {fuel : ℕ} {a : Unit} (hs : b.tree.Shaped)
    (hl : b.openFrames.v.getLast? = some fr)
    (h : closeUntil env fr.cookie fuel b = some (a, b')) :
    b'.openFrames.v = b.openFrames.v.dropLast := by
  cases fuel with
  | zero => cases h
  | succ fuel =>
    obtain ⟨r, b₁, h₁, h⟩ := bind_eq_some h
    obtain ⟨-, -, hdrop, hr⟩ := closeTop_steps hs h₁
    obtain ⟨c, b₂, hv, h⟩ := bind_eq_some h
    cases hv
    have hr := hr fr hl
    simp only [decide_true] at hr
    subst hr
    cases h
    exact hdrop

theorem closeFrame_top {fr : Frame} {a : Unit} (hs : b.tree.Shaped)
    (hl : b.openFrames.v.getLast? = some fr) (h : closeFrame env fr.cookie b = some (a, b')) :
    b.openFrames.v.length ≤ b'.openFrames.v.length + 1 := by
  obtain ⟨was, b₁, h₁, h⟩ := bind_eq_some h
  obtain ⟨t₁, -⟩ := still_eraseCookie _ _ _ _ h₁
  obtain ⟨c, b₂, hv, h⟩ := bind_eq_some h
  cases hv
  have hopen : b₁.openFrames.v = b.openFrames.v :=
    List.reverse_inj.mp (congrArg TreeView.frames t₁)
  rw [← t₁] at hs
  rw [← hopen] at hl ⊢
  have hl' : b₁.visible.openFrames.getLast? = some fr := hl
  simp only [hl'] at h
  split at h
  · cases h
    omega
  have hfind : b₁.visible.openFrames.reverse.find? (·.cookie = fr.cookie) = some fr := by
    obtain ⟨ys, hys⟩ := List.getLast?_eq_some_iff.mp hl'
    rw [hys]
    simp
  simp only [hfind] at h
  obtain ⟨_, b₂, h₂, h⟩ := bind_eq_some h
  obtain ⟨t₂, -⟩ := (Still.doIf _ (still_addBuilderInvariant _ _)) _ _ _ h₂
  have hopen₂ : b₂.openFrames.v = b₁.openFrames.v :=
    List.reverse_inj.mp (congrArg TreeView.frames t₂)
  have hdrop := closeUntil_top (by rw [t₂]; exact hs) (by rw [hopen₂]; exact hl) h
  rw [hdrop, hopen₂, List.length_dropLast]
  omega

theorem finishTop_steps {eof : SourceSpan} {ancestors r : List RelatedLocation}
    (hs : b.tree.Shaped) (h : finishTop env eof ancestors b = some (r, b')) :
    TreeSteps b.tree [eof] b'.tree ∧ b.openFrames.v.length ≤ b'.openFrames.v.length + 1 := by
  obtain ⟨c, b₁, hv, h⟩ := bind_eq_some h
  cases hv
  cases hl : b.openFrames.v.getLast? with
  | none =>
    have hl' : b.visible.openFrames.getLast? = none := hl
    simp only [hl'] at h
    cases h
  | some fr =>
    have hl' : b.visible.openFrames.getLast? = some fr := hl
    simp only [hl'] at h
    obtain ⟨_, b₁, h₁, h⟩ := bind_eq_some h
    obtain ⟨_, b₂, h₂, h⟩ := bind_eq_some h
    obtain ⟨_, b₃, h₃, h⟩ := bind_eq_some h
    obtain ⟨_, b₄, h₄, h⟩ := bind_eq_some h
    cases h
    obtain ⟨hleaf, -⟩ := emitAttached_steps hl (by simp [missingNode])
      (fun _ => missingNode_hasError eof) h₁
    obtain ⟨t₂, -⟩ := still_emitDiagnostic _ _ _ _ h₂
    have hs₂ : b₂.tree.Shaped := by
      rw [t₂]
      exact (hleaf.shaped hs).1
    have hopen : b₂.openFrames.v = b.openFrames.v := by
      rw [List.reverse_inj.mp (congrArg TreeView.frames t₂), emitAttached_frames h₁]
    obtain ⟨hclose, -⟩ := closeFrame_steps hs₂ h₃
    have hle := closeFrame_top hs₂ (by rw [hopen]; exact hl) h₃
    obtain ⟨t₄, -⟩ := still_insertCookie _ _ _ _ h₄
    have hopen₄ : b'.openFrames.v = b₃.openFrames.v :=
      List.reverse_inj.mp (congrArg TreeView.frames t₄)
    rw [t₂] at hclose
    refine ⟨?_, ?_⟩
    · rw [t₄]
      exact hleaf.trans hclose
    · rw [hopen₄, ← hopen]
      exact hle

/-- **All open frames are closed**, and each gets a leaf. -/
theorem finishFrames_steps {eof : SourceSpan} {fuel : ℕ} {ancestors : List RelatedLocation}
    {a : Unit} (hs : b.tree.Shaped) (h : finishFrames env eof fuel ancestors b = some (a, b')) :
    ∃ k, k ≤ fuel ∧ b.openFrames.v.length ≤ k ∧
      TreeSteps b.tree (List.replicate k eof) b'.tree ∧ b'.openFrames.v = [] := by
  induction fuel generalizing b ancestors with
  | zero =>
    obtain ⟨c, b₁, hv, h⟩ := bind_eq_some h
    cases hv
    split at h
    · rename_i hempty
      have hnil : b.openFrames.v = [] := List.isEmpty_iff.mp hempty
      cases h
      exact ⟨0, le_rfl, by rw [hnil]; rfl, .refl _, hnil⟩
    · cases h
  | succ fuel ih =>
    obtain ⟨c, b₁, hv, h⟩ := bind_eq_some h
    cases hv
    split at h
    · rename_i hempty
      have hnil : b.openFrames.v = [] := List.isEmpty_iff.mp hempty
      cases h
      exact ⟨0, by omega, by rw [hnil]; rfl, .refl _, hnil⟩
    · obtain ⟨r, b₁, h₁, h⟩ := bind_eq_some h
      obtain ⟨hstep, hle⟩ := finishTop_steps hs h₁
      obtain ⟨k, hk, hlen, hsteps, hnil⟩ := ih (hstep.shaped hs).1 h
      exact ⟨k + 1, by omega, by omega, hstep.trans hsteps, hnil⟩

end

end DssPrime.Parse
