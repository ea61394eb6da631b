import Mathlib

/-!
# The schedule interpreter

A pipeline is a tree of pass leaves, bounded unrolls and fixpoints.  `optimize` walks it depth first
and keeps accounts: the passes run, the passes that changed the module, the same under each pass id,
and whether the fixpoints converged.  A failing pass latches `stopped`, and everything above it
unwinds.

The passes and the verifier are a parameter: `Env` gives their outcome at every invocation.  Two
fields of the state are not the interpreter's: `log` lists the passes that ran, and `executed` the
fixpoints, each with the passes of every iteration it made.
-/

namespace DssPrime

namespace Schedule

def kPassIdCount : ℕ := 9

def kMaxPipelineInvocations : ℕ := 4096

/-- A schedule. -/
inductive Node where
  | leaf (passId : ℕ)
  | unroll (count : ℕ) (children : List Node)
  | fixpoint (count : ℕ) (children : List Node)

def saturate (total : ℕ) : ℕ :=
  if kMaxPipelineInvocations < total then kMaxPipelineInvocations + 1 else total

mutual

/-- The worst-case number of pass invocations, saturated just above the budget. -/
def optPipelineCost : Node → ℕ
  | .leaf _ => 1
  | .unroll count children =>
    match bodyCost children 0 with
    | some body => saturate (body * count)
    | none => kMaxPipelineInvocations + 1
  | .fixpoint count children =>
    match bodyCost children 0 with
    | some body => saturate (body * if count = 0 then 1 else count)
    | none => kMaxPipelineInvocations + 1

def bodyCost : List Node → ℕ → Option ℕ
  | [], body => some body
  | n :: ns, body =>
    if kMaxPipelineInvocations < body + optPipelineCost n then none
    else bodyCost ns (body + optPipelineCost n)

end

structure PassResult where
  ok : Bool
  mutated : Bool
  errors : ℕ

structure Verdict where
  ok : Bool
  errors : ℕ

/-- What is outside of the interpreter: the outcome of the `n`-th pass invocation, of the
verification after it, and of the final one. -/
structure Env where
  entryErrorCount : ℕ
  verifyEveryPass : Bool
  outcome : ℕ → PassResult
  verify : ℕ → Verdict
  finalVerify : Verdict

structure TruncatedFixpoint where
  path : List ℕ
  cap : ℕ
  lastDelta : ℕ

inductive Diagnostic where
  | pipelineMalformed
  | returnFalseWithoutDiagnostic
  | unknownPassId (passId : ℕ)
  | fixpointTruncated (t : TruncatedFixpoint)

structure Entry where
  passId : ℕ
  mutated : Bool
  failed : Bool

structure Executed where
  count : ℕ
  iterations : List (List Entry)

/-- The state of the interpreter. -/
structure St where
  passesRun : ℕ
  passesMutated : ℕ
  passMutationCount : ℕ → ℕ
  errorCount : ℕ
  reported : List Diagnostic
  stopped : Bool
  completedFixpoints : ℕ
  allFixpointsConverged : Bool
  truncated : List TruncatedFixpoint
  nodePath : List ℕ
  log : List Entry
  executed : List Executed

def St.start (env : Env) : St where
  passesRun := 0
  passesMutated := 0
  passMutationCount := fun _ => 0
  errorCount := env.entryErrorCount
  reported := []
  stopped := false
  completedFixpoints := 0
  allFixpointsConverged := true
  truncated := []
  nodePath := []
  log := []
  executed := []

def St.reportError (s : St) (d : Diagnostic) : St :=
  { s with errorCount := s.errorCount + 1, reported := s.reported ++ [d] }

def runPass (env : Env) (n p : ℕ) : PassResult :=
  if p < kPassIdCount then env.outcome n else ⟨false, false, 1⟩

def runLeaf (env : Env) (p : ℕ) (s : St) : St :=
  let r := runPass env s.passesRun p
  let v := env.verify s.passesRun
  let s := { s with passesRun := s.passesRun + 1, errorCount := s.errorCount + r.errors }
  if r.ok = false then
    let s := if s.errorCount ≤ env.entryErrorCount then s.reportError .returnFalseWithoutDiagnostic
      else s
    { s with stopped := true, log := s.log ++ [⟨p, false, true⟩] }
  else if r.mutated && decide (kPassIdCount ≤ p) then
    let s := { s with passesMutated := s.passesMutated + 1 }.reportError (.unknownPassId p)
    { s with stopped := true, log := s.log ++ [⟨p, true, true⟩] }
  else
    let s := if r.mutated then
        { s with
          passesMutated := s.passesMutated + 1
          passMutationCount := Function.update s.passMutationCount p (s.passMutationCount p + 1) }
      else s
    if env.verifyEveryPass then
      { s with
        errorCount := s.errorCount + v.errors
        stopped := !v.ok
        log := s.log ++ [⟨p, r.mutated, !v.ok⟩] }
    else { s with log := s.log ++ [⟨p, r.mutated, false⟩] }

def unrollLoop (body : St → St) : ℕ → St → St
  | 0, s => s
  | k + 1, s => if s.stopped then s else unrollLoop body k (body s)

structure LoopEnd where
  converged : Bool
  lastDelta : ℕ
  iterations : List (List Entry)
  state : St

def fixpointLoop (body : St → St) : ℕ → ℕ → List (List Entry) → St → LoopEnd
  | 0, lastDelta, iterations, s => ⟨false, lastDelta, iterations, s⟩
  | left + 1, lastDelta, iterations, s =>
    let s' := body s
    let iterations := iterations ++ [s'.log.drop s.log.length]
    if s'.stopped then ⟨false, lastDelta, iterations, s'⟩
    else if s'.passesMutated = s.passesMutated then
      ⟨true, s'.passesMutated - s.passesMutated, iterations, s'⟩
    else fixpointLoop body left (s'.passesMutated - s.passesMutated) iterations s'

def runFixpoint (body : St → St) (count : ℕ) (s : St) : St :=
  let cap := if count = 0 then 1 else count
  let e := fixpointLoop body cap 0 [] s
  let s' := { e.state with executed := e.state.executed ++ [(⟨count, e.iterations⟩ : Executed)] }
  if s'.stopped then s'
  else
    { s' with
      completedFixpoints := s'.completedFixpoints + 1
      allFixpointsConverged := s'.allFixpointsConverged && e.converged
      truncated := if e.converged then s'.truncated
        else s'.truncated ++ [(⟨s.nodePath, cap, e.lastDelta⟩ : TruncatedFixpoint)] }

mutual

def run (env : Env) : Node → List ℕ → St → St
  | .leaf p, path, s => if s.stopped then s else runLeaf env p { s with nodePath := path }
  | .unroll count children, path, s =>
    if s.stopped then s
    else unrollLoop (fun s => runChildren env children s.nodePath 0 s) count
      { s with nodePath := path }
  | .fixpoint count children, path, s =>
    if s.stopped then s
    else runFixpoint (fun s => runChildren env children s.nodePath 0 s) count
      { s with nodePath := path }

def runChildren (env : Env) : List Node → List ℕ → ℕ → St → St
  | [], _, _, s => s
  | n :: ns, base, i, s =>
    if s.stopped then s else runChildren env ns base (i + 1) (run env n (base ++ [i]) s)

end

structure OptResult where
  ok : Bool
  fixedPointReached : Bool
  state : St

def optimize (env : Env) (schedule : Node) : OptResult :=
  if optPipelineCost schedule = 0 then
    ⟨false, false, (St.start env).reportError .pipelineMalformed⟩
  else
    let s := run env schedule [] (St.start env)
    if s.stopped then ⟨false, false, s⟩
    else
      let reached := decide (0 < s.completedFixpoints) && s.allFixpointsConverged
      let s := if reached then s
        else { s with reported := s.reported ++ s.truncated.map .fixpointTruncated }
      if !env.verifyEveryPass && s.errorCount == env.entryErrorCount then
        let s := { s with errorCount := s.errorCount + env.finalVerify.errors }
        ⟨env.finalVerify.ok && s.errorCount == env.entryErrorCount, reached, s⟩
      else ⟨s.errorCount == env.entryErrorCount, reached, s⟩

def Executed.LastQuiet (f : Executed) : Prop :=
  ∀ last, f.iterations.getLast? = some last → ∀ e ∈ last, e.mutated = false

def Executed.WithinCap (f : Executed) : Prop :=
  f.iterations ≠ [] ∧ f.iterations.length ≤ max 1 f.count

/-- The counters agree with the log. -/
structure Accounts (s : St) : Prop where
  passesRun : s.passesRun = s.log.length
  mutated : s.passesMutated = s.log.countP (·.mutated)
  perPass : ∑ p ∈ Finset.range kPassIdCount, s.passMutationCount p = s.passesMutated
  running : s.stopped = false → ∀ e ∈ s.log, e.failed = false
  stopped : s.stopped = true → ∃ front last, s.log = front ++ [last] ∧ last.failed = true ∧
    ∀ e ∈ front, e.failed = false
  withinCap : ∀ f ∈ s.executed, f.WithinCap
  completed : s.stopped = false → s.completedFixpoints = s.executed.length
  converged : s.stopped = false →
    (s.allFixpointsConverged = true ↔ ∀ f ∈ s.executed, f.LastQuiet)

def Keeps (body : St → St) : Prop :=
  ∀ s, Accounts s → s.stopped = false → Accounts (body s) ∧ s.log <+: (body s).log

theorem accounts_start (env : Env) : Accounts (St.start env) := by
  constructor <;> simp [St.start]

theorem Accounts.setPath {s : St} (h : Accounts s) (path : List ℕ) :
    Accounts { s with nodePath := path } :=
  ⟨h.passesRun, h.mutated, h.perPass, h.running, h.stopped, h.withinCap, h.completed, h.converged⟩

theorem sum_update {f : ℕ → ℕ} {p : ℕ} (hp : p < kPassIdCount) :
    ∑ q ∈ Finset.range kPassIdCount, Function.update f p (f p + 1) q =
      ∑ q ∈ Finset.range kPassIdCount, f q + 1 := by
  have hmem : p ∈ Finset.range kPassIdCount := Finset.mem_range.2 hp
  rw [Finset.sum_update_of_mem hmem, ← Finset.add_sum_erase _ f hmem,
    Finset.sdiff_singleton_eq_erase]
  omega

theorem Accounts.push {s s' : St} (h : Accounts s) (hs : s.stopped = false) (e : Entry)
    (hrun : s'.passesRun = s.passesRun + 1) (hlog : s'.log = s.log ++ [e])
    (hmut : s'.passesMutated = s.passesMutated + if e.mutated then 1 else 0)
    (hper : ∑ p ∈ Finset.range kPassIdCount, s'.passMutationCount p = s'.passesMutated)
    (hstop : s'.stopped = e.failed) (hexec : s'.executed = s.executed)
    (hdone : s'.completedFixpoints = s.completedFixpoints)
    (hconv : s'.allFixpointsConverged = s.allFixpointsConverged) :
    Accounts s' ∧ s.log <+: s'.log := by
  have hfine := h.running hs
  refine ⟨⟨?_, ?_, hper, ?_, ?_, ?_, ?_, ?_⟩, by rw [hlog]; exact List.prefix_append _ _⟩
  · rw [hrun, hlog, List.length_append, h.passesRun, List.length_singleton]
  · rw [hmut, hlog, List.countP_append, h.mutated, List.countP_singleton]
  · intro hgo d hd
    rw [hlog, List.mem_append, List.mem_singleton] at hd
    rcases hd with hd | rfl
    · exact hfine d hd
    · rw [← hstop, hgo]
  · intro hstopped
    exact ⟨s.log, e, hlog, hstop ▸ hstopped, hfine⟩
  · rw [hexec]; exact h.withinCap
  · rw [hdone, hexec]; exact fun _ => h.completed hs
  · rw [hconv, hexec]; exact fun _ => h.converged hs

theorem keeps_runLeaf (env : Env) (p : ℕ) : Keeps (runLeaf env p) := by
  intro s h hs
  have hguard : (runPass env s.passesRun p).ok = true → p < kPassIdCount := by
    intro hok
    by_contra hp
    rw [runPass, if_neg hp] at hok
    cases hok
  unfold runLeaf
  by_cases hok : (runPass env s.passesRun p).ok = false
  · simp only [hok, if_true]
    by_cases hfew : s.errorCount + (runPass env s.passesRun p).errors ≤ env.entryErrorCount
    · simp only [hfew, if_true]
      exact h.push hs ⟨p, false, true⟩ rfl rfl rfl h.perPass rfl rfl rfl rfl
    · simp only [hfew, if_false]
      exact h.push hs ⟨p, false, true⟩ rfl rfl rfl h.perPass rfl rfl rfl rfl
  · have hp := hguard (by simpa using hok)
    simp only [hok, if_false, Bool.false_eq_true, decide_eq_false (not_le.2 hp), Bool.and_false]
    refine h.push hs ⟨p, (runPass env s.passesRun p).mutated,
      env.verifyEveryPass && !(env.verify s.passesRun).ok⟩ ?_ ?_ ?_ ?_ ?_ ?_ ?_ ?_ <;>
      cases hmut : (runPass env s.passesRun p).mutated <;> cases env.verifyEveryPass <;>
      simp [hs, h.perPass, sum_update hp]

theorem keeps_unrollLoop {body : St → St} (hbody : Keeps body) (k : ℕ) :
    Keeps (unrollLoop body k) := by
  induction k with
  | zero => intro s h hs; exact ⟨h, List.prefix_rfl⟩
  | succ k ih =>
    intro s h hs
    obtain ⟨hb, hpre⟩ := hbody s h hs
    rw [unrollLoop, hs]
    simp only [Bool.false_eq_true, if_false]
    by_cases hstop : (body s).stopped = true
    · cases k <;> simp [unrollLoop, hstop, hb, hpre]
    · obtain ⟨hk, hpre'⟩ := ih (body s) hb (by simpa using hstop)
      exact ⟨hk, hpre.trans hpre'⟩

theorem quiet_iff {s s' : St} (h : Accounts s) (h' : Accounts s') (hpre : s.log <+: s'.log) :
    s'.passesMutated = s.passesMutated ↔
      ∀ e ∈ s'.log.drop s.log.length, e.mutated = false := by
  obtain ⟨added, hlog⟩ := hpre
  rw [h.mutated, h'.mutated, ← hlog, List.countP_append, List.drop_left, Nat.add_eq_left,
    List.countP_eq_zero]
  simp

theorem fixpointLoop_spec {body : St → St} (hbody : Keeps body) (left : ℕ) :
    ∀ lastDelta iterations s, Accounts s → s.stopped = false →
      ∃ new, (fixpointLoop body (left + 1) lastDelta iterations s).iterations =
          iterations ++ new ∧ new ≠ [] ∧ new.length ≤ left + 1 ∧
        Accounts (fixpointLoop body (left + 1) lastDelta iterations s).state ∧
        s.log <+: (fixpointLoop body (left + 1) lastDelta iterations s).state.log ∧
        ((fixpointLoop body (left + 1) lastDelta iterations s).state.stopped = false →
          ((fixpointLoop body (left + 1) lastDelta iterations s).converged = true ↔
            (⟨left, new⟩ : Executed).LastQuiet)) := by
  induction left with
  | zero =>
    intro lastDelta iterations s h hs
    obtain ⟨hb, hpre⟩ := hbody s h hs
    have hquiet := quiet_iff h hb hpre
    refine ⟨[(body s).log.drop s.log.length], ?_⟩
    simp only [fixpointLoop, Executed.LastQuiet]
    split_ifs with hstop hsame <;> simp_all
  | succ left ih =>
    intro lastDelta iterations s h hs
    obtain ⟨hb, hpre⟩ := hbody s h hs
    have hquiet := quiet_iff h hb hpre
    rw [fixpointLoop]
    by_cases hstop : (body s).stopped = true
    · refine ⟨[(body s).log.drop s.log.length], ?_⟩
      simp [hstop, hb, hpre]
    by_cases hsame : (body s).passesMutated = s.passesMutated
    · refine ⟨[(body s).log.drop s.log.length], ?_⟩
      simp only [hstop, hsame, if_true, Bool.false_eq_true, if_false]
      simp_all [Executed.LastQuiet]
    · obtain ⟨new, hnew, hne, hlen, hacc, hpre', hconv⟩ :=
        ih ((body s).passesMutated - s.passesMutated)
          (iterations ++ [(body s).log.drop s.log.length]) (body s) hb (by simpa using hstop)
      refine ⟨(body s).log.drop s.log.length :: new, ?_⟩
      simp only [hstop, hsame, Bool.false_eq_true, if_false]
      refine ⟨by rw [hnew]; simp, by simp, by simpa using hlen, hacc, hpre.trans hpre', ?_⟩
      intro hgo
      rw [hconv hgo]
      obtain ⟨a, new, rfl⟩ := List.exists_cons_of_ne_nil hne
      simp [Executed.LastQuiet]

theorem keeps_runFixpoint {body : St → St} (hbody : Keeps body) (count : ℕ) :
    Keeps (runFixpoint body count) := by
  intro s h hs
  obtain ⟨left, hcap⟩ : ∃ left, (if count = 0 then 1 else count) = left + 1 :=
    ⟨(if count = 0 then 1 else count) - 1, by split_ifs <;> omega⟩
  obtain ⟨new, hnew, hne, hlen, hacc, hpre, hconv⟩ := fixpointLoop_spec hbody left 0 [] s h hs
  have hwithin : (⟨count, new⟩ : Executed).WithinCap := by
    refine ⟨hne, hlen.trans ?_⟩
    rw [← hcap]
    split_ifs <;> simp
  have hquiet : (⟨left, new⟩ : Executed).LastQuiet ↔ (⟨count, new⟩ : Executed).LastQuiet := Iff.rfl
  rw [List.nil_append] at hnew
  simp only [runFixpoint, hcap]
  generalize fixpointLoop body (left + 1) 0 [] s = e at hnew hacc hpre hconv
  rw [hquiet] at hconv
  subst hnew
  have hcapped : ∀ f ∈ e.state.executed ++ [⟨count, e.iterations⟩], f.WithinCap := by
    intro f hf
    rw [List.mem_append, List.mem_singleton] at hf
    rcases hf with hf | rfl
    · exact hacc.withinCap f hf
    · exact hwithin
  by_cases hstop : e.state.stopped = true
  · simp only [hstop, if_true]
    refine ⟨⟨hacc.passesRun, hacc.mutated, hacc.perPass, ?_, fun _ => hacc.stopped hstop, hcapped,
      ?_, ?_⟩, hpre⟩ <;> simp
  · have hgo : e.state.stopped = false := by simpa using hstop
    simp only [hgo, Bool.false_eq_true, if_false]
    refine ⟨⟨hacc.passesRun, hacc.mutated, hacc.perPass, fun _ => hacc.running hgo, ?_, hcapped,
      ?_, ?_⟩, hpre⟩
    · simp
    · simp [hacc.completed hgo]
    · have hall := hacc.converged hgo
      have hlast := hconv hgo
      simp only [Bool.and_eq_true, hall, hlast, List.forall_mem_append, List.forall_mem_singleton,
        implies_true]

mutual

theorem keeps_run (env : Env) : ∀ (n : Node) (path : List ℕ), Keeps (run env n path)
  | .leaf p, path => by
    intro s h hs
    rw [run, if_neg (by simp [hs])]
    exact keeps_runLeaf env p _ (h.setPath path) hs
  | .unroll count children, path => by
    intro s h hs
    rw [run, if_neg (by simp [hs])]
    exact keeps_unrollLoop (fun s => keeps_runChildren env children s.nodePath 0 s) count _
      (h.setPath path) hs
  | .fixpoint count children, path => by
    intro s h hs
    rw [run, if_neg (by simp [hs])]
    exact keeps_runFixpoint (fun s => keeps_runChildren env children s.nodePath 0 s) count _
      (h.setPath path) hs

theorem keeps_runChildren (env : Env) :
    ∀ (ns : List Node) (base : List ℕ) (i : ℕ), Keeps (runChildren env ns base i)
  | [], base, i => by
    intro s h hs
    rw [runChildren]
    exact ⟨h, List.prefix_rfl⟩
  | n :: ns, base, i => by
    intro s h hs
    obtain ⟨hn, hpre⟩ := keeps_run env n (base ++ [i]) s h hs
    rw [runChildren, if_neg (by simp [hs])]
    by_cases hstop : (run env n (base ++ [i]) s).stopped = true
    · cases ns <;> simp [runChildren, hstop, hn, hpre]
    · obtain ⟨hns, hpre'⟩ := keeps_runChildren env ns base (i + 1) _ hn (by simpa using hstop)
      exact ⟨hns, hpre.trans hpre'⟩

end

/-- After the first failing pass no later pass runs. -/
def StopsAtFailure (log : List Entry) : Prop := ∀ e ∈ log.dropLast, e.failed = false

theorem Accounts.stopsAtFailure {s : St} (h : Accounts s) : StopsAtFailure s.log := by
  intro e he
  cases hs : s.stopped with
  | false => exact h.running hs e (List.mem_of_mem_dropLast he)
  | true =>
    obtain ⟨front, last, hlog, -, hfine⟩ := h.stopped hs
    rw [hlog, List.dropLast_concat] at he
    exact hfine e he

/-- The accounts of a whole run: each fixpoint within its cap, the mutations of the log under each
pass id and in total, convergence, and nothing after a failure. -/
theorem optimize_accounts (env : Env) (schedule : Node) :
    (∀ f ∈ (optimize env schedule).state.executed, f.WithinCap) ∧
    (optimize env schedule).state.passesMutated =
      (optimize env schedule).state.log.countP (·.mutated) ∧
    ∑ p ∈ Finset.range kPassIdCount, (optimize env schedule).state.passMutationCount p =
      (optimize env schedule).state.passesMutated ∧
    ((optimize env schedule).fixedPointReached = true ↔
      (∀ e ∈ (optimize env schedule).state.log, e.failed = false) ∧
        (optimize env schedule).state.executed ≠ [] ∧
        ∀ f ∈ (optimize env schedule).state.executed, f.LastQuiet) ∧
    StopsAtFailure (optimize env schedule).state.log := by
  have hstart := accounts_start env
  obtain ⟨hacc, -⟩ := keeps_run env schedule [] (St.start env) hstart rfl
  unfold optimize
  by_cases hcost : optPipelineCost schedule = 0
  · rw [if_pos hcost]
    simp [St.reportError, St.start, StopsAtFailure]
  rw [if_neg hcost]
  generalize run env schedule [] (St.start env) = s at hacc
  have hquiet := hacc.stopsAtFailure
  by_cases hstop : s.stopped = true
  · obtain ⟨front, last, hlog, hlast, -⟩ := hacc.stopped hstop
    simp only [hstop, if_true]
    refine ⟨hacc.withinCap, hacc.mutated, hacc.perPass, ?_, hquiet⟩
    have hmem : last ∈ s.log := by simp [hlog]
    simp only [Bool.false_eq_true, false_iff, not_and]
    intro hfine
    rw [hfine last hmem] at hlast
    cases hlast
  · have hgo : s.stopped = false := by simpa using hstop
    have hreached : (decide (0 < s.completedFixpoints) && s.allFixpointsConverged) = true ↔
        (∀ e ∈ s.log, e.failed = false) ∧ s.executed ≠ [] ∧ ∀ f ∈ s.executed, f.LastQuiet := by
      rw [Bool.and_eq_true, hacc.converged hgo, decide_eq_true_eq, hacc.completed hgo,
        List.length_pos_iff]
      exact ⟨fun h => ⟨hacc.running hgo, h⟩, fun h => h.2⟩
    simp only [hgo, Bool.false_eq_true, if_false]
    refine ⟨?_, ?_, ?_, ?_, ?_⟩ <;> split_ifs <;>
      first
        | exact hacc.withinCap
        | exact hacc.mutated
        | exact hacc.perPass
        | exact hreached
        | exact hquiet

/-- A single pass that ran and failed nothing: no fixpoint was executed, and none is claimed. -/
theorem not_reached_without_fixpoint : ¬ ∀ env schedule,
    ((optimize env schedule).fixedPointReached = true ↔
      ∀ f ∈ (optimize env schedule).state.executed, f.LastQuiet) := by
  intro h
  have hrun := h ⟨0, true, fun _ => ⟨true, false, 0⟩, fun _ => ⟨true, 0⟩, ⟨true, 0⟩⟩ (.leaf 0)
  revert hrun
  simp [optimize, optPipelineCost, run, runLeaf, runPass, kPassIdCount, St.start]

section Budget

/-- However it ends, a run of `body` takes at most `k` passes. -/
def Within (k : ℕ) (body : St → St) : Prop := ∀ s, (body s).passesRun ≤ s.passesRun + k

theorem within_runLeaf (env : Env) (p : ℕ) : Within 1 (runLeaf env p) := by
  intro s
  simp only [runLeaf, St.reportError]
  split_ifs <;> exact le_rfl

variable {body : St → St} {k : ℕ}

theorem Within.unrollLoop (h : Within k body) (count : ℕ) :
    Within (k * count) (unrollLoop body count) := by
  induction count with
  | zero => exact fun s => le_rfl
  | succ count ih =>
    intro s
    have hbody := h s
    have hrest := ih (body s)
    rw [Schedule.unrollLoop, Nat.mul_succ]
    split_ifs <;> omega

theorem Within.fixpointLoop (h : Within k body) (left lastDelta : ℕ)
    (iterations : List (List Entry)) :
    Within (k * left) fun s => (fixpointLoop body left lastDelta iterations s).state := by
  induction left generalizing lastDelta iterations with
  | zero => exact fun s => le_rfl
  | succ left ih =>
    intro s
    have hbody := h s
    have hrest := ih ((body s).passesMutated - s.passesMutated)
      (iterations ++ [(body s).log.drop s.log.length]) (body s)
    simp only [Schedule.fixpointLoop, Nat.mul_succ]
    split_ifs
    · exact hbody.trans (by omega)
    · exact hbody.trans (by omega)
    · exact hrest.trans (by omega)

theorem Within.runFixpoint (h : Within k body) (count : ℕ) :
    Within (k * if count = 0 then 1 else count) (runFixpoint body count) := by
  intro s
  have hloop := h.fixpointLoop (if count = 0 then 1 else count) 0 [] s
  simp only [Schedule.runFixpoint]
  split_ifs at hloop ⊢ <;> exact hloop

theorem saturate_eq {total : ℕ} (h : saturate total ≤ kMaxPipelineInvocations) :
    saturate total = total := by
  rw [saturate] at h ⊢
  split_ifs at h ⊢ with hover
  · omega
  · rfl

theorem bodyCost_le {ns : List Node} {b total : ℕ} (h : bodyCost ns b = some total) :
    b ≤ total := by
  induction ns generalizing b with
  | nil => rw [← Option.some.inj h]
  | cons n ns ih =>
    rw [bodyCost] at h
    split_ifs at h
    have := ih h
    omega

mutual

theorem within_run (env : Env) : ∀ (n : Node) (path : List ℕ),
    optPipelineCost n ≤ kMaxPipelineInvocations → Within (optPipelineCost n) (run env n path)
  | .leaf p, path => by
    intro _ s
    rw [run, optPipelineCost]
    split_ifs
    · omega
    · exact within_runLeaf env p { s with nodePath := path }
  | .unroll count children, path => by
    intro hcost s
    rw [optPipelineCost] at hcost ⊢
    cases hb : bodyCost children 0 with
    | none => simp [hb] at hcost
    | some body =>
      simp only [hb] at hcost ⊢
      have hbody : Within body fun s => runChildren env children s.nodePath 0 s := fun s => by
        have := within_runChildren env children s.nodePath 0 s hb
        omega
      have hloop := hbody.unrollLoop count { s with nodePath := path }
      rw [saturate_eq hcost, run]
      by_cases hs : s.stopped = true
      · rw [if_pos hs]
        omega
      · rw [if_neg hs]
        exact hloop
  | .fixpoint count children, path => by
    intro hcost s
    rw [optPipelineCost] at hcost ⊢
    cases hb : bodyCost children 0 with
    | none => simp [hb] at hcost
    | some body =>
      simp only [hb] at hcost ⊢
      have hbody : Within body fun s => runChildren env children s.nodePath 0 s := fun s => by
        have := within_runChildren env children s.nodePath 0 s hb
        omega
      have hloop := hbody.runFixpoint count { s with nodePath := path }
      rw [saturate_eq hcost, run]
      by_cases hs : s.stopped = true
      · rw [if_pos hs]
        omega
      · rw [if_neg hs]
        exact hloop

theorem within_runChildren (env : Env) :
    ∀ (ns : List Node) (base : List ℕ) (i : ℕ) (s : St) {b total : ℕ}, bodyCost ns b = some total →
      (runChildren env ns base i s).passesRun + b ≤ s.passesRun + total
  | [], base, i => by
    intro s b total h
    rw [bodyCost] at h
    rw [runChildren, Option.some.inj h]
  | n :: ns, base, i => by
    intro s b total h
    rw [bodyCost] at h
    split_ifs at h with hover
    have hn := within_run env n (base ++ [i]) (by omega) s
    have hns := within_runChildren env ns base (i + 1) (run env n (base ++ [i]) s) h
    have hle := bodyCost_le h
    rw [runChildren]
    split_ifs <;> omega

end

/-- **The budget of a schedule holds.**  A schedule that the loader lets pass, its cost being within
`kMaxPipelineInvocations`, runs no more passes than its cost, whatever the passes and the verifier
answer. -/
theorem optimize_budget (env : Env) (schedule : Node)
    (h : optPipelineCost schedule ≤ kMaxPipelineInvocations) :
    (optimize env schedule).state.passesRun ≤ optPipelineCost schedule := by
  have hrun : (run env schedule [] (St.start env)).passesRun ≤ optPipelineCost schedule := by
    simpa [St.start] using within_run env schedule [] h (St.start env)
  unfold optimize
  by_cases hzero : optPipelineCost schedule = 0
  · rw [if_pos hzero]
    simp [St.reportError, St.start]
  · rw [if_neg hzero]
    dsimp only
    split_ifs <;> exact hrun

/-- A fixpoint that never settles, cut at three iterations of a pass and two more: nine passes. -/
theorem optimize_budget_restless :
    (optimize ⟨0, false, fun _ => ⟨true, true, 0⟩, fun _ => ⟨true, 0⟩, ⟨true, 0⟩⟩
      (.fixpoint 3 [.leaf 0, .unroll 2 [.leaf 1]])).state.passesRun ≤ 9 :=
  optimize_budget _ _ (by decide)

end Budget

end Schedule

end DssPrime
