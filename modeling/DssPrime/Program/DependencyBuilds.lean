import Mathlib
import DssPrime.Program.DependencyWalk

/-!
# The builds of the dependencies

The second half of `dependency_resolver.cpp`: for each consumer target `gather_` goes down the node
table and collects the artifacts a build is handed.

Three tables keep answers: gathered artifacts by node and consumer target, artifacts by the same
key, and derived formats by format kind, target and profile. The first key leaves out the format of
the enclosing build, which the recursion takes. `gatherPlain` is the recursion without the tables,
to compare with.

`levels` bounds the depth of the recursion over the node table and is no part of the source; the
results are about every number of levels above the rank of a node, where it plays no part.
-/

namespace DssPrime.Dependency

structure ShippedFormat where
  loadName : String
  kind : String
  artifactProfiles : List String
  isStaticArchive : Bool

/-- An artifact and whether it is an archive. -/
structure BuiltArtifact (P : Type) where
  path : P
  isStaticArchive : Bool

def absorbs {P : Type} (consumerFormat : ShippedFormat) (art : BuiltArtifact P) : Bool :=
  !consumerFormat.isStaticArchive || art.isStaticArchive

/-- The functions `gather_` calls.  A target schema stands for the shipped document of its
name. -/
structure Toolchain (M P : Type) where
  shippedFormats : List ShippedFormat
  targetSpec : String → Option (String × ShippedFormat)
  crossValidateTargetFormat : String → ShippedFormat → Bool
  crossValidateLanguageTarget : String → String → Bool
  buildNode : M → String → ShippedFormat → List (BuiltArtifact P) → Option P

/-- The functions with the node table `gather_` reads. -/
structure Builds (M P : Type) extends Toolchain M P where
  children : M → List M
  composition : M → DependencyComposition
  language : M → String
  artifactProfile : M → String

structure BuildRun (M P : Type) where
  node : M
  consumerSpec : String
  format : ShippedFormat
  inputs : List (BuiltArtifact P)

/-- The tables of the second half, and the calls of `buildNode_` made so far. -/
structure GatherState (M P : Type) where
  gatherMemo : M × String → Option (List (BuiltArtifact P))
  artifactMemo : M × String → Option P
  derivedMemo : String × String × String → Option ShippedFormat
  runs : List (BuildRun M P)

variable {M P : Type} [DecidableEq M] [DecidableEq P]

def GatherState.empty : GatherState M P :=
  ⟨fun _ => none, fun _ => none, fun _ => none, []⟩

def addArtifact (incoming : List (BuiltArtifact P)) (a : BuiltArtifact P) :
    List (BuiltArtifact P) :=
  if a.path ∈ incoming.map BuiltArtifact.path then incoming else incoming ++ [a]

def addArtifacts (incoming added : List (BuiltArtifact P)) : List (BuiltArtifact P) :=
  added.foldl addArtifact incoming

/-- What a consumer gains from an artifact-link child: the artifact, and what the child's own
build could not absorb. -/
def addBuilt (incoming : List (BuiltArtifact P)) (depFmt : ShippedFormat) (artifact : P)
    (inner : List (BuiltArtifact P)) : List (BuiltArtifact P) :=
  addArtifacts (addArtifact incoming ⟨artifact, depFmt.isStaticArchive⟩)
    (inner.filter fun a => !absorbs depFmt a)

namespace Builds

variable (B : Builds M P)

def candidates (target profile kind : String) : List ShippedFormat :=
  B.shippedFormats.filter fun f => f.kind = kind ∧ profile ∈ f.artifactProfiles ∧
    B.crossValidateTargetFormat target f = true

def derivedFormat (target profile kind : String) : Option ShippedFormat :=
  match B.candidates target profile kind with
  | [f] => some f
  | _ => none

def deriveFormat (target : String) (m : M) (consumerFmt : ShippedFormat) (g : GatherState M P) :
    Option (ShippedFormat × GatherState M P) :=
  match g.derivedMemo (consumerFmt.kind, target, B.artifactProfile m) with
  | some f => some (f, g)
  | none =>
    match B.derivedFormat target (B.artifactProfile m) consumerFmt.kind with
    | none => none
    | some f => some (f, { g with
        derivedMemo := Function.update g.derivedMemo
          (consumerFmt.kind, target, B.artifactProfile m) (some f) })

def buildOnce (spec target : String) (m : M) (depFmt : ShippedFormat)
    (inputs : List (BuiltArtifact P)) (g : GatherState M P) : Option (P × GatherState M P) :=
  match g.artifactMemo (m, spec) with
  | some p => some (p, g)
  | none =>
    match B.buildNode m target depFmt inputs with
    | none => none
    | some p => some (p, { g with
        artifactMemo := Function.update g.artifactMemo (m, spec) (some p)
        runs := g.runs ++ [⟨m, spec, depFmt, inputs⟩] })

def gatherChildren (spec target : String)
    (visit : M → ShippedFormat → GatherState M P →
      Option (List (BuiltArtifact P) × GatherState M P)) (enclosingFmt : ShippedFormat) :
    List M → List (BuiltArtifact P) → GatherState M P →
      Option (List (BuiltArtifact P) × GatherState M P)
  | [], incoming, g => some (incoming, g)
  | child :: rest, incoming, g =>
    if B.crossValidateLanguageTarget (B.language child) target = false then none
    else if B.composition child = .SourceMerge then
      (visit child enclosingFmt g).bind fun r =>
        gatherChildren spec target visit enclosingFmt rest (addArtifacts incoming r.1) r.2
    else
      (B.deriveFormat target child enclosingFmt g).bind fun d =>
        (visit child d.1 d.2).bind fun r =>
          (B.buildOnce spec target child d.1 r.1 r.2).bind fun b =>
            gatherChildren spec target visit enclosingFmt rest (addBuilt incoming d.1 b.1 r.1) b.2

def gather (spec target : String) : ℕ → M → ShippedFormat → GatherState M P →
    Option (List (BuiltArtifact P) × GatherState M P)
  | levels, m, enclosingFmt, g =>
    match g.gatherMemo (m, spec) with
    | some incoming => some (incoming, g)
    | none =>
      match levels with
      | 0 => none
      | levels + 1 =>
        (B.gatherChildren spec target (gather spec target levels) enclosingFmt (B.children m) []
          g).bind fun r => some (r.1, { r.2 with
            gatherMemo := Function.update r.2.gatherMemo (m, spec) (some r.1) })

/-- The targets of `run`: a target that does not load is passed over, and one that gathers nothing
gets no entry. -/
def gatherTargets (levels : ℕ) (root : M) : List String → GatherState M P →
    Option (List (String × List (BuiltArtifact P)) × GatherState M P)
  | [], g => some ([], g)
  | spec :: specs, g =>
    match B.targetSpec spec with
    | none => gatherTargets levels root specs g
    | some (target, fmt) =>
      (B.gather spec target levels root fmt g).bind fun r =>
        (gatherTargets levels root specs r.2).bind fun rest =>
          some (if r.1.isEmpty then rest.1 else (spec, r.1) :: rest.1, rest.2)

def plainChildren (target : String)
    (visit : M → ShippedFormat → Option (List (BuiltArtifact P)))
    (enclosingFmt : ShippedFormat) :
    List M → List (BuiltArtifact P) → Option (List (BuiltArtifact P))
  | [], incoming => some incoming
  | child :: rest, incoming =>
    if B.crossValidateLanguageTarget (B.language child) target = false then none
    else if B.composition child = .SourceMerge then
      (visit child enclosingFmt).bind fun sub =>
        plainChildren target visit enclosingFmt rest (addArtifacts incoming sub)
    else
      (B.derivedFormat target (B.artifactProfile child) enclosingFmt.kind).bind fun depFmt =>
        (visit child depFmt).bind fun inner =>
          (B.buildNode child target depFmt inner).bind fun artifact =>
            plainChildren target visit enclosingFmt rest (addBuilt incoming depFmt artifact inner)

def gatherPlain (target : String) : ℕ → M → ShippedFormat → Option (List (BuiltArtifact P))
  | 0, _, _ => none
  | levels + 1, m, enclosingFmt =>
    B.plainChildren target (gatherPlain target levels) enclosingFmt (B.children m) []

def plainTargets (levels : ℕ) (root : M) :
    List String → Option (List (String × List (BuiltArtifact P)))
  | [] => some []
  | spec :: specs =>
    match B.targetSpec spec with
    | none => plainTargets levels root specs
    | some (target, fmt) =>
      (B.gatherPlain target levels root fmt).bind fun incoming =>
        (plainTargets levels root specs).bind fun rest =>
          some (if incoming.isEmpty then rest else (spec, incoming) :: rest)

omit [DecidableEq M] [DecidableEq P] in
theorem derivedFormat_kind {target profile kind : String} {f : ShippedFormat}
    (h : B.derivedFormat target profile kind = some f) : f.kind = kind := by
  unfold derivedFormat at h
  split at h
  · rename_i f' hc
    obtain rfl : f' = f := by simpa using h
    have hmem : f' ∈ B.candidates target profile kind := by simp [hc]
    simp only [candidates, List.mem_filter, decide_eq_true_eq] at hmem
    exact hmem.2.1
  · cases h

omit [DecidableEq M] in
theorem plainChildren_congr {target : String}
    {v v' : M → ShippedFormat → Option (List (BuiltArtifact P))} {f f' : ShippedFormat}
    (hkind : f.kind = f'.kind) {cs : List M} (hv : ∀ c ∈ cs, ∀ d, v c d = v' c d)
    (henc : ∀ c ∈ cs, v c f = v' c f') : ∀ incoming,
    B.plainChildren target v f cs incoming = B.plainChildren target v' f' cs incoming := by
  induction cs with
  | nil => exact fun _ => rfl
  | cons c cs ih =>
    intro incoming
    have ih := ih (fun x hx => hv x (List.mem_cons_of_mem _ hx))
      fun x hx => henc x (List.mem_cons_of_mem _ hx)
    simp only [plainChildren, ih, henc c (List.mem_cons_self ..), hv c (List.mem_cons_self ..),
      hkind]

omit [DecidableEq M] in
/-- **Of the enclosing format only the kind matters.** -/
theorem gatherPlain_kind {target : String} {f f' : ShippedFormat} (hkind : f.kind = f'.kind)
    (levels : ℕ) (m : M) : B.gatherPlain target levels m f = B.gatherPlain target levels m f' := by
  induction levels generalizing m with
  | zero => rfl
  | succ n ih => exact B.plainChildren_congr hkind (fun _ _ _ => rfl) (fun c _ => ih c) []

omit [DecidableEq M] in
/-- **Above the rank of a node the levels do not matter.** -/
theorem gatherPlain_levels {rank : M → ℕ} (hrank : ∀ m, ∀ c ∈ B.children m, rank c < rank m)
    {target : String} : ∀ (n n' : ℕ) (m : M) (f : ShippedFormat), rank m < n → rank m < n' →
    B.gatherPlain target n m f = B.gatherPlain target n' m f := by
  intro n
  induction n with
  | zero => exact fun n' m f h => absurd h (by omega)
  | succ n ih =>
    intro n' m f hn hn'
    obtain ⟨n', rfl⟩ : ∃ k, n' = k + 1 := ⟨n' - 1, by omega⟩
    have hv : ∀ c ∈ B.children m, ∀ d,
        B.gatherPlain target n c d = B.gatherPlain target n' c d := by
      intro c hc d
      have := hrank m c hc
      exact ih n' c d (by omega) (by omega)
    exact B.plainChildren_congr rfl hv (fun c hc => hv c hc f) []

end Builds

end DssPrime.Dependency
