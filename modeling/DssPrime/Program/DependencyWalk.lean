import Mathlib

/-!
# The dependency graph walk

`dependency_resolver.cpp` walks the projects a manifest names in `dependsOn`. The walk is a
depth-first one over manifests: `admitNode_` refuses a manifest on the stack (a cycle), answers one
it has seen from the table (a diamond), and otherwise checks it, files its output name, walks its
own entries and runs its pre-build scripts.

The file system, the manifests and the scripts are fixed functions, the fields of a `World`. A
manifest path stands for the node the source files under it (`nodeByManifest_` is one to one), the
stack is an argument, and the recursion goes down on the levels the depth cap leaves: `admitNode_`
at depth `d` is `admitNode` with `kMaxDependencyDepth + 1 - d` levels. A `none` is a resolution that
fails. Only `path` entries are modelled.
-/

namespace DssPrime.Dependency

/-- How a dependency is consumed. -/
inductive DependencyComposition where
  | SourceMerge
  | ArtifactLink
  | NotConsumable
  deriving DecidableEq

def kRegisteredArtifactProfiles : List (String × DependencyComposition) :=
  [("cli", .NotConsumable), ("gui", .NotConsumable), ("lib", .ArtifactLink),
   ("staticlib", .ArtifactLink), ("script", .NotConsumable), ("sproc", .NotConsumable),
   ("transpile", .NotConsumable), ("shader", .NotConsumable), ("hdl", .NotConsumable),
   ("module", .SourceMerge)]

def dependencyCompositionForProfile (profile : String) : Option DependencyComposition :=
  kRegisteredArtifactProfiles.lookup profile

def kMaxDependencyDepth : ℕ := 64

/-- The fields of `ProjectConfig` the walk reads; an entry of `dependsOn` is its `path`. -/
structure ProjectConfig where
  language : String
  artifactProfile : String
  dependsOn : List String

/-- The projects on disk: `M` names a manifest by its canonical path and `D` a directory. -/
structure World (M D : Type) where
  rootManifest : M
  rootConfig : ProjectConfig
  dir : M → D
  filename : D → String
  locateEntry : D → String → Option M
  loadProjectConfig : M → Option ProjectConfig
  /-- The schema of a language loads, and `enforceArtifactProfile` lets it have a profile. -/
  languageServes : String → String → Bool
  prepareNodeSources : M → Bool

/-- The state of the walk. -/
structure WalkState (M D : Type) where
  nodes : List M
  outputNameOwner : String → Option D
  children : M → List M
  /-- The manifests whose pre-build scripts have run, the oldest first. -/
  prepared : List M

variable {M D : Type} [DecidableEq M] [DecidableEq D]

namespace World

variable (W : World M D)

def outputName (m : M) : String :=
  W.filename (W.dir m)

def Unusable (name : String) : Prop :=
  name = "" ∨ name = "." ∨ name = ".."

instance (name : String) : Decidable (Unusable name) :=
  inferInstanceAs (Decidable (_ ∨ _ ∨ _))

def registerOutputName (m : M) (s : WalkState M D) : Option (WalkState M D) :=
  if Unusable (W.outputName m) then none
  else match s.outputNameOwner (W.outputName m) with
    | none =>
      some { s with
        outputNameOwner := Function.update s.outputNameOwner (W.outputName m) (some (W.dir m)) }
    | some owner => if owner = W.dir m then some s else none

/-- The checks `admitNode_` makes on a manifest it has not seen, for one consumer. -/
def loadFor (consumer : ProjectConfig) (m : M) : Option ProjectConfig :=
  match W.loadProjectConfig m with
  | none => none
  | some config =>
    if W.languageServes config.language config.artifactProfile then
      match dependencyCompositionForProfile config.artifactProfile with
      | none => none
      | some .NotConsumable => none
      | some .SourceMerge => if config.language = consumer.language then some config else none
      | some .ArtifactLink => some config
    else none

def addChild (parent m : M) (s : WalkState M D) : WalkState M D :=
  if m ∈ s.children parent then s
  else { s with children := Function.update s.children parent (s.children parent ++ [m]) }

def walkChildren (visit : M → WalkState M D → Option (WalkState M D)) (parent : M) :
    List String → WalkState M D → Option (WalkState M D)
  | [], s => some s
  | entry :: entries, s =>
    match W.locateEntry (W.dir parent) entry with
    | none => none
    | some m =>
      match visit m s with
      | none => none
      | some s' => walkChildren visit parent entries (addChild parent m s')

/-- `admitNode_`: the cycle, the diamond, the depth, the manifest, its name, its own entries and
its scripts, in this order. -/
def admitNode : ℕ → List M → ProjectConfig → M → WalkState M D → Option (WalkState M D)
  | levels, stack, consumer, m, s =>
    if m ∈ stack then none
    else if m ∈ s.nodes then some s
    else match levels with
      | 0 => none
      | levels + 1 =>
        match W.loadFor consumer m with
        | none => none
        | some config =>
          match W.registerOutputName m { s with nodes := s.nodes ++ [m] } with
          | none => none
          | some s₁ =>
            match W.walkChildren (fun c => admitNode levels (m :: stack) config c) m
              config.dependsOn s₁ with
            | none => none
            | some s₂ =>
              if W.prepareNodeSources m then some { s₂ with prepared := s₂.prepared ++ [m] }
              else none

def rootState : WalkState M D :=
  ⟨[W.rootManifest], fun _ => none, fun _ => [], []⟩

def walk : Option (WalkState M D) :=
  match W.registerOutputName W.rootManifest W.rootState with
  | none => none
  | some s => W.walkChildren (admitNode W kMaxDependencyDepth [W.rootManifest] W.rootConfig)
      W.rootManifest W.rootConfig.dependsOn s

def config (m : M) : Option ProjectConfig :=
  if m = W.rootManifest then some W.rootConfig else W.loadProjectConfig m

def entries (m : M) : List String :=
  ((W.config m).map ProjectConfig.dependsOn).getD []

/-- The projects the entries of a manifest name, in the order of the entries. -/
def dependencies (m : M) : List M :=
  (W.entries m).filterMap (W.locateEntry (W.dir m))

def language (m : M) : Option String :=
  (W.config m).map ProjectConfig.language

def composition (m : M) : Option DependencyComposition :=
  (W.config m).bind fun c => dependencyCompositionForProfile c.artifactProfile

def DependsOn (a b : M) : Prop :=
  b ∈ W.dependencies a

def Reaches : M → M → Prop :=
  Relation.ReflTransGen W.DependsOn

def Reachable (m : M) : Prop :=
  W.Reaches W.rootManifest m

inductive Path : M → ℕ → M → Prop
  | nil (a : M) : Path a 0 a
  | cons {a b c : M} {n : ℕ} : W.DependsOn a b → Path b n c → Path a (n + 1) c

def Acyclic : Prop :=
  ∀ m, W.Reachable m → ¬ Relation.TransGen W.DependsOn m m

/-- What a reachable manifest owes by itself: its entries name projects, its name can be filed,
and below the root it loads, in a language serving its profile, the profile composes and its
scripts end well. -/
structure Sound (m : M) : Prop where
  located : ∀ e ∈ W.entries m, (W.locateEntry (W.dir m) e).isSome
  usable : ¬ Unusable (W.outputName m)
  served : m ≠ W.rootManifest → ∃ c, W.loadProjectConfig m = some c ∧
    W.languageServes c.language c.artifactProfile = true ∧
    (dependencyCompositionForProfile c.artifactProfile = some .SourceMerge ∨
      dependencyCompositionForProfile c.artifactProfile = some .ArtifactLink)
  prepared : m ≠ W.rootManifest → W.prepareNodeSources m = true

def SameLanguage (consumer m : M) : Prop :=
  W.composition m = some .SourceMerge → W.language m = W.language consumer

/-- **The graph is fit to resolve**: the reachable manifests are sound, they form no cycle, no
path from the root is longer than the cap, both ends of every source-merge edge have one language,
and no two output names agree. -/
structure Fit : Prop where
  sound : ∀ m, W.Reachable m → W.Sound m
  acyclic : W.Acyclic
  shallow : ∀ n m, W.Path W.rootManifest n m → n ≤ kMaxDependencyDepth
  sameLanguage : ∀ a b, W.Reachable a → W.DependsOn a b → W.SameLanguage a b
  distinctNames : ∀ a b, W.Reachable a → W.Reachable b → W.outputName a = W.outputName b → a = b

/-- A depth-first walk from `a` meets `t` first as an entry of `q`, `n` levels down: each step goes
to the first entry that reaches `t`. -/
inductive FirstMet (t : M) : M → ℕ → M → Prop
  | here {a : M} {before after : List M} : W.dependencies a = before ++ t :: after →
      (∀ x ∈ before, ¬ W.Reaches x t) → FirstMet t a 1 a
  | deeper {a y q : M} {n : ℕ} {before after : List M} : W.dependencies a = before ++ y :: after →
      (∀ x ∈ before, ¬ W.Reaches x t) → FirstMet t y n q → FirstMet t a (n + 1) q

/-- What the walk checks: as `Fit`, but the length of a path and the language of a consumer only
where the walk meets the manifest first, and names only between directories. -/
structure FirstFit : Prop where
  sound : ∀ m, W.Reachable m → W.Sound m
  acyclic : W.Acyclic
  shallow : ∀ t n q, W.FirstMet t W.rootManifest n q → n ≤ kMaxDependencyDepth
  sameLanguage : ∀ t n q, W.FirstMet t W.rootManifest n q → W.SameLanguage q t
  distinctNames : ∀ a b, W.Reachable a → W.Reachable b → W.outputName a = W.outputName b →
    W.dir a = W.dir b

/-- Something the walk does not look at is wrong: a path over the cap, a source-merge edge between
two languages, or two manifests of one output name in one directory. -/
def Overlooked : Prop :=
  (∃ n m, W.Path W.rootManifest n m ∧ kMaxDependencyDepth < n) ∨
  (∃ a b, W.Reachable a ∧ W.DependsOn a b ∧ ¬ W.SameLanguage a b) ∨
  ∃ a b, W.Reachable a ∧ W.Reachable b ∧ W.dir a = W.dir b ∧ a ≠ b

end World

end DssPrime.Dependency
