import Mathlib
import DssPrime.Program.DependencyWalkSound
import DssPrime.Program.DependencyMemo

/-!
# Resolution and the order of entries

The two checks `admitNode_` makes after its early return, the depth cap and the language of a
source-merge edge, are made for the first consumer a manifest is met from.
-/

namespace DssPrime.Dependency.World

variable {M D P : Type} [DecidableEq M] [DecidableEq D] [DecidableEq P]

def nodeTable (W : World M D) (s : WalkState M D) (T : Toolchain M P) : Builds M P :=
  { T with
    children := s.children
    composition := fun m => (W.composition m).getD .NotConsumable
    language := fun m => (W.language m).getD ""
    artifactProfile := fun m => ((W.config m).map ProjectConfig.artifactProfile).getD "" }

/-- **What the gathering owes**, for a list of consumer targets: it answers what the recursion
without tables answers, each build was given what that recursion gathers for it, none was made
twice for a target, and every artifact-link dependency was built for every target. -/
structure GathersRight (W : World M D) (s : WalkState M D) (T : Toolchain M P) (levels : ℕ)
    (specs : List String) : Prop where
  answer : (((nodeTable W s T).gatherTargets levels W.rootManifest specs .empty).map Prod.fst) =
    (nodeTable W s T).plainTargets levels W.rootManifest specs
  inputs : ∀ out g,
    (nodeTable W s T).gatherTargets levels W.rootManifest specs .empty = some (out, g) →
    ∀ r ∈ g.runs, ∀ target fmt, T.targetSpec r.consumerSpec = some (target, fmt) →
      (nodeTable W s T).derivedFormat target ((nodeTable W s T).artifactProfile r.node) fmt.kind =
        some r.format ∧
      (nodeTable W s T).gatherPlain target levels r.node r.format = some r.inputs
  once : ∀ out g,
    (nodeTable W s T).gatherTargets levels W.rootManifest specs .empty = some (out, g) →
    (g.runs.map Builds.runKey).Nodup
  every : ∀ out g,
    (nodeTable W s T).gatherTargets levels W.rootManifest specs .empty = some (out, g) →
    ∀ spec ∈ specs, (T.targetSpec spec).isSome → ∀ m, W.Reachable m → m ≠ W.rootManifest →
      W.composition m = some .ArtifactLink → (m, spec) ∈ g.runs.map Builds.runKey

/-- **What a resolution owes a graph of projects**: it ends well exactly on the graphs that are
fit; then every reachable manifest is one node, the scripts of each run once and after those of
all it depends on, and the builds are handed what the recursion without tables hands them, at any
number of levels above the number of nodes below the root. -/
structure Resolves (W : World M D) (T : Toolchain M P) : Prop where
  verdict : W.walk.isSome ↔ W.Fit
  nodes : ∀ s, W.walk = some s → s.nodes.Nodup ∧ ∀ m, m ∈ s.nodes ↔ W.Reachable m
  scripts : ∀ s, W.walk = some s → s.prepared.Nodup ∧
    (∀ m, m ∈ s.prepared ↔ W.Reachable m ∧ m ≠ W.rootManifest) ∧
    ∀ earlier m later, s.prepared = earlier ++ m :: later → ∀ b ∈ W.dependencies m, b ∈ earlier
  builds : ∀ s, W.walk = some s → ∀ levels, s.prepared.length < levels → ∀ specs,
    GathersRight W s T levels specs

variable {W : World M D} {s : WalkState M D}

omit [DecidableEq D] in
theorem mem_mentions {ms : List M} {m : M} : m ∈ mentions ms ↔ m ∈ ms := by
  have h : ∀ (acc : List M), m ∈ ms.foldl (fun acc m => if m ∈ acc then acc else acc ++ [m]) acc ↔
      m ∈ acc ∨ m ∈ ms := by
    induction ms with
    | nil => simp
    | cons x ms ih =>
      intro acc
      rw [List.foldl_cons, ih]
      by_cases hx : x ∈ acc
      · simp only [hx, if_true, List.mem_cons]
        constructor
        · exact fun h => h.imp_right .inr
        · rintro (h | rfl | h)
          exacts [.inl h, .inl hx, .inr h]
      · simp only [hx, if_false, List.mem_append, List.mem_cons, List.not_mem_nil, or_false,
          or_assoc]
  simpa [mentions] using h []

theorem walk_children (h : W.walk = some s) {m : M} (hm : W.Reachable m) :
    s.children m = mentions (W.dependencies m) := by
  have a := walk_admitted h
  by_cases hroot : m = W.rootManifest
  · subst hroot
    rw [a.children]
    rfl
  · exact a.inv.childrenDone m ((walk_prepared_iff h).mpr ⟨hm, hroot⟩)

theorem walk_rank (h : W.walk = some s) (m c : M) (hc : c ∈ s.children m) :
    s.prepared.idxOf c < s.prepared.idxOf m := by
  have a := walk_admitted h
  by_cases hm : W.Reachable m
  · rw [walk_children h hm, mem_mentions] at hc
    by_cases hroot : m = W.rootManifest
    · subst hroot
      rw [List.idxOf_eq_length (walk_root_not_prepared h)]
      exact List.idxOf_lt_length_of_mem (walk_prepared h (.single hc))
    · have hp := (walk_prepared_iff h).mpr ⟨hm, hroot⟩
      obtain ⟨l₁, l₂, hl⟩ := List.append_of_mem hp
      have hcl := a.inv.ordered l₁ m l₂ hl c hc
      have hml : m ∉ l₁ := by
        have hnd := a.inv.preparedNodup
        rw [hl, List.nodup_append] at hnd
        exact fun hmem => hnd.2.2 m hmem m (List.mem_cons_self ..) rfl
      rw [hl, List.idxOf_append_of_mem hcl, List.idxOf_append_of_notMem hml]
      have := List.idxOf_lt_length_of_mem hcl
      omega
  · rw [a.inv.childrenNew m fun hmem => hm ((walk_nodes h).mp hmem)] at hc
    simp at hc

omit [DecidableEq P] in
theorem walk_below (h : W.walk = some s) (T : Toolchain M P) {a m : M} (ha : W.Reachable a)
    (hm : Relation.TransGen W.DependsOn a m) : (nodeTable W s T).Below a m := by
  induction hm with
  | single hab =>
    refine .single ?_
    show _ ∈ s.children a
    rw [walk_children h ha, mem_mentions]
    exact hab
  | @tail b c hab hbc ih =>
    refine .tail ih ?_
    show _ ∈ s.children b
    rw [walk_children h (ha.trans hab.to_reflTransGen), mem_mentions]
    exact hbc

/-- **The builds are handed what they should be**, after every walk that ends well. -/
theorem walk_gathersRight (h : W.walk = some s) (T : Toolchain M P) {levels : ℕ}
    (hl : s.prepared.length < levels) (specs : List String) : GathersRight W s T levels specs := by
  have hrank : ∀ m, ∀ c ∈ (nodeTable W s T).children m,
      s.prepared.idxOf c < s.prepared.idxOf m := fun m c hc => walk_rank h m c hc
  have hlow : ∀ m, s.prepared.idxOf m < levels := fun m =>
    lt_of_le_of_lt List.idxOf_le_length hl
  have hagrees := Builds.gatherTargets_agrees hrank (hlow W.rootManifest) specs .empty
    Builds.memoOk_empty
  refine ⟨hagrees.answer, fun out g hg r hr target fmt ht => ?_, fun out g hg => ?_,
    fun out g hg spec hs ht m hm hne hlink => ?_⟩
  · obtain ⟨hfmt, hin⟩ := (hagrees.tables out g hg).1.runs r hr target fmt ht
    exact ⟨hfmt, hin levels (hlow r.node)⟩
  · exact (hagrees.tables out g hg).1.runsNodup
  · have hbelow : Relation.TransGen W.DependsOn W.rootManifest m := by
      rcases Relation.reflTransGen_iff_eq_or_transGen.mp hm with rfl | hm
      · exact absurd rfl hne
      · exact hm
    exact (hagrees.tables out g hg).2.2 spec hs ht m (walk_below h T root_reachable hbelow)
      (by simp [nodeTable, hlink])

/-- **One order of entries**: the resolution does what it owes unless the walk overlooks
something. -/
theorem resolves_iff_not_overlooked (W : World M D) (T : Toolchain M P) :
    W.Resolves T ↔ (W.FirstFit → ¬ W.Overlooked) := by
  constructor
  · intro h hfit
    exact (fit_iff.mp (h.verdict.mp (walk_isSome_iff.mpr hfit))).2
  · intro h
    refine ⟨?_, fun s hs => ?_, fun s hs => ?_, fun s hs levels hl specs =>
      walk_gathersRight hs T hl specs⟩
    · rw [walk_isSome_iff, fit_iff]
      exact ⟨fun hfit => ⟨hfit, h hfit⟩, And.left⟩
    · exact ⟨(walk_admitted hs).inv.nodesNodup, fun m => walk_nodes hs⟩
    · have a := (walk_admitted hs).inv
      exact ⟨a.preparedNodup, fun m => walk_prepared_iff hs, a.ordered⟩

structure SameEntries (c c' : ProjectConfig) : Prop where
  language : c.language = c'.language
  artifactProfile : c.artifactProfile = c'.artifactProfile
  dependsOn : c.dependsOn.Perm c'.dependsOn

/-- The same world with its entries in another order. -/
structure Reordered (W W' : World M D) : Prop where
  rootManifest : W.rootManifest = W'.rootManifest
  rootConfig : SameEntries W.rootConfig W'.rootConfig
  dir : W.dir = W'.dir
  filename : W.filename = W'.filename
  locateEntry : W.locateEntry = W'.locateEntry
  loadProjectConfig : ∀ m, Option.Rel SameEntries (W.loadProjectConfig m) (W'.loadProjectConfig m)
  languageServes : W.languageServes = W'.languageServes
  prepareNodeSources : W.prepareNodeSources = W'.prepareNodeSources

theorem SameEntries.symm {c c' : ProjectConfig} (h : SameEntries c c') : SameEntries c' c :=
  ⟨h.language.symm, h.artifactProfile.symm, h.dependsOn.symm⟩

theorem sameEntries_cases {x y : Option ProjectConfig} (h : Option.Rel SameEntries x y) :
    x = none ∧ y = none ∨ ∃ c c', x = some c ∧ y = some c' ∧ SameEntries c c' := by
  cases h with
  | none => exact .inl ⟨rfl, rfl⟩
  | some hc => exact .inr ⟨_, _, rfl, rfl, hc⟩

namespace Reordered

variable {W' : World M D}

omit [DecidableEq M] [DecidableEq D] in
theorem symm (h : Reordered W W') : Reordered W' W where
  rootManifest := h.rootManifest.symm
  rootConfig := h.rootConfig.symm
  dir := h.dir.symm
  filename := h.filename.symm
  locateEntry := h.locateEntry.symm
  loadProjectConfig m := by
    rcases sameEntries_cases (h.loadProjectConfig m) with ⟨hc, hc'⟩ | ⟨c, c', hc, hc', hsame⟩
    · rw [hc, hc']
      exact .none
    · rw [hc, hc']
      exact .some hsame.symm
  languageServes := h.languageServes.symm
  prepareNodeSources := h.prepareNodeSources.symm

omit [DecidableEq D] in
theorem config (h : Reordered W W') (m : M) :
    Option.Rel SameEntries (W.config m) (W'.config m) := by
  unfold World.config
  rw [h.rootManifest]
  split
  · exact .some h.rootConfig
  · exact h.loadProjectConfig m

omit [DecidableEq D] in
theorem entries (h : Reordered W W') (m : M) : (W.entries m).Perm (W'.entries m) := by
  unfold World.entries
  rcases sameEntries_cases (h.config m) with ⟨hc, hc'⟩ | ⟨c, c', hc, hc', hsame⟩
  · rw [hc, hc']
  · rw [hc, hc']
    exact hsame.dependsOn

omit [DecidableEq D] in
theorem dependsOn (h : Reordered W W') {a b : M} (hab : W.DependsOn a b) : W'.DependsOn a b := by
  have hp := (h.entries a).filterMap (W.locateEntry (W.dir a))
  unfold DependsOn dependencies at *
  rw [← h.locateEntry, ← h.dir]
  exact hp.mem_iff.mp hab

omit [DecidableEq D] in
theorem language (h : Reordered W W') (m : M) : W.language m = W'.language m := by
  unfold World.language
  rcases sameEntries_cases (h.config m) with ⟨hc, hc'⟩ | ⟨c, c', hc, hc', hsame⟩
  · rw [hc, hc']
  · rw [hc, hc']
    exact congrArg some hsame.language

omit [DecidableEq D] in
theorem composition (h : Reordered W W') (m : M) : W.composition m = W'.composition m := by
  unfold World.composition
  rcases sameEntries_cases (h.config m) with ⟨hc, hc'⟩ | ⟨c, c', hc, hc', hsame⟩
  · rw [hc, hc']
  · rw [hc, hc']
    exact congrArg dependencyCompositionForProfile hsame.artifactProfile

omit [DecidableEq D] in
theorem reachable (h : Reordered W W') {m : M} (hm : W.Reachable m) : W'.Reachable m := by
  unfold Reachable Reaches at *
  rw [← h.rootManifest]
  exact Relation.ReflTransGen.mono (fun a b hab => h.dependsOn hab) _ _ hm

omit [DecidableEq D] in
theorem path (h : Reordered W W') {a b : M} {n : ℕ} (hp : W.Path a n b) : W'.Path a n b := by
  induction hp with
  | nil a => exact .nil a
  | cons hab _ ih => exact .cons (h.dependsOn hab) ih

omit [DecidableEq D] in
theorem sound (h : Reordered W W') {m : M} (hm : W.Sound m) : W'.Sound m where
  located e he := by
    rw [← h.locateEntry, ← h.dir]
    exact hm.located e ((h.entries m).mem_iff.mpr he)
  usable := by
    unfold outputName
    rw [← h.filename, ← h.dir]
    exact hm.usable
  served hne := by
    rw [← h.rootManifest] at hne
    obtain ⟨c, hc, hserves, hverb⟩ := hm.served hne
    rcases sameEntries_cases (h.loadProjectConfig m) with ⟨hnone, -⟩ | ⟨d, c', hd, hc', hsame⟩
    · rw [hnone] at hc
      cases hc
    · obtain rfl : c = d := Option.some_inj.mp (hc.symm.trans hd)
      rw [h.languageServes, hsame.language, hsame.artifactProfile] at hserves
      rw [hsame.artifactProfile] at hverb
      exact ⟨c', hc', hserves, hverb⟩
  prepared hne := by
    rw [← h.rootManifest] at hne
    rw [← h.prepareNodeSources]
    exact hm.prepared hne

omit [DecidableEq D] in
/-- **Whether a graph is fit does not depend on the order of the entries.** -/
theorem fit (h : Reordered W W') (hW : W.Fit) : W'.Fit where
  sound m hm := h.sound (hW.sound m (h.symm.reachable hm))
  acyclic m hm hc := hW.acyclic m (h.symm.reachable hm)
    (Relation.TransGen.mono (fun a b hab => h.symm.dependsOn hab) _ _ hc)
  shallow n m hp := by
    rw [← h.rootManifest] at hp
    exact hW.shallow n m (h.symm.path hp)
  sameLanguage a b ha hab hmerge := by
    rw [← h.composition] at hmerge
    rw [← h.language, ← h.language]
    exact hW.sameLanguage a b (h.symm.reachable ha) (h.symm.dependsOn hab) hmerge
  distinctNames a b ha hb hname := by
    refine hW.distinctNames a b (h.symm.reachable ha) (h.symm.reachable hb) ?_
    unfold outputName at *
    rw [h.filename, h.dir]
    exact hname

end Reordered

/-- **The resolution of a graph of projects.**  In one order of the entries it does what it owes
exactly when the walk overlooks nothing in that order; and it does so in every order, with one
verdict for all of them, exactly when the walk overlooks nothing in any order. -/
theorem resolves_iff (W : World M D) (T : Toolchain M P) :
    (W.Resolves T ↔ (W.FirstFit → ¬ W.Overlooked)) ∧
    ((∀ W', Reordered W W' → W'.Resolves T ∧ (W.walk.isSome ↔ W'.walk.isSome)) ↔
      ∀ W', Reordered W W' → W'.FirstFit → ¬ W'.Overlooked) := by
  refine ⟨resolves_iff_not_overlooked W T, fun h W' hW' =>
    (resolves_iff_not_overlooked W' T).mp (h W' hW').1, fun h W' hW' => ?_⟩
  have hself : Reordered W W := by
    refine ⟨rfl, ⟨rfl, rfl, .refl _⟩, rfl, rfl, rfl, fun m => ?_, rfl, rfl⟩
    cases W.loadProjectConfig m with
    | none => exact .none
    | some c => exact .some ⟨rfl, rfl, .refl _⟩
  have hr := (resolves_iff_not_overlooked W T).mpr (h W hself)
  have hr' := (resolves_iff_not_overlooked W' T).mpr (h W' hW')
  exact ⟨hr', by rw [hr.verdict, hr'.verdict]; exact ⟨hW'.fit, hW'.symm.fit⟩⟩

/-- A `toy` program (0) that links a C library (1) and merges a C module (2) the library merges
too. -/
def demo (rootEntries : List String) : World ℕ ℕ where
  rootManifest := 0
  rootConfig := ⟨"toy", "cli", rootEntries⟩
  dir := id
  filename d := if d = 0 then "app" else if d = 1 then "mathlib" else "vec"
  locateEntry _ e := if e = "../mathlib" then some 1 else if e = "../vec" then some 2 else none
  loadProjectConfig m := if m = 1 then some ⟨"c", "lib", ["../vec"]⟩
    else if m = 2 then some ⟨"c", "module", []⟩ else none
  languageServes language profile := if language = "c"
    then profile ∈ ["cli", "lib", "staticlib", "module"] else profile = "cli"
  prepareNodeSources _ := true

/-- **The order of two entries decides**: with the library first the program resolves, though the
module it merges is in another language; with the module first it is refused. -/
theorem demo_order : (demo ["../mathlib", "../vec"]).walk.isSome ∧
    (demo ["../vec", "../mathlib"]).walk.isSome = false ∧
    Reordered (demo ["../mathlib", "../vec"]) (demo ["../vec", "../mathlib"]) ∧
    ¬ (demo ["../mathlib", "../vec"]).Fit ∧
    ∀ T : Toolchain ℕ ℕ, ¬ (demo ["../mathlib", "../vec"]).Resolves T := by
  have hwalk : (demo ["../mathlib", "../vec"]).walk.isSome := by decide
  have hfit : ¬ (demo ["../mathlib", "../vec"]).Fit := by
    intro h
    have hmerge := h.sameLanguage 0 2 .refl (by unfold DependsOn; decide)
    exact absurd (hmerge (by decide)) (by decide)
  refine ⟨hwalk, by decide, ⟨rfl, ⟨rfl, rfl, .swap ..⟩, rfl, rfl, rfl, fun m => ?_, rfl, rfl⟩, hfit,
    fun T h => hfit (h.verdict.mp hwalk)⟩
  show Option.Rel SameEntries ((demo ["../mathlib", "../vec"]).loadProjectConfig m)
    ((demo ["../mathlib", "../vec"]).loadProjectConfig m)
  cases (demo ["../mathlib", "../vec"]).loadProjectConfig m with
  | none => exact .none
  | some c => exact .some ⟨rfl, rfl, .refl _⟩

end DssPrime.Dependency.World
