import Mathlib
import DssPrime.Program.DependencyBuilds

/-!
# The tables of the builds are sound

`Builds.gatherTargets_eq` : **with its tables the gathering answers what the recursion without
them answers**, every call of `buildNode_` was given the artifacts the plain recursion gives that
build, and no node is built twice for one consumer target.

The table of gathered artifacts may be kept by node and consumer target alone because a derived
format is of the kind it was derived for: below one consumer target every enclosing format has the
kind of the target's own, and of the enclosing format only the kind matters.
-/

namespace DssPrime.Dependency.Builds

variable {M P : Type} [DecidableEq M] [DecidableEq P] {B : Builds M P} {rank : M → ℕ}

def Below (B : Builds M P) : M → M → Prop :=
  Relation.TransGen fun a b => b ∈ B.children a

def runKey (r : BuildRun M P) : M × String :=
  (r.node, r.consumerSpec)

/-- Each artifact-link node below `m` was built for the target. -/
def Covered (B : Builds M P) (g : GatherState M P) (spec : String) (m : M) : Prop :=
  ∀ c, B.Below m c → B.composition c ≠ .SourceMerge → (c, spec) ∈ g.runs.map runKey

/-- **What the tables promise.** -/
structure MemoOk (B : Builds M P) (rank : M → ℕ) (g : GatherState M P) : Prop where
  gathered : ∀ m spec target fmt incoming, B.targetSpec spec = some (target, fmt) →
    g.gatherMemo (m, spec) = some incoming → (∀ f n, f.kind = fmt.kind → rank m < n →
      B.gatherPlain target n m f = some incoming) ∧ Covered B g spec m
  built : ∀ m spec target fmt artifact, B.targetSpec spec = some (target, fmt) →
    g.artifactMemo (m, spec) = some artifact → ∃ depFmt inner,
      B.derivedFormat target (B.artifactProfile m) fmt.kind = some depFmt ∧
      (∀ n, rank m < n → B.gatherPlain target n m depFmt = some inner) ∧
      B.buildNode m target depFmt inner = some artifact
  derived : ∀ kind target profile f, g.derivedMemo (kind, target, profile) = some f →
    B.derivedFormat target profile kind = some f
  runs : ∀ r ∈ g.runs, ∀ target fmt, B.targetSpec r.consumerSpec = some (target, fmt) →
    B.derivedFormat target (B.artifactProfile r.node) fmt.kind = some r.format ∧
    ∀ n, rank r.node < n → B.gatherPlain target n r.node r.format = some r.inputs
  runsNodup : (g.runs.map runKey).Nodup
  runsMemo : ∀ k, (g.artifactMemo k).isSome ↔ k ∈ g.runs.map runKey

def Grows (g g' : GatherState M P) : Prop :=
  ∀ k ∈ g.runs.map runKey, k ∈ g'.runs.map runKey

omit [DecidableEq M] [DecidableEq P] in
theorem Covered.mono {g g' : GatherState M P} {spec : String} {m : M} (h : Covered B g spec m)
    (hg : Grows g g') : Covered B g' spec m := fun c hc hl => hg _ (h c hc hl)

omit [DecidableEq M] in
theorem memoOk_empty : MemoOk B rank (GatherState.empty : GatherState M P) := by
  constructor <;> simp [GatherState.empty]

/-- A step with the tables answers what the step without them answers, and keeps them sound. -/
structure Agrees {α : Type} (B : Builds M P) (rank : M → ℕ) (g : GatherState M P)
    (after : GatherState M P → Prop) (x : Option (α × GatherState M P)) (y : Option α) :
    Prop where
  answer : x.map Prod.fst = y
  tables : ∀ a g', x = some (a, g') → MemoOk B rank g' ∧ Grows g g' ∧ after g'

namespace Agrees

variable {α β : Type} {g : GatherState M P} {after after' : GatherState M P → Prop}

omit [DecidableEq M] in
theorem pure (a : α) (hg : MemoOk B rank g) (h : after g) :
    Agrees B rank g after (some (a, g)) (some a) :=
  ⟨rfl, fun b g' hb => by
    obtain ⟨rfl, rfl⟩ : a = b ∧ g = g' := by simpa using hb
    exact ⟨hg, fun k hk => hk, h⟩⟩

omit [DecidableEq M] in
theorem fail : Agrees B rank g after (none : Option (α × GatherState M P)) none :=
  ⟨rfl, fun a g' h => by cases h⟩

omit [DecidableEq M] in
theorem bind {x : Option (α × GatherState M P)} {y : Option α}
    {k : α × GatherState M P → Option (β × GatherState M P)} {k' : α → Option β}
    (h : Agrees B rank g after x y)
    (hk : ∀ a g', MemoOk B rank g' → Grows g g' → after g' → y = some a →
      Agrees B rank g' after' (k (a, g')) (k' a)) :
    Agrees B rank g after' (x.bind k) (y.bind k') := by
  cases hx : x with
  | none =>
    have hy : y = none := by rw [← h.answer, hx, Option.map_none]
    subst hy
    exact fail
  | some p =>
    obtain ⟨a, g'⟩ := p
    have hy : y = some a := by rw [← h.answer, hx, Option.map_some]
    obtain ⟨hok, hgrow, hafter⟩ := h.tables a g' hx
    have hka := hk a g' hok hgrow hafter hy
    subst hy
    refine ⟨hka.answer, fun b g'' hb => ?_⟩
    obtain ⟨hok', hgrow', hafter'⟩ := hka.tables b g'' hb
    exact ⟨hok', fun q hq => hgrow' q (hgrow q hq), hafter'⟩

end Agrees

omit [DecidableEq M] [DecidableEq P] in
theorem Grows.refl (g : GatherState M P) : Grows g g := fun _ h => h

section Steps

variable {spec target : String} {fmt : ShippedFormat}
  (hspec : B.targetSpec spec = some (target, fmt))

omit [DecidableEq M] in
/-- **The derived format comes from the table or is the only candidate.** -/
theorem deriveFormat_agrees (m : M) {f : ShippedFormat} {g : GatherState M P}
    (hg : MemoOk B rank g) :
    Agrees B rank g (fun _ => True) (B.deriveFormat target m f g)
      (B.derivedFormat target (B.artifactProfile m) f.kind) := by
  unfold deriveFormat
  cases hm : g.derivedMemo (f.kind, target, B.artifactProfile m) with
  | some d =>
    rw [hg.derived _ _ _ d hm]
    exact .pure d hg trivial
  | none =>
    cases hd : B.derivedFormat target (B.artifactProfile m) f.kind with
    | none => exact .fail
    | some d =>
      refine ⟨rfl, fun a g' ha => ?_⟩
      obtain ⟨rfl, rfl⟩ := Prod.mk.inj (Option.some_inj.mp ha)
      refine ⟨{ hg with derived := fun kind t profile f' hf' => ?_ }, Grows.refl g, trivial⟩
      by_cases hk : (kind, t, profile) = (f.kind, target, B.artifactProfile m)
      · obtain ⟨rfl, rfl, rfl⟩ : kind = f.kind ∧ t = target ∧ profile = B.artifactProfile m := by
          simpa using hk
        rw [hd]
        simpa using hf'
      · simp only [Function.update_of_ne hk] at hf'
        exact hg.derived kind t profile f' hf'

include hspec in
/-- **A node is built once**, from what the plain recursion gathers for it. -/
theorem buildOnce_agrees {m : M} {depFmt : ShippedFormat} {inner : List (BuiltArtifact P)}
    {g : GatherState M P} (hg : MemoOk B rank g)
    (hd : B.derivedFormat target (B.artifactProfile m) fmt.kind = some depFmt)
    (hinner : ∀ n, rank m < n → B.gatherPlain target n m depFmt = some inner) :
    Agrees B rank g (fun g' => (m, spec) ∈ g'.runs.map runKey)
      (B.buildOnce spec target m depFmt inner g) (B.buildNode m target depFmt inner) := by
  unfold buildOnce
  cases hm : g.artifactMemo (m, spec) with
  | some p =>
    obtain ⟨d, i, hd', hi, hb⟩ := hg.built m spec target fmt p hspec hm
    obtain rfl : depFmt = d := Option.some_inj.mp (hd.symm.trans hd')
    obtain rfl : inner = i := Option.some_inj.mp
      ((hinner (rank m + 1) (by omega)).symm.trans (hi (rank m + 1) (by omega)))
    rw [hb]
    exact .pure p hg ((hg.runsMemo _).mp (by simp [hm]))
  | none =>
    cases hb : B.buildNode m target depFmt inner with
    | none => exact .fail
    | some p =>
      refine ⟨rfl, fun a g' ha => ?_⟩
      obtain ⟨rfl, rfl⟩ := Prod.mk.inj (Option.some_inj.mp ha)
      have hnew : (m, spec) ∉ g.runs.map runKey := by
        rw [← hg.runsMemo, hm]
        simp
      have hgrow : Grows g { g with
          artifactMemo := Function.update g.artifactMemo (m, spec) (some p)
          runs := g.runs ++ [⟨m, spec, depFmt, inner⟩] } := by
        intro k hk
        simp only [List.map_append, List.mem_append]
        exact .inl hk
      refine ⟨⟨?_, ?_, hg.derived, ?_, ?_, ?_⟩, hgrow, by simp [runKey]⟩
      · intro x sp t f incoming hsp hx
        obtain ⟨h₁, h₂⟩ := hg.gathered x sp t f incoming hsp hx
        exact ⟨h₁, h₂.mono hgrow⟩
      · intro x sp t f artifact hsp hx
        by_cases hk : (x, sp) = (m, spec)
        · obtain ⟨rfl, rfl⟩ : x = m ∧ sp = spec := by simpa using hk
          obtain ⟨rfl, rfl⟩ : target = t ∧ fmt = f := by
            simpa using hspec.symm.trans hsp
          obtain rfl : p = artifact := by simpa using hx
          exact ⟨depFmt, inner, hd, hinner, hb⟩
        · simp only [Function.update_of_ne hk] at hx
          exact hg.built x sp t f artifact hsp hx
      · intro r hr t f hsp
        rcases List.mem_append.mp hr with hr | hr
        · exact hg.runs r hr t f hsp
        · obtain rfl := List.mem_singleton.mp hr
          obtain ⟨rfl, rfl⟩ : target = t ∧ fmt = f := by
            simpa using hspec.symm.trans hsp
          exact ⟨hd, hinner⟩
      · rw [List.map_append]
        exact List.nodup_append.mpr ⟨hg.runsNodup, List.nodup_singleton _, by
          rintro k hk k' hk' rfl
          obtain rfl : k = (m, spec) := by simpa [runKey] using hk'
          exact hnew hk⟩
      · intro k
        rw [List.map_append, List.mem_append, ← hg.runsMemo]
        by_cases hk : k = (m, spec)
        · subst hk
          simp [runKey]
        · simp [runKey, hk]

include hspec in
/-- **The loop over the children agrees**, when the visits of the children do. -/
theorem gatherChildren_agrees {n : ℕ} {f : ShippedFormat} (hkind : f.kind = fmt.kind) :
    ∀ (cs : List M) (_ : ∀ c ∈ cs, rank c < n ∧ ∀ d g, MemoOk B rank g → d.kind = fmt.kind →
        Agrees B rank g (fun g' => Covered B g' spec c) (B.gather spec target n c d g)
          (B.gatherPlain target n c d))
      (_ : ∀ c ∈ cs, ∀ k k' d, rank c < k → rank c < k' →
        B.gatherPlain target k c d = B.gatherPlain target k' c d)
      (incoming : List (BuiltArtifact P)) (g : GatherState M P), MemoOk B rank g →
      Agrees B rank g (fun g' => ∀ c ∈ cs, Covered B g' spec c ∧
          (B.composition c ≠ .SourceMerge → (c, spec) ∈ g'.runs.map runKey))
        (B.gatherChildren spec target (B.gather spec target n) f cs incoming g)
        (B.plainChildren target (B.gatherPlain target n) f cs incoming) := by
  intro cs
  induction cs with
  | nil => exact fun _ _ incoming g hg => .pure incoming hg (by simp)
  | cons c cs ih =>
    intro hvisit hlevels incoming g hg
    obtain ⟨hc, hvc⟩ := hvisit c (List.mem_cons_self ..)
    have ih := ih (fun x hx => hvisit x (List.mem_cons_of_mem _ hx))
      fun x hx => hlevels x (List.mem_cons_of_mem _ hx)
    -- what holds of the child before the rest holds after it
    have hrest : ∀ (incoming' : List (BuiltArtifact P)) (g' : GatherState M P), MemoOk B rank g' →
        Covered B g' spec c →
        (B.composition c ≠ .SourceMerge → (c, spec) ∈ g'.runs.map runKey) →
        Agrees B rank g' (fun g' => ∀ x ∈ c :: cs, Covered B g' spec x ∧
            (B.composition x ≠ .SourceMerge → (x, spec) ∈ g'.runs.map runKey))
          (B.gatherChildren spec target (B.gather spec target n) f cs incoming' g')
          (B.plainChildren target (B.gatherPlain target n) f cs incoming') := by
      intro incoming' g' hg' hcov hrun
      have h := ih incoming' g' hg'
      refine ⟨h.answer, fun a g'' ha => ?_⟩
      obtain ⟨hok, hgrow, hall⟩ := h.tables a g'' ha
      refine ⟨hok, hgrow, fun x hx => ?_⟩
      rcases List.mem_cons.mp hx with rfl | hx
      · exact ⟨hcov.mono hgrow, fun hl => hgrow _ (hrun hl)⟩
      · exact hall x hx
    unfold gatherChildren plainChildren
    by_cases hlang : B.crossValidateLanguageTarget (B.language c) target = false
    · simp only [hlang, if_true]
      exact .fail
    simp only [hlang]
    by_cases hmerge : B.composition c = .SourceMerge
    · simp only [hmerge, if_true]
      refine (hvc f g hg hkind).bind fun sub g₁ hg₁ _ hcov _ => ?_
      exact hrest _ g₁ hg₁ hcov fun hl => absurd hmerge hl
    · simp only [hmerge, if_false]
      refine (deriveFormat_agrees c hg).bind fun d g₁ hg₁ _ _ hd => ?_
      rw [hkind] at hd
      have hdk : d.kind = fmt.kind := B.derivedFormat_kind hd
      refine (hvc d g₁ hg₁ hdk).bind fun inner g₂ hg₂ _ hcov hinner => ?_
      have hall : ∀ k, rank c < k → B.gatherPlain target k c d = some inner := fun k hk => by
        rw [hlevels c (List.mem_cons_self ..) k n d hk hc, hinner]
      refine (buildOnce_agrees hspec hg₂ hd hall).bind fun artifact g₃ hg₃ hgrow hrun _ => ?_
      exact hrest _ g₃ hg₃ (hcov.mono hgrow) fun _ => hrun

include hspec in
/-- **`gather_` answers what the plain recursion answers**, and keeps its tables sound. -/
theorem gather_agrees (hrank : ∀ m, ∀ c ∈ B.children m, rank c < rank m) :
    ∀ (n : ℕ) (m : M) (f : ShippedFormat) (g : GatherState M P), rank m < n → MemoOk B rank g →
      f.kind = fmt.kind → Agrees B rank g (fun g' => Covered B g' spec m)
        (B.gather spec target n m f g) (B.gatherPlain target n m f) := by
  intro n
  induction n with
  | zero => exact fun m f g h => absurd h (by omega)
  | succ n ih =>
    intro m f g hm hg hkind
    unfold gather
    cases hmemo : g.gatherMemo (m, spec) with
    | some incoming =>
      obtain ⟨h, hcov⟩ := hg.gathered m spec target fmt incoming hspec hmemo
      rw [h f (n + 1) hkind hm]
      exact .pure incoming hg hcov
    | none =>
      have hchild : ∀ c ∈ B.children m, rank c < n := fun c hc => by
        have := hrank m c hc
        omega
      have h := gatherChildren_agrees hspec hkind (B.children m)
        (fun c hc => ⟨hchild c hc, fun d g' hg' hd => ih c d g' (hchild c hc) hg' hd⟩)
        (fun c _ k k' d hk hk' => B.gatherPlain_levels hrank k k' c d hk hk') [] g hg
      have hplain : B.gatherPlain target (n + 1) m f
          = (B.plainChildren target (B.gatherPlain target n) f (B.children m) []).bind some := by
        rw [Option.bind_fun_some]
        rfl
      rw [hplain]
      refine h.bind fun incoming g₁ hg₁ _ hall hanswer => ?_
      have hcov : Covered B g₁ spec m := by
        intro x hx hl
        obtain ⟨c, hc, hcx⟩ := Relation.TransGen.head'_iff.mp hx
        rcases Relation.reflTransGen_iff_eq_or_transGen.mp hcx with rfl | hcx
        · exact (hall x hc).2 hl
        · exact (hall c hc).1 x hcx hl
      refine ⟨rfl, fun a g' ha => ?_⟩
      obtain ⟨rfl, rfl⟩ := Prod.mk.inj (Option.some_inj.mp ha)
      refine ⟨{ hg₁ with gathered := fun x sp t f' incoming' hsp hx => ?_ }, Grows.refl g₁, hcov⟩
      by_cases hk : (x, sp) = (m, spec)
      · obtain ⟨rfl, rfl⟩ : x = m ∧ sp = spec := by simpa using hk
        obtain ⟨rfl, rfl⟩ : target = t ∧ fmt = f' := by simpa using hspec.symm.trans hsp
        obtain rfl : incoming = incoming' := by simpa using hx
        refine ⟨fun d k hd hk' => ?_, hcov⟩
        rw [B.gatherPlain_levels hrank k (n + 1) x d hk' hm,
          B.gatherPlain_kind (hd.trans hkind.symm) (n + 1) x]
        exact hanswer
      · simp only [Function.update_of_ne hk] at hx
        exact hg₁.gathered x sp t f' incoming' hsp hx

end Steps

/-- **The targets of `run`**: with the tables kept from target to target, each gathers what the
plain recursion gathers for it alone, and every artifact-link node below the root is built for
it. -/
theorem gatherTargets_agrees (hrank : ∀ m, ∀ c ∈ B.children m, rank c < rank m) {n : ℕ} {root : M}
    (hroot : rank root < n) : ∀ (specs : List String) (g : GatherState M P), MemoOk B rank g →
      Agrees B rank g (fun g' => ∀ spec ∈ specs, (B.targetSpec spec).isSome →
          Covered B g' spec root)
        (B.gatherTargets n root specs g) (B.plainTargets n root specs) := by
  intro specs
  induction specs with
  | nil => exact fun g hg => .pure [] hg (by simp)
  | cons spec specs ih =>
    intro g hg
    unfold gatherTargets plainTargets
    cases hspec : B.targetSpec spec with
    | none =>
      have h := ih g hg
      refine ⟨h.answer, fun a g' ha => ?_⟩
      obtain ⟨hok, hgrow, hall⟩ := h.tables a g' ha
      refine ⟨hok, hgrow, fun x hx hs => ?_⟩
      rcases List.mem_cons.mp hx with rfl | hx
      · simp [hspec] at hs
      · exact hall x hx hs
    | some p =>
      obtain ⟨target, fmt⟩ := p
      refine (gather_agrees hspec hrank n root fmt g hroot hg rfl).bind
        fun incoming g₁ hg₁ _ hcov _ => ?_
      have h := ih g₁ hg₁
      cases hx : B.gatherTargets n root specs g₁ with
      | none =>
        have hy : B.plainTargets n root specs = none := by rw [← h.answer, hx, Option.map_none]
        simp only [hy]
        exact .fail
      | some p =>
        obtain ⟨rest, g₂⟩ := p
        have hy : B.plainTargets n root specs = some rest := by
          rw [← h.answer, hx, Option.map_some]
        obtain ⟨hok, hgrow, hall⟩ := h.tables rest g₂ hx
        simp only [hy, Option.bind_some]
        refine ⟨rfl, fun a g' ha => ?_⟩
        obtain ⟨rfl, rfl⟩ := Prod.mk.inj (Option.some_inj.mp ha)
        refine ⟨hok, hgrow, fun x hx hs => ?_⟩
        rcases List.mem_cons.mp hx with rfl | hx
        · exact hcov.mono hgrow
        · exact hall x hx hs

end DssPrime.Dependency.Builds
