import Mathlib
import DssPrime.Program.DependencyWalk

/-!
# What the dependency walk checks

`World.walk_isSome_iff` : **the walk ends well exactly on the graphs that are `FirstFit`**: every
reachable manifest is sound, there is no cycle, and the depth and the language rule hold where the
walk meets a manifest first.

`Inv` is what every admission keeps.  A visited manifest is on the stack or prepared, and what is
prepared comes after all it depends on; so the prepared manifests are closed under `dependencies`,
which is what makes the early return of `admitNode_` harmless for the cycle check and blind for
the two checks after it.
-/

namespace DssPrime.Dependency.World

variable {M D : Type} [DecidableEq M] [DecidableEq D] {W : World M D}

def admitAll (visit : M → WalkState M D → Option (WalkState M D)) (parent : M) :
    List M → WalkState M D → Option (WalkState M D)
  | [], s => some s
  | m :: ms, s => (visit m s).bind fun s' => admitAll visit parent ms (addChild parent m s')

omit [DecidableEq D] in
theorem walkChildren_eq_some {visit : M → WalkState M D → Option (WalkState M D)} {p : M}
    {es : List String} {s s' : WalkState M D} :
    W.walkChildren visit p es s = some s' ↔ (∀ e ∈ es, (W.locateEntry (W.dir p) e).isSome) ∧
      admitAll visit p (es.filterMap (W.locateEntry (W.dir p))) s = some s' := by
  induction es generalizing s with
  | nil => simp [walkChildren, admitAll]
  | cons e es ih =>
    cases hm : W.locateEntry (W.dir p) e with
    | none => simp [walkChildren, hm]
    | some m =>
      cases ha : visit m s with
      | none => simp [walkChildren, hm, ha, admitAll]
      | some s₁ => simp [walkChildren, hm, ha, admitAll, ih]

omit [DecidableEq D] in
theorem admitAll_append {visit : M → WalkState M D → Option (WalkState M D)} {p : M}
    {xs ys : List M} {s : WalkState M D} :
    admitAll visit p (xs ++ ys) s = (admitAll visit p xs s).bind (admitAll visit p ys) := by
  induction xs generalizing s with
  | nil => rfl
  | cons x xs ih =>
    cases ha : visit x s with
    | none => simp [admitAll, ha]
    | some s₁ => simp [admitAll, ha, ih]

omit [DecidableEq M] [DecidableEq D] in
theorem loadFor_eq_some {consumer c : ProjectConfig} {m : M} :
    W.loadFor consumer m = some c ↔ W.loadProjectConfig m = some c ∧
      W.languageServes c.language c.artifactProfile = true ∧
      (dependencyCompositionForProfile c.artifactProfile = some .SourceMerge ∧
          c.language = consumer.language ∨
        dependencyCompositionForProfile c.artifactProfile = some .ArtifactLink) := by
  unfold loadFor
  cases hl : W.loadProjectConfig m with
  | none => simp
  | some c' =>
    by_cases hs : W.languageServes c'.language c'.artifactProfile = true
    · simp only [hs, if_true]
      cases hv : dependencyCompositionForProfile c'.artifactProfile with
      | none =>
        simp only [reduceCtorEq, Option.some_inj, false_iff]
        rintro ⟨rfl, -, h⟩
        simp [hv] at h
      | some v =>
        cases v with
        | NotConsumable =>
          simp only [reduceCtorEq, Option.some_inj, false_iff]
          rintro ⟨rfl, -, h⟩
          simp [hv] at h
        | SourceMerge =>
          simp only [Option.ite_none_right_eq_some, Option.some_inj]
          constructor
          · rintro ⟨h, rfl⟩
            exact ⟨rfl, hs, .inl ⟨hv, h⟩⟩
          · rintro ⟨rfl, -, h⟩
            exact ⟨by simpa [hv] using h, rfl⟩
        | ArtifactLink =>
          simp only [Option.some_inj]
          constructor
          · rintro rfl
            exact ⟨rfl, hs, .inr hv⟩
          · rintro ⟨rfl, -, -⟩
            rfl
    · simp only [hs, Bool.false_eq_true, if_false, reduceCtorEq, Option.some_inj, false_iff]
      rintro ⟨rfl, h, -⟩
      exact hs h

def named (W : World M D) (m : M) (s : WalkState M D) : WalkState M D :=
  { s with
    outputNameOwner := Function.update s.outputNameOwner (W.outputName m) (some (W.dir m)) }

omit [DecidableEq M] in
theorem registerOutputName_eq_some {m : M} {s s' : WalkState M D} :
    W.registerOutputName m s = some s' ↔ ¬ Unusable (W.outputName m) ∧
      (∀ d, s.outputNameOwner (W.outputName m) = some d → d = W.dir m) ∧ s' = named W m s := by
  unfold registerOutputName
  by_cases hu : Unusable (W.outputName m)
  · simp [hu]
  · simp only [hu, if_false, not_false_eq_true, true_and]
    cases ho : s.outputNameOwner (W.outputName m) with
    | none => simp [named, eq_comm]
    | some d =>
      have hsame : d = W.dir m → named W m s = s := by
        rintro rfl
        have : Function.update s.outputNameOwner (W.outputName m) (some (W.dir m))
            = s.outputNameOwner := by rw [← ho, Function.update_eq_self]
        simp [named, this]
      by_cases hd : d = W.dir m
      · simp [hd, hsame hd, eq_comm]
      · simp [hd]

def pushed (W : World M D) (m : M) (s : WalkState M D) : WalkState M D :=
  named W m { s with nodes := s.nodes ++ [m] }

def finished (m : M) (s : WalkState M D) : WalkState M D :=
  { s with prepared := s.prepared ++ [m] }

/-- **One admission**: the manifest is not on the stack, and was seen, or is new and passes every
check. -/
theorem admitNode_eq_some {levels : ℕ} {stack : List M} {consumer : ProjectConfig} {m : M}
    {s s' : WalkState M D} :
    W.admitNode levels stack consumer m s = some s' ↔ m ∉ stack ∧
      (m ∈ s.nodes ∧ s' = s ∨ m ∉ s.nodes ∧ ∃ l c s₂, levels = l + 1 ∧
        W.loadFor consumer m = some c ∧ ¬ Unusable (W.outputName m) ∧
        (∀ d, s.outputNameOwner (W.outputName m) = some d → d = W.dir m) ∧
        (∀ e ∈ c.dependsOn, (W.locateEntry (W.dir m) e).isSome) ∧
        admitAll (W.admitNode l (m :: stack) c) m
          (c.dependsOn.filterMap (W.locateEntry (W.dir m))) (pushed W m s) = some s₂ ∧
        W.prepareNodeSources m = true ∧ s' = finished m s₂) := by
  unfold admitNode
  by_cases hst : m ∈ stack
  · simp [hst]
  by_cases hseen : m ∈ s.nodes
  · simp only [hst, hseen, if_true, if_false, not_false_eq_true, not_true_eq_false, true_and,
      false_and, or_false, Option.some_inj]
    exact eq_comm
  simp only [hst, hseen, if_false, not_false_eq_true, true_and, false_and, false_or]
  cases levels with
  | zero => simp
  | succ l =>
    constructor
    · intro h
      cases hl : W.loadFor consumer m with
      | none => simp [hl] at h
      | some c =>
        cases hr : W.registerOutputName m { s with nodes := s.nodes ++ [m] } with
        | none => simp [hl, hr] at h
        | some s₁ =>
          obtain ⟨hu, hown, rfl⟩ := registerOutputName_eq_some.mp hr
          cases hw : W.walkChildren (fun c' => W.admitNode l (m :: stack) c c') m c.dependsOn
              (named W m { s with nodes := s.nodes ++ [m] }) with
          | none => simp [hl, hr, hw] at h
          | some s₂ =>
            obtain ⟨hloc, hall⟩ := walkChildren_eq_some.mp hw
            simp only [hl, hr, hw, Option.ite_none_right_eq_some, Option.some_inj] at h
            exact ⟨l, c, s₂, rfl, rfl, hu, hown, hloc, hall, h.1, h.2.symm⟩
    · rintro ⟨l', c, s₂, hl', hl, hu, hown, hloc, hall, hprep, rfl⟩
      obtain rfl : l = l' := by omega
      have hr : W.registerOutputName m { s with nodes := s.nodes ++ [m] } = some (pushed W m s) :=
        registerOutputName_eq_some.mpr ⟨hu, hown, rfl⟩
      have hw : W.walkChildren (fun c' => W.admitNode l (m :: stack) c c') m c.dependsOn
          (pushed W m s) = some s₂ := walkChildren_eq_some.mpr ⟨hloc, hall⟩
      simp [hl, hr, hw, hprep, finished]

omit [DecidableEq D] in
theorem config_of_ne {m : M} (h : m ≠ W.rootManifest) : W.config m = W.loadProjectConfig m :=
  if_neg h

omit [DecidableEq D] in
@[simp] theorem config_root : W.config W.rootManifest = some W.rootConfig :=
  if_pos rfl

omit [DecidableEq D] in
theorem entries_eq {m : M} {c : ProjectConfig} (h : W.config m = some c) :
    W.entries m = c.dependsOn := by
  simp [entries, h]

omit [DecidableEq D] in
theorem dependencies_eq {m : M} {c : ProjectConfig} (h : W.config m = some c) :
    W.dependencies m = c.dependsOn.filterMap (W.locateEntry (W.dir m)) := by
  rw [dependencies, entries_eq h]

omit [DecidableEq D] in
theorem Reachable.trans {a b : M} (h : W.Reachable a) (hab : W.Reaches a b) : W.Reachable b :=
  Relation.ReflTransGen.trans h hab

omit [DecidableEq D] in
theorem Reachable.step {a b : M} (h : W.Reachable a) (hab : W.DependsOn a b) : W.Reachable b :=
  Relation.ReflTransGen.tail h hab

omit [DecidableEq D] in
theorem FirstMet.edge {t a q : M} {n : ℕ} (h : W.FirstMet t a n q) :
    W.Reaches a q ∧ W.DependsOn q t := by
  induction h with
  | here hd _ => exact ⟨.refl, by simp [DependsOn, hd]⟩
  | deeper hd _ _ ih => exact ⟨.head (by simp [DependsOn, hd]) ih.1, ih.2⟩

omit [DecidableEq D] in
theorem FirstMet.path {t a q : M} {n : ℕ} (h : W.FirstMet t a n q) : W.Path a n t := by
  induction h with
  | here hd _ => exact .cons (by simp [DependsOn, hd]) (.nil _)
  | deeper hd _ _ ih => exact .cons (by simp [DependsOn, hd]) ih

omit [DecidableEq D] in
theorem FirstMet.transGen {t a q : M} {n : ℕ} (h : W.FirstMet t a n q) :
    Relation.TransGen W.DependsOn a t :=
  Relation.TransGen.tail' h.edge.1 h.edge.2

omit [DecidableEq D] in
theorem loadFor_sameLanguage {p m : M} {consumer c : ProjectConfig} (hm : m ≠ W.rootManifest)
    (hp : W.config p = some consumer) (h : W.loadFor consumer m = some c) :
    W.config m = some c ∧ W.SameLanguage p m := by
  obtain ⟨hl, -, hv⟩ := loadFor_eq_some.mp h
  have hc : W.config m = some c := by rw [config_of_ne hm, hl]
  refine ⟨hc, fun hmerge => ?_⟩
  rcases hv with ⟨-, hlang⟩ | hlink
  · simp [language, hc, hp, hlang]
  · simp [composition, hc, hlink] at hmerge

def mentions (ms : List M) : List M :=
  ms.foldl (fun acc m => if m ∈ acc then acc else acc ++ [m]) []

/-- **What holds between two admissions**, with `stack` on the stack. -/
structure Inv (W : World M D) (stack : List M) (s : WalkState M D) : Prop where
  root : W.rootManifest ∈ stack
  stackNodes : ∀ m ∈ stack, m ∈ s.nodes
  cover : ∀ m ∈ s.nodes, m ∈ stack ∨ m ∈ s.prepared
  preparedNodes : ∀ m ∈ s.prepared, m ∈ s.nodes ∧ m ∉ stack
  nodesNodup : s.nodes.Nodup
  preparedNodup : s.prepared.Nodup
  ordered : ∀ l₁ m l₂, s.prepared = l₁ ++ m :: l₂ → ∀ b ∈ W.dependencies m, b ∈ l₁
  sound : ∀ m ∈ s.prepared, W.Sound m
  owner : ∀ m ∈ s.nodes, s.outputNameOwner (W.outputName m) = some (W.dir m)
  ownerFrom : ∀ name d, s.outputNameOwner name = some d →
    ∃ m ∈ s.nodes, W.outputName m = name ∧ W.dir m = d
  reachable : ∀ m ∈ s.nodes, W.Reachable m
  childrenDone : ∀ m ∈ s.prepared, s.children m = mentions (W.dependencies m)
  childrenNew : ∀ m, m ∉ s.nodes → s.children m = []

namespace Inv

variable {stack : List M} {s : WalkState M D}

omit [DecidableEq D] in
theorem closed (h : Inv W stack s) {m b : M} (hm : m ∈ s.prepared) (hb : W.DependsOn m b) :
    b ∈ s.prepared := by
  obtain ⟨l₁, l₂, hl⟩ := List.append_of_mem hm
  rw [hl]
  exact List.mem_append_left _ (h.ordered l₁ m l₂ hl b hb)

omit [DecidableEq D] in
theorem closed_reaches (h : Inv W stack s) {m b : M} (hm : m ∈ s.prepared)
    (hb : W.Reaches m b) : b ∈ s.prepared := by
  induction hb with
  | refl => exact hm
  | tail _ hbc ih => exact h.closed ih hbc

omit [DecidableEq D] in
theorem visited_reaches (h : Inv W stack s) {m b : M} (hm : m ∈ s.nodes) (hst : m ∉ stack)
    (hb : W.Reaches m b) : b ∈ s.nodes :=
  (h.preparedNodes b (h.closed_reaches ((h.cover m hm).resolve_left hst) hb)).1

omit [DecidableEq D] in
theorem before_of_transGen (h : Inv W stack s) {m b : M} (hb : Relation.TransGen W.DependsOn m b) :
    ∀ l₁ l₂, s.prepared = l₁ ++ m :: l₂ → b ∈ l₁ := by
  induction hb with
  | single hmb => exact fun l₁ l₂ hl => h.ordered l₁ m l₂ hl _ hmb
  | @tail b c _ hbc ih =>
    intro l₁ l₂ hl
    obtain ⟨k₁, k₂, hk⟩ := List.append_of_mem (ih l₁ l₂ hl)
    have := h.ordered k₁ b (k₂ ++ m :: l₂) (by rw [hl, hk]; simp) c hbc
    rw [hk]
    exact List.mem_append_left _ this

omit [DecidableEq D] in
theorem acyclic (h : Inv W stack s) {m : M} (hm : m ∈ s.prepared) :
    ¬ Relation.TransGen W.DependsOn m m := by
  intro hc
  obtain ⟨l₁, l₂, hl⟩ := List.append_of_mem hm
  have hmem := h.before_of_transGen hc l₁ l₂ hl
  have hnd := h.preparedNodup
  rw [hl, List.nodup_append] at hnd
  exact hnd.2.2 m hmem m (List.mem_cons_self ..) rfl

omit [DecidableEq D] in
theorem addChild (h : Inv W stack s) {p m : M} (hp : p ∈ stack) :
    Inv W stack (World.addChild p m s) := by
  unfold World.addChild
  split
  · exact h
  · refine { h with
      childrenDone := fun x hx => ?_
      childrenNew := fun x hx => ?_ }
    · have hne : x ≠ p := by
        rintro rfl
        exact (h.preparedNodes x hx).2 hp
      simp only [Function.update_of_ne hne]
      exact h.childrenDone x hx
    · have hne : x ≠ p := by
        rintro rfl
        exact hx (h.stackNodes x hp)
      simp only [Function.update_of_ne hne]
      exact h.childrenNew x hx

omit [DecidableEq D] in
theorem push (h : Inv W stack s) {m : M} (hm : m ∉ s.nodes) (hr : W.Reachable m)
    (hown : ∀ d, s.outputNameOwner (W.outputName m) = some d → d = W.dir m) :
    Inv W (m :: stack) (pushed W m s) where
  root := List.mem_cons_of_mem _ h.root
  stackNodes x hx := by
    rcases List.mem_cons.mp hx with rfl | hx
    · simp [pushed, named]
    · simp [pushed, named, h.stackNodes x hx]
  cover x hx := by
    have hx : x ∈ s.nodes ∨ x = m := by simpa [pushed, named] using hx
    rcases hx with hx | rfl
    · exact (h.cover x hx).imp_left (List.mem_cons_of_mem _)
    · exact .inl (List.mem_cons_self ..)
  preparedNodes x hx := by
    have hnode := h.preparedNodes x hx
    refine ⟨by simp [pushed, named, hnode.1], fun hmem => ?_⟩
    rcases List.mem_cons.mp hmem with rfl | hmem
    · exact hm hnode.1
    · exact hnode.2 hmem
  nodesNodup := by
    simp only [pushed, named]
    exact List.nodup_append.mpr ⟨h.nodesNodup, List.nodup_singleton m, by
      rintro x hx y hy rfl
      exact hm (by simpa using List.mem_singleton.mp hy ▸ hx)⟩
  preparedNodup := h.preparedNodup
  ordered := h.ordered
  sound := h.sound
  owner x hx := by
    have hx : x ∈ s.nodes ∨ x = m := by simpa [pushed, named] using hx
    by_cases hname : W.outputName x = W.outputName m
    · rcases hx with hx | rfl
      · have hdir := hown _ (hname ▸ h.owner x hx)
        simp [pushed, named, hname, hdir]
      · simp [pushed, named]
    · rcases hx with hx | rfl
      · simp only [pushed, named, Function.update_of_ne hname]
        exact h.owner x hx
      · exact absurd rfl hname
  ownerFrom name d hd := by
    by_cases hname : name = W.outputName m
    · subst hname
      simp only [pushed, named, Function.update_self, Option.some_inj] at hd
      exact ⟨m, by simp [pushed, named], rfl, hd⟩
    · simp only [pushed, named, Function.update_of_ne hname] at hd
      obtain ⟨x, hx, hxn, hxd⟩ := h.ownerFrom name d hd
      exact ⟨x, by simp [pushed, named, hx], hxn, hxd⟩
  reachable x hx := by
    have hx : x ∈ s.nodes ∨ x = m := by simpa [pushed, named] using hx
    rcases hx with hx | rfl
    · exact h.reachable x hx
    · exact hr
  childrenDone := h.childrenDone
  childrenNew x hx := h.childrenNew x fun hmem => hx (by simp [pushed, named, hmem])

omit [DecidableEq D] in
theorem pop {m : M} (h : Inv W (m :: stack) s) (hroot : W.rootManifest ∈ stack) (hm : m ∉ stack)
    (hsound : W.Sound m) (hdeps : ∀ b ∈ W.dependencies m, b ∈ s.prepared)
    (hch : s.children m = mentions (W.dependencies m)) : Inv W stack (finished m s) where
  root := hroot
  stackNodes x hx := h.stackNodes x (List.mem_cons_of_mem _ hx)
  cover x hx := by
    rcases h.cover x hx with hst | hp
    · rcases List.mem_cons.mp hst with rfl | hst
      · exact .inr (by simp [finished])
      · exact .inl hst
    · exact .inr (by simp [finished, hp])
  preparedNodes x hx := by
    have hx : x ∈ s.prepared ∨ x = m := by simpa [finished] using hx
    rcases hx with hx | rfl
    · exact ⟨(h.preparedNodes x hx).1, fun hst =>
        (h.preparedNodes x hx).2 (List.mem_cons_of_mem _ hst)⟩
    · exact ⟨h.stackNodes x (List.mem_cons_self ..), hm⟩
  nodesNodup := h.nodesNodup
  preparedNodup := by
    simp only [finished]
    exact List.nodup_append.mpr ⟨h.preparedNodup, List.nodup_singleton m, by
      rintro x hx y hy rfl
      exact (h.preparedNodes x hx).2 (List.mem_singleton.mp hy ▸ List.mem_cons_self ..)⟩
  ordered l₁ x l₂ hl b hb := by
    simp only [finished] at hl
    -- the last manifest of the log is the new one, or the split lies in the log as it was
    rcases List.eq_nil_or_concat l₂ with rfl | ⟨l₂, y, rfl⟩
    · obtain ⟨rfl, hx⟩ := List.append_inj' hl rfl
      obtain rfl : m = x := by simpa using hx
      exact hdeps b hb
    · have hl' : s.prepared ++ [m] = (l₁ ++ x :: l₂) ++ [y] := by rw [hl]; simp
      exact h.ordered l₁ x l₂ (List.append_inj' hl' rfl).1 b hb
  sound x hx := by
    have hx : x ∈ s.prepared ∨ x = m := by simpa [finished] using hx
    rcases hx with hx | rfl
    · exact h.sound x hx
    · exact hsound
  owner := h.owner
  ownerFrom := h.ownerFrom
  reachable := h.reachable
  childrenDone x hx := by
    have hx : x ∈ s.prepared ∨ x = m := by simpa [finished] using hx
    rcases hx with hx | rfl
    · exact h.childrenDone x hx
    · exact hch
  childrenNew := h.childrenNew

end Inv

/-- What admitting a manifest does. -/
structure Admitted (W : World M D) (stack : List M) (m : M) (s s' : WalkState M D) : Prop where
  inv : Inv W stack s'
  off : m ∉ stack
  mem : m ∈ s'.nodes
  grew : ∀ x ∈ s.nodes, x ∈ s'.nodes
  new : ∀ x ∈ s'.nodes, x ∈ s.nodes ∨ W.Reaches m x
  frame : ∀ x ∈ s.nodes, s'.children x = s.children x

/-- What admitting several does. -/
structure AllAdmitted (W : World M D) (stack : List M) (p : M) (ms : List M)
    (s s' : WalkState M D) : Prop where
  inv : Inv W stack s'
  off : ∀ m ∈ ms, m ∉ stack
  mem : ∀ m ∈ ms, m ∈ s'.nodes
  grew : ∀ x ∈ s.nodes, x ∈ s'.nodes
  new : ∀ x ∈ s'.nodes, x ∈ s.nodes ∨ ∃ m ∈ ms, W.Reaches m x
  frame : ∀ x ∈ s.nodes, x ≠ p → s'.children x = s.children x
  children : s'.children p = ms.foldl (fun acc m => if m ∈ acc then acc else acc ++ [m])
    (s.children p)

omit [DecidableEq D] in
@[simp] theorem addChild_nodes (p m : M) (s : WalkState M D) :
    (addChild p m s).nodes = s.nodes := by
  unfold addChild
  split <;> rfl

omit [DecidableEq D] in

omit [DecidableEq D] in
theorem addChild_children_ne {p x : M} (h : x ≠ p) (m : M) (s : WalkState M D) :
    (addChild p m s).children x = s.children x := by
  unfold addChild
  split
  · rfl
  · exact Function.update_of_ne h ..

omit [DecidableEq D] in
theorem addChild_children_self (p m : M) (s : WalkState M D) :
    (addChild p m s).children p =
      if m ∈ s.children p then s.children p else s.children p ++ [m] := by
  unfold addChild
  split <;> simp

omit [DecidableEq D] in
/-- **The entries of one manifest**, when every admission does what it should. -/
theorem admitAll_admitted {visit : M → WalkState M D → Option (WalkState M D)} {stack : List M}
    {p : M} (hvisit : ∀ m s s', Inv W stack s → W.Reachable m → visit m s = some s' →
      Admitted W stack m s s') (hp : p ∈ stack) :
    ∀ ms s s', Inv W stack s → (∀ m ∈ ms, W.Reachable m) → admitAll visit p ms s = some s' →
      AllAdmitted W stack p ms s s' := by
  intro ms
  induction ms with
  | nil =>
    intro s s' hs _ h
    obtain rfl : s = s' := by simpa [admitAll] using h
    exact ⟨hs, by simp, by simp, fun x hx => hx, fun x hx => .inl hx, fun x _ _ => rfl, rfl⟩
  | cons m ms ih =>
    intro s s' hs hr h
    obtain ⟨s₁, h₁, h₂⟩ := Option.bind_eq_some_iff.mp h
    have a₁ := hvisit m s s₁ hs (hr m (List.mem_cons_self ..)) h₁
    have a₂ := ih _ s' (a₁.inv.addChild hp) (fun x hx => hr x (List.mem_cons_of_mem _ hx)) h₂
    refine ⟨a₂.inv, ?_, ?_, ?_, ?_, ?_, ?_⟩
    · intro x hx
      rcases List.mem_cons.mp hx with rfl | hx
      · exact a₁.off
      · exact a₂.off x hx
    · intro x hx
      rcases List.mem_cons.mp hx with rfl | hx
      · exact a₂.grew x (by simpa using a₁.mem)
      · exact a₂.mem x hx
    · exact fun x hx => a₂.grew x (by simpa using a₁.grew x hx)
    · intro x hx
      rcases a₂.new x hx with hx | ⟨y, hy, hyx⟩
      · exact (a₁.new x (by simpa using hx)).imp_right fun hmx =>
          ⟨m, List.mem_cons_self .., hmx⟩
      · exact .inr ⟨y, List.mem_cons_of_mem _ hy, hyx⟩
    · intro x hx hne
      rw [a₂.frame x (by simpa using a₁.grew x hx) hne, addChild_children_ne hne, a₁.frame x hx]
    · rw [a₂.children, addChild_children_self, a₁.frame p (hs.stackNodes p hp), List.foldl_cons]

/-- **What one admission does**: it keeps the invariant, visits the manifest and what it reaches,
and nothing else. -/
theorem admitNode_admitted : ∀ (levels : ℕ) (stack : List M) (consumer : ProjectConfig) (m : M)
    (s s' : WalkState M D), Inv W stack s → W.Reachable m →
    W.admitNode levels stack consumer m s = some s' → Admitted W stack m s s' := by
  intro levels
  induction levels with
  | zero =>
    intro stack consumer m s s' hs hr h
    obtain ⟨hst, ⟨hmem, rfl⟩ | ⟨-, l, _, _, hl, -⟩⟩ := admitNode_eq_some.mp h
    · exact ⟨hs, hst, hmem, fun x hx => hx, fun x hx => .inl hx, fun x _ => rfl⟩
    · exact absurd hl (by omega)
  | succ l ih =>
    intro stack consumer m s s' hs hr h
    obtain ⟨hst, ⟨hmem, rfl⟩ | ⟨hnew, l', c, s₂, hl', hload, hu, hown, hloc, hall, hprep, rfl⟩⟩ :=
      admitNode_eq_some.mp h
    · exact ⟨hs, hst, hmem, fun x hx => hx, fun x hx => .inl hx, fun x _ => rfl⟩
    obtain rfl : l = l' := by omega
    have hroot : m ≠ W.rootManifest := by
      rintro rfl
      exact hst hs.root
    obtain ⟨hcfg, hserves, hverb⟩ := loadFor_eq_some.mp hload
    have hconf : W.config m = some c := by rw [config_of_ne hroot, hcfg]
    rw [← dependencies_eq hconf] at hall
    have hdeps : ∀ b ∈ W.dependencies m, W.Reachable b := fun b hb => hr.step hb
    have a := admitAll_admitted (ih (m :: stack) c) (List.mem_cons_self ..) _ _ _
      (hs.push hnew hr hown) hdeps hall
    have hsound : W.Sound m :=
      ⟨by rw [entries_eq hconf]; exact hloc, hu,
        fun _ => ⟨c, hcfg, hserves, hverb.imp_left And.left⟩, fun _ => hprep⟩
    have hchildren : s₂.children m = mentions (W.dependencies m) := by
      rw [a.children]
      simp only [pushed, named, hs.childrenNew m hnew, mentions]
    have hm₂ : m ∈ s₂.nodes := a.grew m (by simp [pushed, named])
    refine ⟨a.inv.pop hs.root hst hsound (fun b hb => ?_) hchildren, hst, hm₂, ?_, ?_, ?_⟩
    · exact (a.inv.cover b (a.mem b hb)).resolve_left (a.off b hb)
    · exact fun x hx => a.grew x (by simp [pushed, named, hx])
    · intro x hx
      rcases a.new x hx with hx | ⟨b, hb, hbx⟩
      · have hx : x ∈ s.nodes ∨ x = m := by simpa [pushed, named] using hx
        rcases hx with hx | rfl
        · exact .inl hx
        · exact .inr .refl
      · exact .inr (.head hb hbx)
    · intro x hx
      have hne : x ≠ m := by
        rintro rfl
        exact hnew hx
      exact a.frame x (by simp [pushed, named, hx]) hne

theorem entries_admitted {levels : ℕ} {stack : List M} {consumer : ProjectConfig} {p : M}
    {ms : List M} {s s' : WalkState M D} (hs : Inv W stack s) (hp : p ∈ stack)
    (hr : ∀ m ∈ ms, W.Reachable m)
    (h : admitAll (W.admitNode levels stack consumer) p ms s = some s') :
    AllAdmitted W stack p ms s s' :=
  admitAll_admitted (admitNode_admitted levels stack consumer) hp ms s s' hs hr h

/-- **The walk checks a manifest where it meets it first**: the depth and the language, for the
consumer it is met from. -/
theorem firstMet_checked {t a q : M} {n : ℕ} (hf : W.FirstMet t a n q) :
    ∀ (levels : ℕ) (stack : List M) (c : ProjectConfig) (s s' : WalkState M D), Inv W stack s →
      a ∈ stack → W.Reachable a → W.config a = some c → t ∉ s.nodes →
      admitAll (W.admitNode levels stack c) a (W.dependencies a) s = some s' →
      n ≤ levels ∧ W.SameLanguage q t := by
  induction hf with
  | @here a before after hd hbefore =>
    intro levels stack c s s' hs ha hr hc ht h
    have hdeps : ∀ b ∈ W.dependencies a, W.Reachable b := fun b hb => hr.step hb
    rw [hd] at h hdeps
    rw [admitAll_append] at h
    obtain ⟨s₁, h₁, h₂⟩ := Option.bind_eq_some_iff.mp h
    have a₁ := entries_admitted hs ha (fun m hm => hdeps m (List.mem_append_left _ hm)) h₁
    have ht₁ : t ∉ s₁.nodes := by
      intro hmem
      rcases a₁.new t hmem with hmem | ⟨x, hx, hxt⟩
      · exact ht hmem
      · exact hbefore x hx hxt
    obtain ⟨s₂, h₂, -⟩ := Option.bind_eq_some_iff.mp h₂
    obtain ⟨hst, ⟨hmem, -⟩ | ⟨-, l, c', _, rfl, hload, -⟩⟩ := admitNode_eq_some.mp h₂
    · exact absurd hmem ht₁
    · have hroot : t ≠ W.rootManifest := by
        rintro rfl
        exact hst hs.root
      exact ⟨by omega, (loadFor_sameLanguage hroot hc hload).2⟩
  | @deeper a y q n before after hd hbefore hyt ih =>
    intro levels stack c s s' hs ha hr hc ht h
    have hdeps : ∀ b ∈ W.dependencies a, W.Reachable b := fun b hb => hr.step hb
    rw [hd] at h hdeps
    have hry : W.Reachable y := hdeps y (by simp)
    rw [admitAll_append] at h
    obtain ⟨s₁, h₁, h₂⟩ := Option.bind_eq_some_iff.mp h
    have a₁ := entries_admitted hs ha (fun m hm => hdeps m (List.mem_append_left _ hm)) h₁
    have ht₁ : t ∉ s₁.nodes := by
      intro hmem
      rcases a₁.new t hmem with hmem | ⟨x, hx, hxt⟩
      · exact ht hmem
      · exact hbefore x hx hxt
    obtain ⟨s₂, h₂, -⟩ := Option.bind_eq_some_iff.mp h₂
    have a₂ := admitNode_admitted _ _ _ _ _ _ a₁.inv hry h₂
    obtain ⟨hst, ⟨hmem, -⟩ | ⟨hnew, l, c', s₃, rfl, hload, -, hown, -, hall, -, -⟩⟩ :=
      admitNode_eq_some.mp h₂
    · -- a visited `y` would have `t` visited too
      exact absurd (a₁.inv.visited_reaches hmem hst hyt.transGen.to_reflTransGen) ht₁
    · have hroot : y ≠ W.rootManifest := by
        rintro rfl
        exact hst hs.root
      have hcy := (loadFor_sameLanguage hroot hc hload).1
      rw [← dependencies_eq hcy] at hall
      have hne : t ≠ y := by
        rintro rfl
        exact a₂.inv.acyclic ((a₂.inv.cover _ a₂.mem).resolve_left hst) hyt.transGen
      have ht₂ : t ∉ (pushed W y s₁).nodes := by simp [pushed, named, ht₁, hne]
      obtain ⟨hle, hlang⟩ := ih l (y :: stack) c' _ s₃ (a₁.inv.push hnew hry hown)
        (List.mem_cons_self ..) hry hcy ht₂ hall
      exact ⟨by omega, hlang⟩

theorem entries_complete {levels : ℕ} {stack : List M} {c : ProjectConfig} {p : M}
    (hp : p ∈ stack) (hr : W.Reachable p)
    (hvisit : ∀ m s, Inv W stack s → W.DependsOn p m →
      (m ∉ s.nodes → 1 ≤ levels ∧ W.SameLanguage p m) →
      (∀ t n q, t ∉ s.nodes → W.FirstMet t m n q → n + 1 ≤ levels ∧ W.SameLanguage q t) →
      ∃ s', W.admitNode levels stack c m s = some s') :
    ∀ rest walked s, W.dependencies p = walked ++ rest → Inv W stack s →
      (∀ x ∈ walked, x ∈ s.nodes ∧ x ∉ stack) →
      (∀ t n q, t ∉ s.nodes → W.FirstMet t p n q → n ≤ levels ∧ W.SameLanguage q t) →
      ∃ s', admitAll (W.admitNode levels stack c) p rest s = some s' := by
  intro rest
  induction rest with
  | nil => exact fun walked s _ _ _ _ => ⟨s, rfl⟩
  | cons y rest ih =>
    intro walked s hd hs hwalked hfirst
    have hpy : W.DependsOn p y := by simp [DependsOn, hd]
    have hskip : ∀ t, t ∉ s.nodes → ∀ x ∈ walked, ¬ W.Reaches x t := fun t ht x hx hxt =>
      ht (hs.visited_reaches (hwalked x hx).1 (hwalked x hx).2 hxt)
    obtain ⟨s₁, h₁⟩ := hvisit y s hs hpy (fun hy => hfirst y 1 p hy (.here hd (hskip y hy)))
      fun t n q ht hf => hfirst t (n + 1) q ht (.deeper hd (hskip t ht) hf)
    have a := admitNode_admitted _ _ _ _ _ _ hs (hr.step hpy) h₁
    obtain ⟨s', h'⟩ := ih (walked ++ [y]) (addChild p y s₁) (by simp [hd]) (a.inv.addChild hp)
      (fun x hx => by
        rcases List.mem_append.mp hx with hx | hx
        · exact ⟨by simpa using a.grew x (hwalked x hx).1, (hwalked x hx).2⟩
        · obtain rfl := List.mem_singleton.mp hx
          exact ⟨by simpa using a.mem, a.off⟩)
      fun t n q ht hf => hfirst t n q (fun hmem => ht (by simpa using a.grew t hmem)) hf
    exact ⟨s', by simp [admitAll, h₁, h']⟩

/-- **An entry is admitted** when it and all that is first met below it passes the checks. -/
theorem admitNode_complete (hfit : W.FirstFit) : ∀ (levels : ℕ) (stack : List M)
    (consumer : ProjectConfig) (p m : M) (s : WalkState M D), Inv W stack s →
    (∀ x ∈ stack, W.Reaches x p) → W.config p = some consumer → W.Reachable p → W.DependsOn p m →
    (m ∉ s.nodes → 1 ≤ levels ∧ W.SameLanguage p m) →
    (∀ t n q, t ∉ s.nodes → W.FirstMet t m n q → n + 1 ≤ levels ∧ W.SameLanguage q t) →
    ∃ s', W.admitNode levels stack consumer m s = some s' := by
  intro levels
  induction levels with
  | zero =>
    intro stack consumer p m s hs hup hc hr hpm hhere hbelow
    have hm : m ∉ stack := fun hm => hfit.acyclic m (hr.step hpm) (.tail' (hup m hm) hpm)
    by_cases hseen : m ∈ s.nodes
    · exact ⟨s, admitNode_eq_some.mpr ⟨hm, .inl ⟨hseen, rfl⟩⟩⟩
    · exact absurd (hhere hseen).1 (by omega)
  | succ l ih =>
    intro stack consumer p m s hs hup hc hr hpm hhere hbelow
    have hrm : W.Reachable m := hr.step hpm
    have hm : m ∉ stack := fun hm => hfit.acyclic m hrm (.tail' (hup m hm) hpm)
    by_cases hseen : m ∈ s.nodes
    · exact ⟨s, admitNode_eq_some.mpr ⟨hm, .inl ⟨hseen, rfl⟩⟩⟩
    have hroot : m ≠ W.rootManifest := by
      rintro rfl
      exact hm hs.root
    have hsound := hfit.sound m hrm
    obtain ⟨c, hload, hserves, hverb⟩ := hsound.served hroot
    have hcm : W.config m = some c := by rw [config_of_ne hroot, hload]
    have hloadFor : W.loadFor consumer m = some c := by
      refine loadFor_eq_some.mpr ⟨hload, hserves, hverb.imp_left fun hmerge => ⟨hmerge, ?_⟩⟩
      have := (hhere hseen).2 (by simp [composition, hcm, hmerge])
      simpa [language, hcm, hc] using this
    have hown : ∀ d, s.outputNameOwner (W.outputName m) = some d → d = W.dir m := by
      intro d hd
      obtain ⟨x, hx, hxn, rfl⟩ := hs.ownerFrom _ d hd
      exact hfit.distinctNames x m (hs.reachable x hx) hrm hxn
    have hup' : ∀ x ∈ m :: stack, W.Reaches x m := by
      intro x hx
      rcases List.mem_cons.mp hx with rfl | hx
      · exact .refl
      · exact .tail (hup x hx) hpm
    obtain ⟨s₂, hall⟩ := entries_complete (List.mem_cons_self ..) hrm
      (fun y s₁ hs₁ hmy => ih (m :: stack) c m y s₁ hs₁ hup' hcm hrm hmy)
      (W.dependencies m) [] (pushed W m s) rfl (hs.push hseen hrm hown) (by simp)
      fun t n q ht hf => by
        have ht : t ∉ s.nodes := fun hmem => ht (by simp [pushed, named, hmem])
        exact ⟨by have := (hbelow t n q ht hf).1; omega, (hbelow t n q ht hf).2⟩
    have hloc := hsound.located
    rw [entries_eq hcm] at hloc
    rw [dependencies_eq hcm] at hall
    exact ⟨_, admitNode_eq_some.mpr ⟨hm, .inr ⟨hseen, l, c, s₂, rfl, hloadFor, hsound.usable, hown,
      hloc, hall, hsound.prepared hroot, rfl⟩⟩⟩

def started (W : World M D) : WalkState M D :=
  named W W.rootManifest W.rootState

theorem walk_eq_some {s : WalkState M D} : W.walk = some s ↔
    ¬ Unusable (W.outputName W.rootManifest) ∧ (∀ e ∈ W.entries W.rootManifest,
      (W.locateEntry (W.dir W.rootManifest) e).isSome) ∧
    admitAll (W.admitNode kMaxDependencyDepth [W.rootManifest] W.rootConfig) W.rootManifest
      (W.dependencies W.rootManifest) (started W) = some s := by
  rw [dependencies_eq config_root, entries_eq config_root]
  unfold walk
  constructor
  · intro h
    cases hr : W.registerOutputName W.rootManifest W.rootState with
    | none => simp [hr] at h
    | some s₁ =>
      obtain ⟨hu, -, rfl⟩ := registerOutputName_eq_some.mp hr
      simp only [hr] at h
      exact ⟨hu, walkChildren_eq_some.mp h⟩
  · rintro ⟨hu, h⟩
    have hr : W.registerOutputName W.rootManifest W.rootState = some (started W) :=
      registerOutputName_eq_some.mpr ⟨hu, by simp [rootState], rfl⟩
    simp only [hr]
    exact walkChildren_eq_some.mpr h

omit [DecidableEq D] in
theorem root_reachable : W.Reachable W.rootManifest :=
  .refl

omit [DecidableEq D] in
theorem started_inv : Inv W [W.rootManifest] (started W) where
  root := List.mem_singleton_self _
  stackNodes := by simp [started, named, rootState]
  cover := by simp [started, named, rootState]
  preparedNodes := by simp [started, named, rootState]
  nodesNodup := by simp [started, named, rootState]
  preparedNodup := by simp [started, named, rootState]
  ordered l₁ m l₂ h := by simp [started, named, rootState] at h
  sound := by simp [started, named, rootState]
  owner := by simp [started, named, rootState]
  ownerFrom name d h := by
    by_cases hname : name = W.outputName W.rootManifest
    · subst hname
      exact ⟨W.rootManifest, by simp [started, named, rootState], rfl, by
        simpa [started, named, rootState] using h⟩
    · simp [started, named, rootState, hname] at h
  reachable m hm := by
    obtain rfl : m = W.rootManifest := by simpa [started, named, rootState] using hm
    exact root_reachable
  childrenDone := by simp [started, named, rootState]
  childrenNew m _ := rfl

/-- **A walk that ends well** keeps the invariant with the root on the stack and has admitted all
entries of the root. -/
theorem walk_admitted {s : WalkState M D} (h : W.walk = some s) :
    AllAdmitted W [W.rootManifest] W.rootManifest (W.dependencies W.rootManifest) (started W) s :=
  entries_admitted started_inv (List.mem_singleton_self _)
    (fun _ hb => root_reachable.step hb) (walk_eq_some.mp h).2.2

theorem walk_prepared {s : WalkState M D} (h : W.walk = some s) {m : M}
    (hm : Relation.TransGen W.DependsOn W.rootManifest m) : m ∈ s.prepared := by
  obtain ⟨b, hb, hbm⟩ := Relation.TransGen.head'_iff.mp hm
  have a := walk_admitted h
  exact a.inv.closed_reaches ((a.inv.cover b (a.mem b hb)).resolve_left (a.off b hb)) hbm

theorem walk_root_not_prepared {s : WalkState M D} (h : W.walk = some s) :
    W.rootManifest ∉ s.prepared := fun hmem =>
  ((walk_admitted h).inv.preparedNodes _ hmem).2 (List.mem_singleton_self _)

/-- **Every reachable manifest is one node.** -/
theorem walk_nodes {s : WalkState M D} (h : W.walk = some s) {m : M} :
    m ∈ s.nodes ↔ W.Reachable m := by
  have a := walk_admitted h
  refine ⟨a.inv.reachable m, fun hm => ?_⟩
  rcases Relation.reflTransGen_iff_eq_or_transGen.mp hm with rfl | hm
  · exact a.inv.stackNodes _ (List.mem_singleton_self _)
  · exact (a.inv.preparedNodes m (walk_prepared h hm)).1

/-- **The scripts run for exactly what lies below the root.** -/
theorem walk_prepared_iff {s : WalkState M D} (h : W.walk = some s) {m : M} :
    m ∈ s.prepared ↔ W.Reachable m ∧ m ≠ W.rootManifest := by
  constructor
  · intro hm
    refine ⟨(walk_nodes h).mp ((walk_admitted h).inv.preparedNodes m hm).1, ?_⟩
    rintro rfl
    exact walk_root_not_prepared h hm
  · rintro ⟨hm, hne⟩
    rcases Relation.reflTransGen_iff_eq_or_transGen.mp hm with rfl | hm
    · exact absurd rfl hne
    · exact walk_prepared h hm

theorem walk_firstFit {s : WalkState M D} (h : W.walk = some s) : W.FirstFit := by
  have a := walk_admitted h
  obtain ⟨hu, hloc, hall⟩ := walk_eq_some.mp h
  have hfirst : ∀ t n q, W.FirstMet t W.rootManifest n q →
      n ≤ kMaxDependencyDepth ∧ W.SameLanguage q t := by
    intro t n q hf
    have ht : t ∉ (started W).nodes := by
      have hne : t ≠ W.rootManifest := by
        rintro rfl
        exact walk_root_not_prepared h (walk_prepared h hf.transGen)
      simpa [started, named, rootState] using hne
    exact firstMet_checked hf kMaxDependencyDepth _ _ _ s started_inv (List.mem_singleton_self _)
      root_reachable config_root ht hall
  refine ⟨fun m hm => ?_, fun m hm hc => ?_, fun t n q hf => (hfirst t n q hf).1,
    fun t n q hf => (hfirst t n q hf).2, fun x y hx hy hname => ?_⟩
  · by_cases hroot : m = W.rootManifest
    · subst hroot
      exact ⟨hloc, hu, fun h => absurd rfl h, fun h => absurd rfl h⟩
    · exact a.inv.sound m ((walk_prepared_iff h).mpr ⟨hm, hroot⟩)
  · by_cases hroot : m = W.rootManifest
    · subst hroot
      exact walk_root_not_prepared h (walk_prepared h hc)
    · exact a.inv.acyclic ((walk_prepared_iff h).mpr ⟨hm, hroot⟩) hc
  · have hx := a.inv.owner x ((walk_nodes h).mpr hx)
    have hy := a.inv.owner y ((walk_nodes h).mpr hy)
    rw [hname] at hx
    exact Option.some_inj.mp (hx.symm.trans hy)

/-- **The walk ends well exactly on the graphs that pass its checks.** -/
theorem walk_isSome_iff : W.walk.isSome ↔ W.FirstFit := by
  constructor
  · intro h
    obtain ⟨s, hs⟩ := Option.isSome_iff_exists.mp h
    exact walk_firstFit hs
  · intro hfit
    have hroot := hfit.sound W.rootManifest root_reachable
    have hup : ∀ x ∈ [W.rootManifest], W.Reaches x W.rootManifest := by
      intro x hx
      rw [List.mem_singleton.mp hx]
      exact .refl
    obtain ⟨s, hs⟩ := entries_complete (List.mem_singleton_self _) root_reachable
      (fun m s hs hm => admitNode_complete hfit kMaxDependencyDepth [W.rootManifest] W.rootConfig
        W.rootManifest m s hs hup config_root root_reachable hm)
      (W.dependencies W.rootManifest) [] (started W) rfl started_inv (by simp)
      fun t n q _ hf => ⟨hfit.shallow t n q hf, hfit.sameLanguage t n q hf⟩
    exact Option.isSome_iff_exists.mpr ⟨s, walk_eq_some.mpr ⟨hroot.usable, hroot.located, hs⟩⟩

omit [DecidableEq D] in

omit [DecidableEq D] in
/-- **Fit is what the walk checks and nothing overlooked.** -/
theorem fit_iff : W.Fit ↔ W.FirstFit ∧ ¬ W.Overlooked := by
  constructor
  · intro h
    refine ⟨⟨h.sound, h.acyclic, fun t n q hf => h.shallow n t hf.path, fun t n q hf =>
      h.sameLanguage q t (root_reachable.trans hf.edge.1) hf.edge.2, fun a b ha hb hname => by
        rw [h.distinctNames a b ha hb hname]⟩, ?_⟩
    rintro (⟨n, m, hp, hn⟩ | ⟨a, b, ha, hab, hne⟩ | ⟨a, b, ha, hb, hdir, hne⟩)
    · exact absurd (h.shallow n m hp) (by omega)
    · exact hne (h.sameLanguage a b ha hab)
    · exact hne (h.distinctNames a b ha hb (by rw [outputName, hdir, outputName]))
  · rintro ⟨h, ho⟩
    refine ⟨h.sound, h.acyclic, fun n m hp => ?_, fun a b ha hab => ?_, fun a b ha hb hname => ?_⟩
    · by_contra hn
      exact ho (.inl ⟨n, m, hp, by omega⟩)
    · by_contra hn
      exact ho (.inr (.inl ⟨a, b, ha, hab, hn⟩))
    · by_contra hne
      exact ho (.inr (.inr ⟨a, b, ha, hb, h.distinctNames a b ha hb hname, hne⟩))

end DssPrime.Dependency.World
