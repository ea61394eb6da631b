import DssPrime.Types.CompositeIdentity

/-!
# The identity of composites and the order of the units

The table of tags keeps the first definition it sees, and calls a tag ambiguous only if two
definitions differ in their own signature.

What a forward declaration may denote over all orders is `Denotes`; two nodes are `Alike` if they
have one signature and everything that their references may denote is alike.
-/

namespace DssPrime

variable {K : Type} [DecidableEq K]

def IsCompositeOf (units : List TypeArena) (x : TypeArena × ℕ) : Prop :=
  x.1 ∈ units ∧ ∃ r, x.1.get? x.2 = some r ∧ r.IsComposite

def OneSignature (units : List TypeArena) (t : Tag) : Prop :=
  ∀ d ∈ definitionsOf (allComposites units) t, ∀ d' ∈ definitionsOf (allComposites units) t,
    (localSignature d.1 d.2.2).1 = (localSignature d'.1 d'.2.2).1

def Resolves (units : List TypeArena) (t : Tag) : Prop :=
  t.Named ∧ OneSignature units t ∧ definitionsOf (allComposites units) t ≠ []

def firstDefinition (a : TypeArena) (t : Tag) : Option (ℕ × TypeRecord) :=
  a.composites.find? fun x => x.2.composite.complete = true ∧ x.2.tag = t

/-- What a composite may denote: itself if it is complete, else the first definition of its tag in
any of the units, or a placeholder if the tag does not resolve. -/
inductive Denotes (units : List TypeArena) (x : TypeArena × ℕ) : CompositeNode → Prop
  | self {r : TypeRecord} (hr : x.1.get? x.2 = some r) (hc : r.composite.complete = true) :
    Denotes units x (.composite x.1 x.2)
  | definition {r : TypeRecord} (hr : x.1.get? x.2 = some r) (hc : r.composite.complete = false)
    (ht : Resolves units r.tag) {a : TypeArena} (ha : a ∈ units) {d : ℕ × TypeRecord}
    (hd : firstDefinition a r.tag = some d) : Denotes units x (.composite a d.1)
  | placeholder {r : TypeRecord} (hr : x.1.get? x.2 = some r) (hc : r.composite.complete = false)
    (ht : ¬ Resolves units r.tag) : Denotes units x (.placeholder r.tag)

def Alike (units : List TypeArena) (v w : CompositeNode) : Prop :=
  ∃ R : CompositeNode → CompositeNode → Prop,
    (∀ v w, R v w → signatureOf v = signatureOf w ∧
      List.Forall₂ (fun x y => ∀ x', Denotes units x x' → ∀ y', Denotes units y y' → R x' y')
        (refsOf v) (refsOf w)) ∧
    R v w

def Agreeing (units : List TypeArena) : Prop :=
  ∀ x, IsCompositeOf units x → ∀ r, x.1.get? x.2 = some r → r.composite.complete = false →
    ∀ v w, Denotes units x v → Denotes units x w → Alike units v w

/-- Two indexes give the composites of the units one equality, and read forward declarations as
definitions that are one. -/
def SameIdentity (m : Mixer K) (units : List TypeArena) (I J : CompositeIdentityIndex K) : Prop :=
  (∀ x y, IsCompositeOf units x → IsCompositeOf units y →
    (keyFor m I x = keyFor m I y ↔ keyFor m J x = keyFor m J y)) ∧
  ∀ x, IsCompositeOf units x → ∀ r, x.1.get? x.2 = some r → r.composite.complete = false →
    (resolveDefinition I r).isSome = (resolveDefinition J r).isSome ∧
    ∀ d d', resolveDefinition I r = some d → resolveDefinition J r = some d' →
      keyFor m I d = keyFor m I d'

def OrderIndependent (m : Mixer K) (units : List TypeArena) : Prop :=
  ∀ order order', order.Perm units → order'.Perm units →
    SameIdentity m units (observeAll m order) (observeAll m order')

def Denoted (units : List TypeArena) (v : CompositeNode) : Prop :=
  ∃ x, IsCompositeOf units x ∧ Denotes units x v

/-- No two signatures of the units, and no two mixtures of the rounds in any order, have one
digest. -/
structure NoCollision (m : Mixer K) (units : List TypeArena) : Prop where
  digests : ∀ v w, Denoted units v → Denoted units w → ownDigest m v = ownDigest m w →
    signatureOf v = signatureOf w
  rounds : ∀ order, order.Perm units →
    Refine.CollisionFree (ownDigest m) (refNodes (observeAll m order)) m.combine
      (nodesOf (observeAll m order))

theorem mem_composites {a : TypeArena} {x : ℕ × TypeRecord} :
    x ∈ a.composites ↔ a.get? x.1 = some x.2 ∧ x.2.IsComposite := by
  obtain ⟨id, r⟩ := x
  simp only [TypeArena.composites, List.mem_filterMap, Prod.exists]
  constructor
  · rintro ⟨r', i, hmem, h⟩
    split at h
    · next hr =>
      simp only [Option.some.injEq, Prod.mk.injEq] at h
      obtain ⟨rfl, rfl⟩ := h
      have := List.mem_zipIdx_iff_getElem?.mp hmem
      exact ⟨by simpa [TypeArena.get?] using this, hr⟩
    · cases h
  · rintro ⟨hget, hr⟩
    obtain ⟨hpos, htypes⟩ := TypeArena.get?_eq_some hget
    refine ⟨r, id - 1, List.mem_zipIdx_iff_getElem?.mpr htypes, ?_⟩
    rw [if_pos hr, Nat.sub_add_cancel hpos]

theorem mem_definitionsOf {units : List TypeArena} {t : Tag} {d : TypeArena × ℕ × TypeRecord} :
    d ∈ definitionsOf (allComposites units) t ↔
      d.1 ∈ units ∧ d.2 ∈ d.1.composites ∧ d.2.2.composite.complete = true ∧ d.2.2.tag = t := by
  obtain ⟨a, x⟩ := d
  simp only [definitionsOf, allComposites, List.mem_filter, List.mem_flatMap, List.mem_map,
    Prod.mk.injEq, decide_eq_true_eq]
  constructor
  · rintro ⟨⟨_, ha, _, hx, rfl, rfl⟩, hd⟩
    exact ⟨ha, hx, hd⟩
  · rintro ⟨ha, hx, hd⟩
    exact ⟨⟨a, ha, x, hx, rfl, rfl⟩, hd⟩

theorem mem_definitionsOf_perm {order units : List TypeArena} (h : order.Perm units) {t : Tag}
    {d : TypeArena × ℕ × TypeRecord} :
    d ∈ definitionsOf (allComposites order) t ↔ d ∈ definitionsOf (allComposites units) t := by
  rw [mem_definitionsOf, mem_definitionsOf, h.mem_iff]

theorem firstDefinition_spec {a : TypeArena} {t : Tag} {d : ℕ × TypeRecord}
    (h : firstDefinition a t = some d) :
    d ∈ a.composites ∧ d.2.composite.complete = true ∧ d.2.tag = t := by
  have hd := List.find?_some h
  exact ⟨List.mem_of_find?_eq_some h, by simpa using hd⟩

theorem firstDefinition_of_head {order : List TypeArena} {t : Tag}
    {d : TypeArena × ℕ × TypeRecord} {ds : List (TypeArena × ℕ × TypeRecord)}
    (h : definitionsOf (allComposites order) t = d :: ds) : firstDefinition d.1 t = some d.2 := by
  induction order with
  | nil => cases h
  | cons a order ih =>
    have hsplit : definitionsOf (allComposites (a :: order)) t =
        ((a.composites.filter fun x => x.2.composite.complete = true ∧ x.2.tag = t).map
          fun x => (a, x)) ++ definitionsOf (allComposites order) t := by
      simp only [definitionsOf, allComposites, List.flatMap_cons, List.filter_append,
        List.filter_map]
      rfl
    rw [hsplit] at h
    cases hf : a.composites.filter fun x => x.2.composite.complete = true ∧ x.2.tag = t with
    | nil =>
      rw [hf] at h
      exact ih h
    | cons x xs =>
      rw [hf, List.map_cons, List.cons_append] at h
      obtain ⟨rfl, -⟩ := List.cons.inj h
      show a.composites.find? _ = some x
      rw [← List.head?_filter, hf]
      rfl

theorem definitionsOf_cons {a : TypeArena} (rest : List TypeArena) {t : Tag}
    {d : ℕ × TypeRecord} (h : firstDefinition a t = some d) :
    ∃ ds, definitionsOf (allComposites (a :: rest)) t = (a, d) :: ds := by
  have hd := firstDefinition_spec h
  cases hdefs : definitionsOf (allComposites (a :: rest)) t with
  | nil =>
    have hmem : (a, d) ∈ definitionsOf (allComposites (a :: rest)) t :=
      mem_definitionsOf.mpr ⟨List.mem_cons_self, hd⟩
    rw [hdefs] at hmem
    cases hmem
  | cons e es =>
    refine ⟨es, ?_⟩
    have hfilter : (a.composites.filter fun x =>
        x.2.composite.complete = true ∧ x.2.tag = t).head? =
        some d := by
      rw [List.head?_filter]
      exact h
    have hhead : (definitionsOf (allComposites (a :: rest)) t).head? = some (a, d) := by
      simp only [definitionsOf, allComposites, List.flatMap_cons, List.filter_append,
        List.filter_map]
      rw [List.head?_append, List.head?_map]
      erw [hfilter]
      rfl
    rw [hdefs, List.head?_cons, Option.some_inj] at hhead
    rw [hhead]

theorem Denotes.eq_self {units : List TypeArena} {x : TypeArena × ℕ} {r : TypeRecord}
    {v : CompositeNode} (h : Denotes units x v) (hr : x.1.get? x.2 = some r)
    (hc : r.composite.complete = true) : v = .composite x.1 x.2 := by
  cases h with
  | self => rfl
  | definition hr' hc' =>
    rw [hr, Option.some_inj] at hr'
    rw [hr', hc'] at hc
    cases hc
  | placeholder hr' hc' =>
    rw [hr, Option.some_inj] at hr'
    rw [hr', hc'] at hc
    cases hc

theorem Denotes.signature_isSome {units : List TypeArena} {x : TypeArena × ℕ} {v : CompositeNode}
    (h : Denotes units x v) : (signatureOf v).isSome := by
  cases h with
  | self hr hc => simp [signatureOf, hr, hc]
  | definition hr hc ht ha hd =>
    obtain ⟨hmem, hc', -⟩ := firstDefinition_spec hd
    simp [signatureOf, (mem_composites.mp hmem).1, hc']
  | placeholder => rfl

theorem denoted_of_definition {units : List TypeArena} {t : Tag} {d : TypeArena × ℕ × TypeRecord}
    (h : d ∈ definitionsOf (allComposites units) t) :
    Denoted units (.composite d.1 d.2.1) ∧
      signatureOf (.composite d.1 d.2.1) = some (localSignature d.1 d.2.2).1 := by
  obtain ⟨ha, hx, hc, -⟩ := mem_definitionsOf.mp h
  obtain ⟨hget, hcomp⟩ := mem_composites.mp hx
  refine ⟨⟨(d.1, d.2.1), ⟨ha, d.2.2, hget, hcomp⟩, .self hget hc⟩, ?_⟩
  simp [signatureOf, hget, hc]

theorem Denoted.refs {units : List TypeArena} {v : CompositeNode} (h : Denoted units v)
    {x : TypeArena × ℕ} (hx : x ∈ refsOf v) : IsCompositeOf units x := by
  have hcomposite : ∀ a ∈ units, ∀ id, v = .composite a id → IsCompositeOf units x := by
    rintro a ha id rfl
    cases hget : a.get? id with
    | none => simp [refsOf, hget] at hx
    | some r =>
      by_cases hc : r.composite.complete = true
      · simp only [refsOf, hget, hc, if_true, List.mem_map] at hx
        obtain ⟨ref, href, rfl⟩ := hx
        exact ⟨ha, mem_localSignature_refs href⟩
      · simp [refsOf, hget, hc] at hx
  obtain ⟨y, hy, hden⟩ := h
  cases hden with
  | self => exact hcomposite y.1 hy.1 y.2 rfl
  | definition hr hc ht ha hd => exact hcomposite _ ha _ rfl
  | placeholder => cases hx

section Order

variable {m : Mixer K} {units order : List TypeArena} (hfree : NoCollision m units)
  (hnodup : (units.map TypeArena.owner).Nodup) (hperm : order.Perm units)

include hnodup hperm in
theorem owners_nodup : (order.map TypeArena.owner).Nodup :=
  (hperm.map TypeArena.owner).nodup_iff.mpr hnodup

include hfree in
theorem signature_eq_of_digest {t t' : Tag} {d d' : TypeArena × ℕ × TypeRecord}
    (hd : d ∈ definitionsOf (allComposites units) t)
    (hd' : d' ∈ definitionsOf (allComposites units) t')
    (h : definitionDigest m d = definitionDigest m d') :
    (localSignature d.1 d.2.2).1 = (localSignature d'.1 d'.2.2).1 := by
  obtain ⟨hden, hsig⟩ := denoted_of_definition hd
  obtain ⟨hden', hsig'⟩ := denoted_of_definition hd'
  have hown : ownDigest m (.composite d.1 d.2.1) = ownDigest m (.composite d'.1 d'.2.1) := by
    simp only [ownDigest, hsig, hsig']
    exact h
  have := hfree.digests _ _ hden hden' hown
  rw [hsig, hsig', Option.some_inj] at this
  exact this

include hnodup hperm in
theorem resolveDefinition_of_resolves {r : TypeRecord} (ht : Resolves units r.tag) :
    ∃ d ds, definitionsOf (allComposites order) r.tag = d :: ds ∧
      resolveDefinition (observeAll m order) r = some (d.1, d.2.1) := by
  obtain ⟨hnamed, hone, hdefs⟩ := ht
  cases hd : definitionsOf (allComposites order) r.tag with
  | nil =>
    obtain ⟨d, hmem⟩ := List.exists_mem_of_ne_nil _ hdefs
    rw [← mem_definitionsOf_perm hperm, hd] at hmem
    cases hmem
  | cons d ds =>
    refine ⟨d, ds, rfl, ?_⟩
    have hmem : ∀ e ∈ d :: ds, e ∈ definitionsOf (allComposites units) r.tag := by
      intro e he
      rw [← mem_definitionsOf_perm hperm, hd]
      exact he
    -- all digests are one, so the tag is not ambiguous
    have hsame : (ds.any fun e => definitionDigest m e ≠ definitionDigest m d) = false := by
      rw [List.any_eq_false]
      intro e he
      have := hone e (hmem e (List.mem_cons_of_mem _ he)) d (hmem d List.mem_cons_self)
      simp [definitionDigest, this]
    rw [resolveDefinition, if_neg (not_not.mpr hnamed),
      canonical_observeAll m (owners_nodup hnodup hperm), if_pos hnamed, hd]
    simp only [entryOf, hsame]
    rfl

include hfree hnodup hperm in
theorem resolveDefinition_of_not_resolves {r : TypeRecord} (ht : ¬ Resolves units r.tag) :
    resolveDefinition (observeAll m order) r = none := by
  unfold resolveDefinition
  by_cases hnamed : r.tag.Named
  · rw [if_neg (not_not.mpr hnamed), canonical_observeAll m (owners_nodup hnodup hperm),
      if_pos hnamed]
    cases hd : definitionsOf (allComposites order) r.tag with
    | nil => rfl
    | cons d ds =>
      have hmem : ∀ e ∈ d :: ds, e ∈ definitionsOf (allComposites units) r.tag := by
        intro e he
        rw [← mem_definitionsOf_perm hperm, hd]
        exact he
      have hambiguous : (ds.any fun e => definitionDigest m e ≠ definitionDigest m d) = true := by
        by_contra hany
        refine ht ⟨hnamed, ?_, List.ne_nil_of_mem (hmem d List.mem_cons_self)⟩
        -- otherwise all digests are that of the first definition
        have hdig : ∀ e ∈ d :: ds, definitionDigest m e = definitionDigest m d := by
          intro e he
          rcases List.mem_cons.mp he with rfl | he
          · rfl
          · have := List.any_eq_false.mp (Bool.eq_false_iff.mpr hany) e he
            simpa using this
        intro e he e' he'
        rw [← mem_definitionsOf_perm hperm, hd] at he he'
        exact signature_eq_of_digest hfree (hmem e he) (hmem e' he')
          ((hdig e he).trans (hdig e' he').symm)
      simp only [entryOf, hambiguous]
      rfl
  · rw [if_pos hnamed]

include hfree hnodup hperm in
theorem aliasOf_denotes {x : TypeArena × ℕ} (hx : IsCompositeOf units x) :
    Denotes units x (aliasOf (observeAll m order) x) := by
  obtain ⟨-, r, hr, -⟩ := hx
  by_cases hc : r.composite.complete = true
  · have halias : aliasOf (observeAll m order) x = .composite x.1 x.2 := by
      simp [aliasOf, hr, hc]
    rw [halias]
    exact .self hr hc
  · have hc' : r.composite.complete = false := Bool.eq_false_iff.mpr hc
    by_cases ht : Resolves units r.tag
    · obtain ⟨d, ds, hd, hres⟩ := resolveDefinition_of_resolves (m := m) hnodup hperm ht
      have halias : aliasOf (observeAll m order) x = .composite d.1 d.2.1 := by
        simp [aliasOf, hr, hc, hres]
      rw [halias]
      have hmem : d ∈ definitionsOf (allComposites order) r.tag := by
        rw [hd]
        exact List.mem_cons_self
      have ha := (mem_definitionsOf.mp hmem).1
      exact .definition hr hc' ht (hperm.mem_iff.mp ha) (firstDefinition_of_head hd)
    · have hres := resolveDefinition_of_not_resolves hfree hnodup hperm ht
      have halias : aliasOf (observeAll m order) x = .placeholder r.tag := by
        simp [aliasOf, hr, hc, hres]
      rw [halias]
      exact .placeholder hr hc' ht

include hnodup hperm in
theorem aliasOf_cons {a : TypeArena} {rest : List TypeArena} (horder : order = a :: rest)
    {x : TypeArena × ℕ} {r : TypeRecord} (hr : x.1.get? x.2 = some r)
    (hc : r.composite.complete = false) (ht : Resolves units r.tag) {d : ℕ × TypeRecord}
    (hd : firstDefinition a r.tag = some d) :
    aliasOf (observeAll m order) x = .composite a d.1 := by
  obtain ⟨e, es, he, hres⟩ := resolveDefinition_of_resolves (m := m) hnodup hperm ht
  obtain ⟨ds, hds⟩ := definitionsOf_cons rest hd
  rw [horder, hds] at he
  obtain ⟨rfl, -⟩ := List.cons.inj he
  simp [aliasOf, hr, hc, hres]

def nodeKey (m : Mixer K) (order : List TypeArena) (v : CompositeNode) : K :=
  (finalize m (observeAll m order)).1 v

include hfree hnodup hperm in
theorem Denoted.mem_nodesOf {v : CompositeNode} (h : Denoted units v) :
    v ∈ nodesOf (observeAll m order) := by
  have hunits := (observeAll_eq m (owners_nodup hnodup hperm)).1
  have hcomposite : ∀ a ∈ units, ∀ x ∈ a.composites,
      CompositeNode.composite a x.1 ∈ nodesOf (observeAll m order) := by
    intro a ha x hx
    refine List.mem_append_left _ (List.mem_flatMap.mpr ⟨a, ?_, List.mem_map_of_mem hx⟩)
    rw [hunits]
    exact hperm.mem_iff.mpr ha
  obtain ⟨x, ⟨hx, r, hr, hcomp⟩, hden⟩ := h
  cases hden with
  | self => exact hcomposite x.1 hx (x.2, r) (mem_composites.mpr ⟨hr, hcomp⟩)
  | definition hr' hc ht ha hd => exact hcomposite _ ha _ (firstDefinition_spec hd).1
  | @placeholder r' hr' hc ht =>
    rw [hr', Option.some_inj] at hr
    subst hr
    refine List.mem_append_right _ (List.mem_map_of_mem ?_)
    rw [placeholderTags, List.mem_dedup, hunits, List.mem_flatMap]
    refine ⟨x.1, hperm.mem_iff.mpr hx, List.mem_filterMap.mpr ⟨(x.2, r'), ?_, ?_⟩⟩
    · exact mem_composites.mpr ⟨hr', hcomp⟩
    · exact if_pos ⟨hc, resolveDefinition_of_not_resolves hfree hnodup hperm ht⟩

include hfree hnodup hperm in
theorem nodesOf_closed :
    Refine.Closed (refNodes (observeAll m order)) (nodesOf (observeAll m order)) := by
  intro v hv w hw
  rw [refNodes, List.mem_map] at hw
  obtain ⟨x, hx, rfl⟩ := hw
  have hunits := (observeAll_eq m (owners_nodup hnodup hperm)).1
  have hcomp : IsCompositeOf units x := by
    rcases List.mem_append.mp hv with hv | hv
    · obtain ⟨a, ha, hv⟩ := List.mem_flatMap.mp hv
      obtain ⟨y, hy, rfl⟩ := List.mem_map.mp hv
      rw [hunits, hperm.mem_iff] at ha
      obtain ⟨hget, hcomp⟩ := mem_composites.mp hy
      by_cases hc : y.2.composite.complete = true
      · exact Denoted.refs ⟨(a, y.1), ⟨ha, y.2, hget, hcomp⟩, .self hget hc⟩ hx
      · simp [refsOf, hget, hc] at hx
    · obtain ⟨t, -, rfl⟩ := List.mem_map.mp hv
      cases hx
  exact Denoted.mem_nodesOf hfree hnodup hperm
    ⟨x, hcomp, aliasOf_denotes hfree hnodup hperm hcomp⟩

include hfree hnodup hperm in
theorem nodeKey_eq_iff {v w : CompositeNode} (hv : Denoted units v) (hw : Denoted units w) :
    nodeKey m order v = nodeKey m order w ↔
      Refine.Bisimilar (ownDigest m) (refNodes (observeAll m order)) v w :=
  Refine.refine_eq_iff (hfree.rounds order hperm) (nodesOf_closed hfree hnodup hperm)
    (hv.mem_nodesOf hfree hnodup hperm) (hw.mem_nodesOf hfree hnodup hperm)

include hfree hnodup hperm in
theorem Alike.nodeKey_eq {v w : CompositeNode} (hv : Denoted units v) (hw : Denoted units w)
    (h : Alike units v w) : nodeKey m order v = nodeKey m order w := by
  obtain ⟨R, hR, hvw⟩ := h
  rw [nodeKey_eq_iff hfree hnodup hperm hv hw]
  refine ⟨fun v w => R v w ∧ Denoted units v ∧ Denoted units w, ?_, hvw, hv, hw⟩
  rintro v w ⟨hvw, hv, hw⟩
  obtain ⟨hsig, hrefs⟩ := hR v w hvw
  refine ⟨by rw [ownDigest, ownDigest, hsig], ?_⟩
  rw [refNodes, refNodes, List.forall₂_map_left_iff, List.forall₂_map_right_iff]
  -- the order reads every reference as something it may denote
  refine Refine.forall₂_imp_of_mem hrefs fun x hx y hy hxy => ?_
  have hdx := aliasOf_denotes hfree hnodup hperm (hv.refs hx)
  have hdy := aliasOf_denotes hfree hnodup hperm (hw.refs hy)
  exact ⟨hxy _ hdx _ hdy, ⟨x, hv.refs hx, hdx⟩, ⟨y, hw.refs hy, hdy⟩⟩

def Coherent (m : Mixer K) (units order : List TypeArena) : Prop :=
  ∀ x, IsCompositeOf units x → ∀ v, Denotes units x v →
    nodeKey m order v = keyFor m (observeAll m order) x

include hfree hnodup hperm in
theorem Coherent.alike (hcoh : Coherent m units order) {v w : CompositeNode}
    (hv : Denoted units v) (hw : Denoted units w) (h : nodeKey m order v = nodeKey m order w) :
    Alike units v w := by
  refine ⟨fun v w => Denoted units v ∧ Denoted units w ∧ nodeKey m order v = nodeKey m order w,
    ?_, hv, hw, h⟩
  rintro v w ⟨hv, hw, h⟩
  rw [nodeKey_eq_iff hfree hnodup hperm hv hw] at h
  obtain ⟨R, hR, hvw⟩ := h
  obtain ⟨hown, hrefs⟩ := hR v w hvw
  refine ⟨hfree.digests v w hv hw hown, ?_⟩
  rw [refNodes, refNodes, List.forall₂_map_left_iff, List.forall₂_map_right_iff] at hrefs
  refine Refine.forall₂_imp_of_mem hrefs fun x hx y hy hxy x' hx' y' hy' => ?_
  have hcx := hv.refs hx
  have hcy := hw.refs hy
  refine ⟨⟨x, hcx, hx'⟩, ⟨y, hcy, hy'⟩, ?_⟩
  have hdx : Denoted units _ := ⟨x, hcx, aliasOf_denotes hfree hnodup hperm hcx⟩
  have hdy : Denoted units _ := ⟨y, hcy, aliasOf_denotes hfree hnodup hperm hcy⟩
  calc nodeKey m order x' = keyFor m (observeAll m order) x := hcoh x hcx x' hx'
    _ = keyFor m (observeAll m order) y :=
      (nodeKey_eq_iff hfree hnodup hperm hdx hdy).mpr ⟨R, hR, hxy⟩
    _ = nodeKey m order y' := (hcoh y hcy y' hy').symm

include hfree hnodup hperm in
theorem Agreeing.coherent (h : Agreeing units) : Coherent m units order := by
  intro x hx v hv
  have halias := aliasOf_denotes hfree hnodup hperm hx
  obtain ⟨r, hr, -⟩ := hx.2
  by_cases hc : r.composite.complete = true
  · show nodeKey m order v = nodeKey m order (aliasOf _ x)
    rw [hv.eq_self hr hc, halias.eq_self hr hc]
  · exact (h x hx r hr (Bool.eq_false_iff.mpr hc) v _ hv halias).nodeKey_eq hfree hnodup hperm
      ⟨x, hx, hv⟩ ⟨x, hx, halias⟩

end Order

section AllOrders

variable {m : Mixer K} {units : List TypeArena} (hfree : NoCollision m units)
  (hnodup : (units.map TypeArena.owner).Nodup)

include hfree hnodup in
theorem OrderIndependent.coherent (h : OrderIndependent m units) : Coherent m units units := by
  intro x hx v hv
  have hrefl : units.Perm units := .refl units
  have hself : ∀ a ∈ units, ∀ d : ℕ × TypeRecord, d ∈ a.composites →
      d.2.composite.complete = true →
      ∀ order, order.Perm units →
        keyFor m (observeAll m order) (a, d.1) = nodeKey m order (.composite a d.1) := by
    intro a ha d hd hc order hperm
    obtain ⟨hget, hcomp⟩ := mem_composites.mp hd
    have halias := aliasOf_denotes hfree hnodup hperm (x := (a, d.1)) ⟨ha, d.2, hget, hcomp⟩
    rw [keyFor, halias.eq_self hget hc]
    rfl
  cases hv with
  | self hr hc =>
    have halias := aliasOf_denotes hfree hnodup hrefl hx
    rw [keyFor, halias.eq_self hr hc]
    rfl
  | @definition r hr hc ht a ha d hd =>
    obtain ⟨hmem, hdc, -⟩ := firstDefinition_spec hd
    obtain ⟨hget, hcomp⟩ := mem_composites.mp hmem
    obtain ⟨before, after, hsplit⟩ := List.append_of_mem ha
    have hrest : (a :: (before ++ after)).Perm units := by
      rw [hsplit]
      exact List.perm_middle.symm
    have halias := aliasOf_cons (m := m) hnodup hrest rfl hr hc ht hd
    have hkey : keyFor m (observeAll m (a :: (before ++ after))) x =
        keyFor m (observeAll m (a :: (before ++ after))) (a, d.1) := by
      rw [hself a ha d hmem hdc _ hrest, keyFor, halias]
      rfl
    rw [← hself a ha d hmem hdc units hrefl]
    exact ((h _ _ hrest hrefl).1 x (a, d.1) hx ⟨ha, d.2, hget, hcomp⟩).mp hkey |>.symm
  | placeholder hr hc ht =>
    have hres := resolveDefinition_of_not_resolves hfree hnodup hrefl ht
    simp [keyFor, aliasOf, hr, hc, hres, nodeKey]

include hfree hnodup in
theorem Agreeing.keyFor_eq (h : Agreeing units) {order order' : List TypeArena}
    (hperm : order.Perm units) (hperm' : order'.Perm units) {x y : TypeArena × ℕ}
    (hx : IsCompositeOf units x) (hy : IsCompositeOf units y)
    (heq : keyFor m (observeAll m order) x = keyFor m (observeAll m order) y) :
    keyFor m (observeAll m order') x = keyFor m (observeAll m order') y := by
  have hdx := aliasOf_denotes hfree hnodup hperm hx
  have hdy := aliasOf_denotes hfree hnodup hperm hy
  have halike := (h.coherent hfree hnodup hperm).alike hfree hnodup hperm ⟨x, hx, hdx⟩
    ⟨y, hy, hdy⟩ heq
  have hcoh' := h.coherent hfree hnodup hperm' (m := m)
  calc keyFor m (observeAll m order') x
      = nodeKey m order' (aliasOf (observeAll m order) x) := (hcoh' x hx _ hdx).symm
    _ = nodeKey m order' (aliasOf (observeAll m order) y) :=
      halike.nodeKey_eq hfree hnodup hperm' ⟨x, hx, hdx⟩ ⟨y, hy, hdy⟩
    _ = keyFor m (observeAll m order') y := hcoh' y hy _ hdy

include hfree hnodup in
theorem Agreeing.resolveDefinition_eq (h : Agreeing units) {order order' : List TypeArena}
    (hperm : order.Perm units) (hperm' : order'.Perm units) {x : TypeArena × ℕ}
    (hx : IsCompositeOf units x) {r : TypeRecord} (hr : x.1.get? x.2 = some r)
    (hc : r.composite.complete = false) {d d' : TypeArena × ℕ}
    (hd : resolveDefinition (observeAll m order) r = some d)
    (hd' : resolveDefinition (observeAll m order') r = some d') :
    keyFor m (observeAll m order) d = keyFor m (observeAll m order) d' := by
  have hcoh := h.coherent hfree hnodup hperm (m := m)
  -- what an order reads the declaration as is complete, so it is its own node
  have hone : ∀ (order₁ : List TypeArena) (e : TypeArena × ℕ), order₁.Perm units →
      resolveDefinition (observeAll m order₁) r = some e →
      keyFor m (observeAll m order) e = keyFor m (observeAll m order) x := by
    intro order₁ e hperm₁ he
    have hden := aliasOf_denotes hfree hnodup hperm₁ hx
    have halias : aliasOf (observeAll m order₁) x = .composite e.1 e.2 := by
      simp [aliasOf, hr, hc, he]
    rw [halias] at hden
    have hkey := hcoh x hx _ hden
    have hself : aliasOf (observeAll m order) e = .composite e.1 e.2 := by
      have hsig := hden.signature_isSome
      unfold aliasOf
      cases hget : e.1.get? e.2 with
      | none => rfl
      | some r' =>
        by_cases hc' : r'.composite.complete = true
        · simp [hc']
        · simp [signatureOf, hget, hc'] at hsig
    rw [keyFor, hself]
    exact hkey
  rw [hone order d hperm hd, hone order' d' hperm' hd']

include hfree hnodup in
/-- The order of observation does not matter exactly if everything that a forward declaration may
denote is alike. -/
theorem orderIndependent_iff : OrderIndependent m units ↔ Agreeing units := by
  constructor
  · intro h x hx r hr hc v w hv hw
    have hcoh := h.coherent hfree hnodup
    refine hcoh.alike hfree hnodup (.refl units) ⟨x, hx, hv⟩ ⟨x, hx, hw⟩ ?_
    exact (hcoh x hx v hv).trans (hcoh x hx w hw).symm
  · intro h order order' hperm hperm'
    refine ⟨fun x y hx hy => ⟨?_, ?_⟩, fun x hx r hr hc => ⟨?_, ?_⟩⟩
    · exact h.keyFor_eq hfree hnodup hperm hperm' hx hy
    · exact h.keyFor_eq hfree hnodup hperm' hperm hx hy
    · by_cases ht : Resolves units r.tag
      · obtain ⟨d, -, -, hd⟩ := resolveDefinition_of_resolves (m := m) hnodup hperm ht
        obtain ⟨d', -, -, hd'⟩ := resolveDefinition_of_resolves (m := m) hnodup hperm' ht
        rw [hd, hd']
        rfl
      · rw [resolveDefinition_of_not_resolves hfree hnodup hperm ht,
          resolveDefinition_of_not_resolves hfree hnodup hperm' ht]
    · intro d d' hd hd'
      exact h.resolveDefinition_eq hfree hnodup hperm hperm' hx hr hc hd hd'

end AllOrders

def plainRecord (k : TypeKind) : TypeRecord :=
  ⟨k, [], 0, [], [], false, 0, 0, ⟨true, false, 0, 0, none, none, none⟩⟩

def structRecord (name : UInt8) (complete : Bool) (fields : List ℕ) : TypeRecord :=
  ⟨.struct, [name], 0, fields, [], false, 0, 0, ⟨complete, false, 0, 0, none, none, none⟩⟩

def nestedUnit (owner : ℕ) (k : TypeKind) : TypeArena where
  owner := owner
  types := [plainRecord k, structRecord 66 true [1], structRecord 65 true [2]]
  inside := by simp [plainRecord, structRecord]
  ordered := by
    rintro (_ | _ | _ | i) r h hr op hop
    · obtain rfl := Option.some_inj.mp h
      cases hop
    · obtain rfl := Option.some_inj.mp h
      exact absurd (.inl rfl) hr
    · obtain rfl := Option.some_inj.mp h
      exact absurd (.inl rfl) hr
    · simp at h

def forwardUnit (owner : ℕ) : TypeArena where
  owner := owner
  types := [structRecord 65 false []]
  inside := by simp [structRecord]
  ordered := by
    rintro (_ | i) r h hr op hop
    · obtain rfl := Option.some_inj.mp h
      cases hop
    · simp at h

/-- Two units define `struct A` alike but for the `struct B` in it, and a third one only declares
it: the declaration is the definition of the unit that is observed first. -/
theorem keyFor_swapped : ¬ OrderIndependent fnv
    [nestedUnit 1 .i32, nestedUnit 2 .f32, forwardUnit 3] := by
  intro h
  have hswap : [nestedUnit 2 .f32, nestedUnit 1 .i32, forwardUnit 3].Perm
      [nestedUnit 1 .i32, nestedUnit 2 .f32, forwardUnit 3] := .swap ..
  have hiff := (h _ _ (.refl _) hswap).1 (forwardUnit 3, 1) (nestedUnit 1 .i32, 3)
    ⟨by simp, structRecord 65 false [], rfl, .inl rfl⟩
    ⟨by simp, structRecord 65 true [2], rfl, .inl rfl⟩
  revert hiff
  decide +kernel

def definingUnit (owner : ℕ) : TypeArena where
  owner := owner
  types := [plainRecord .i32, structRecord 65 true [1]]
  inside := by simp [plainRecord, structRecord]
  ordered := by
    rintro (_ | _ | i) r h hr op hop
    · obtain rfl := Option.some_inj.mp h
      cases hop
    · obtain rfl := Option.some_inj.mp h
      exact absurd (.inl rfl) hr
    · simp at h

theorem isCompositeOf_declared {x : TypeArena × ℕ}
    (h : IsCompositeOf [definingUnit 1, forwardUnit 2] x) :
    x = (definingUnit 1, 2) ∨ x = (forwardUnit 2, 1) := by
  obtain ⟨a, id⟩ := x
  obtain ⟨ha, r, hr, hcomp⟩ := h
  have hmem : (id, r) ∈ a.composites := mem_composites.mpr ⟨hr, hcomp⟩
  rcases List.mem_cons.mp ha with rfl | ha
  · left
    have hlist : (definingUnit 1).composites = [(2, structRecord 65 true [1])] := rfl
    rw [hlist, List.mem_singleton, Prod.mk.injEq] at hmem
    rw [hmem.1]
  · right
    obtain rfl := List.mem_singleton.mp ha
    have hlist : (forwardUnit 2).composites = [(1, structRecord 65 false [])] := rfl
    rw [hlist, List.mem_singleton, Prod.mk.injEq] at hmem
    rw [hmem.1]

theorem resolves_declared :
    Resolves [definingUnit 1, forwardUnit 2] (structRecord 65 false []).tag := by
  have hdefs : definitionsOf (allComposites [definingUnit 1, forwardUnit 2])
      (structRecord 65 false []).tag = [(definingUnit 1, 2, structRecord 65 true [1])] := rfl
  refine ⟨by decide, ?_, by simp [hdefs]⟩
  intro d hd d' hd'
  rw [hdefs, List.mem_singleton] at hd hd'
  rw [hd, hd']

theorem denoted_declared {v : CompositeNode}
    (h : Denoted [definingUnit 1, forwardUnit 2] v) : v = .composite (definingUnit 1) 2 := by
  obtain ⟨x, hx, hden⟩ := h
  rcases isCompositeOf_declared hx with rfl | rfl
  · exact hden.eq_self rfl rfl
  · cases hden with
    | self hr hc =>
      obtain rfl := Option.some_inj.mp hr
      cases hc
    | definition hr hc ht ha hd =>
      obtain rfl := Option.some_inj.mp hr
      rcases List.mem_cons.mp ha with rfl | ha
      · obtain rfl := Option.some_inj.mp hd
        rfl
      · obtain rfl := List.mem_singleton.mp ha
        cases hd
    | placeholder hr hc ht =>
      obtain rfl := Option.some_inj.mp hr
      exact absurd resolves_declared ht

omit [DecidableEq K] in
theorem collisionFree_pair {V : Type} {own : V → K} {succ : V → List V} {mix : K → List K → K}
    {nodes : List V} {v w : V} (hnodes : ∀ x ∈ nodes, x = v ∨ x = w)
    (hne : ∀ k ≤ nodes.length,
      Refine.label own succ mix (k + 1) v ≠ Refine.label own succ mix (k + 1) w) :
    Refine.CollisionFree own succ mix nodes := by
  intro k hk x hx y hy h
  rcases hnodes x hx with rfl | rfl <;> rcases hnodes y hy with rfl | rfl
  · exact ⟨rfl, rfl⟩
  · exact absurd h (hne k hk)
  · exact absurd h.symm (hne k hk)
  · exact ⟨rfl, rfl⟩

theorem noCollision_declared : NoCollision fnv [definingUnit 1, forwardUnit 2] where
  digests v w hv hw _ := by rw [denoted_declared hv, denoted_declared hw]
  rounds order hperm := by
    have horder : order = [definingUnit 1, forwardUnit 2] ∨
        order = [forwardUnit 2, definingUnit 1] := by
      have hmem := List.mem_permutations.mpr hperm
      simpa [List.permutations, List.permutationsAux, List.permutationsAux.rec,
        List.permutationsAux2] using hmem
    rcases horder with rfl | rfl
    · have hnodes : nodesOf (observeAll fnv [definingUnit 1, forwardUnit 2]) =
          [.composite (definingUnit 1) 2, .composite (forwardUnit 2) 1] := rfl
      refine collisionFree_pair (v := .composite (definingUnit 1) 2)
        (w := .composite (forwardUnit 2) 1) (by simp [hnodes]) fun k hk => ?_
      rw [hnodes, List.length_cons, List.length_singleton] at hk
      interval_cases k <;> decide +kernel
    · have hnodes : nodesOf (observeAll fnv [forwardUnit 2, definingUnit 1]) =
          [.composite (forwardUnit 2) 1, .composite (definingUnit 1) 2] := rfl
      refine collisionFree_pair (v := .composite (forwardUnit 2) 1)
        (w := .composite (definingUnit 1) 2) (by simp [hnodes]) fun k hk => ?_
      rw [hnodes, List.length_cons, List.length_singleton] at hk
      interval_cases k <;> decide +kernel

/-- One definition and one declaration in another unit: the declaration is alike whatever the order,
so the order does not matter. -/
theorem orderIndependent_declared : OrderIndependent fnv [definingUnit 1, forwardUnit 2] := by
  refine (orderIndependent_iff noCollision_declared (by decide)).mpr ?_
  intro x hx r hr hc v w hv hw
  rw [denoted_declared ⟨x, hx, hv⟩, denoted_declared ⟨x, hx, hw⟩]
  refine ⟨fun v w => v = w ∧ refsOf v = [], ?_, rfl, rfl⟩
  rintro v w ⟨rfl, hrefs⟩
  rw [hrefs]
  exact ⟨rfl, .nil⟩

end DssPrime
