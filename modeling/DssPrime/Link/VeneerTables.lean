import DssPrime.Link.InjectVeneers
import DssPrime.Link.VeneerMargin

/-!
# The tables of veneer injection agree

Four tables meet when a branch is routed: the sites with the relocations they stand for, the targets
with their symbols, the plan's veneer of every site, and the templates of the bodies.
-/

namespace DssPrime

def relocAt (fs : List AssembledFunction) (ref : SiteRef) : Option Relocation :=
  (fs[ref.function]?).bind fun f => f.relocations[ref.relocation]?

def withoutRelocations (f : AssembledFunction) : AssembledFunction := { f with relocations := [] }

section Retarget

variable {fs : List AssembledFunction} {siteVeneer : List (Option ℕ)} {firstId : ℕ}

theorem relocAt_modifyRelocation (fs : List AssembledFunction) (ref ref' : SiteRef)
    (g : Relocation → Relocation) :
    relocAt (modifyRelocation fs ref g) ref' =
      if ref = ref' then (relocAt fs ref').map g else relocAt fs ref' := by
  obtain ⟨a, r⟩ := ref
  obtain ⟨a', r'⟩ := ref'
  unfold relocAt modifyRelocation
  simp only [List.getElem?_modify, SiteRef.mk.injEq]
  by_cases ha : a = a'
  · subst ha
    cases hf : fs[a]? with
    | none => simp
    | some f => by_cases hr : r = r' <;> simp [hr]
  · cases hf : fs[a']? <;> simp [ha]

theorem map_withoutRelocations_modifyRelocation (fs : List AssembledFunction) (ref : SiteRef)
    (g : Relocation → Relocation) :
    (modifyRelocation fs ref g).map withoutRelocations = fs.map withoutRelocations := by
  apply List.ext_getElem?
  intro i
  unfold modifyRelocation
  rw [List.getElem?_map, List.getElem?_map, List.getElem?_modify]
  cases hf : fs[i]? with
  | none => simp
  | some f => by_cases hi : ref.function = i <;> simp [hi, withoutRelocations]

def aimed (firstId v : ℕ) (rel : Relocation) : Relocation :=
  { rel with target := firstId + v, addend := 0 }

def retargetStep (siteVeneer : List (Option ℕ)) (firstId : ℕ) (fs : List AssembledFunction)
    (q : SiteRef × ℕ) : List AssembledFunction :=
  match siteVeneer.getD q.2 none with
  | none => fs
  | some v => modifyRelocation fs q.1 (aimed firstId v)

theorem retarget_eq (refs : List SiteRef) :
    retarget fs refs siteVeneer firstId =
      refs.zipIdx.foldl (retargetStep siteVeneer firstId) fs := rfl

theorem map_withoutRelocations_foldl (qs : List (SiteRef × ℕ)) :
    (qs.foldl (retargetStep siteVeneer firstId) fs).map withoutRelocations =
      fs.map withoutRelocations := by
  induction qs generalizing fs with
  | nil => rfl
  | cons q qs ih =>
    rw [List.foldl_cons, ih]
    unfold retargetStep
    split
    · rfl
    · exact map_withoutRelocations_modifyRelocation _ _ _

theorem relocAt_foldl_of_notMem {qs : List (SiteRef × ℕ)} {ref : SiteRef}
    (h : ref ∉ qs.map (·.1)) :
    relocAt (qs.foldl (retargetStep siteVeneer firstId) fs) ref = relocAt fs ref := by
  induction qs generalizing fs with
  | nil => rfl
  | cons q qs ih =>
    rw [List.map_cons, List.mem_cons, not_or] at h
    rw [List.foldl_cons, ih h.2]
    unfold retargetStep
    split
    · rfl
    · rw [relocAt_modifyRelocation, if_neg (Ne.symm h.1)]

theorem relocAt_foldl_of_mem {qs : List (SiteRef × ℕ)} (hnodup : (qs.map (·.1)).Nodup)
    {q : SiteRef × ℕ} (hq : q ∈ qs) :
    relocAt (qs.foldl (retargetStep siteVeneer firstId) fs) q.1 =
      match siteVeneer.getD q.2 none with
      | none => relocAt fs q.1
      | some v => (relocAt fs q.1).map (aimed firstId v) := by
  induction qs generalizing fs with
  | nil => simp at hq
  | cons q' qs ih =>
    rw [List.map_cons, List.nodup_cons] at hnodup
    rw [List.foldl_cons]
    rcases List.mem_cons.1 hq with rfl | hq
    · rw [relocAt_foldl_of_notMem hnodup.1]
      unfold retargetStep
      split
      · rfl
      · rw [relocAt_modifyRelocation, if_pos rfl]
    · have hne : q'.1 ≠ q.1 := fun heq => hnodup.1 (heq ▸ List.mem_map_of_mem hq)
      have hsame : relocAt (retargetStep siteVeneer firstId fs q') q.1 = relocAt fs q.1 := by
        unfold retargetStep
        split
        · rfl
        · rw [relocAt_modifyRelocation, if_neg hne]
      rw [ih hnodup.2 hq, hsame]

theorem relocAt_retarget {refs : List SiteRef} (hnodup : refs.Nodup) {si : ℕ} {ref : SiteRef}
    (hsi : refs[si]? = some ref) :
    relocAt (retarget fs refs siteVeneer firstId) ref =
      match siteVeneer.getD si none with
      | none => relocAt fs ref
      | some v => (relocAt fs ref).map (aimed firstId v) := by
  have hmem : (ref, si) ∈ refs.zipIdx := List.mem_zipIdx_iff_getElem?.2 hsi
  rw [retarget_eq]
  exact relocAt_foldl_of_mem (by rwa [List.zipIdx_map_fst]) hmem

theorem relocAt_retarget_of_notMem {refs : List SiteRef} {ref : SiteRef} (h : ref ∉ refs) :
    relocAt (retarget fs refs siteVeneer firstId) ref = relocAt fs ref := by
  rw [retarget_eq]
  exact relocAt_foldl_of_notMem (by rwa [List.zipIdx_map_fst])

theorem map_withoutRelocations_retarget (refs : List SiteRef) :
    (retarget fs refs siteVeneer firstId).map withoutRelocations = fs.map withoutRelocations := by
  rw [retarget_eq]
  exact map_withoutRelocations_foldl _

end Retarget

section Collect

variable {module : AssembledModule} {target : TargetSchema} {stubs : ImportCallStubLayout}

def Known (module : AssembledModule) (stubs : ImportCallStubLayout) (symbol : ℕ) : Prop :=
  (∃ f ∈ module.functions, f.symbol = symbol) ∨
    ∃ past, stubs.maxPastTextEnd.lookup symbol = some past

def StandsFor (c : Collecting) (i : ℕ) (symbol : ℕ) (addend : ℤ) : Prop :=
  c.targetSymbol[i]? = some symbol ∧ (c.targets[i]?).map (·.addend) = some addend

def SiteKnown (module : AssembledModule) (stubs : ImportCallStubLayout) (c : Collecting)
    (q : VeneerLayoutSite × SiteRef) : Prop :=
  ∃ rel, relocAt module.functions q.2 = some rel ∧
    StandsFor c q.1.target rel.target rel.addend ∧ Known module stubs rel.target

/-- What the tables of the collection stand for. -/
structure Collected (module : AssembledModule) (stubs : ImportCallStubLayout) (c : Collecting) :
    Prop where
  index : ∀ key i, c.targetIndex key = some i → StandsFor c i key.1 key.2
  length : c.targets.length = c.targetSymbol.length
  sites : ∀ q ∈ c.sites, SiteKnown module stubs c q

structure Grows (c c' : Collecting) : Prop where
  targets : c.targets <+: c'.targets
  symbols : c.targetSymbol <+: c'.targetSymbol

theorem Grows.refl (c : Collecting) : Grows c c := ⟨List.prefix_rfl, List.prefix_rfl⟩

theorem Grows.trans {c c' c'' : Collecting} (h : Grows c c') (h' : Grows c' c'') : Grows c c'' :=
  ⟨h.targets.trans h'.targets, h.symbols.trans h'.symbols⟩

theorem getElem?_of_extends {α : Type*} {l l' : List α} (h : l <+: l') {i : ℕ} {a : α}
    (ha : l[i]? = some a) : l'[i]? = some a := by
  obtain ⟨rest, rfl⟩ := h
  obtain ⟨hi, -⟩ := List.getElem?_eq_some_iff.1 ha
  rw [List.getElem?_append_left hi]
  exact ha

theorem Grows.standsFor {c c' : Collecting} (h : Grows c c') {i symbol : ℕ} {addend : ℤ}
    (hi : StandsFor c i symbol addend) : StandsFor c' i symbol addend := by
  obtain ⟨hsymbol, haddend⟩ := hi
  obtain ⟨t, ht, hta⟩ := Option.map_eq_some_iff.1 haddend
  refine ⟨getElem?_of_extends h.symbols hsymbol, ?_⟩
  rw [getElem?_of_extends h.targets ht]
  exact congrArg some hta

theorem Grows.siteKnown {c c' : Collecting} (h : Grows c c') {q : VeneerLayoutSite × SiteRef}
    (hq : SiteKnown module stubs c q) : SiteKnown module stubs c' q := by
  obtain ⟨rel, hrel, hstands, hknown⟩ := hq
  exact ⟨rel, hrel, h.standsFor hstands, hknown⟩

theorem targetOf_spec {c : Collecting} (h : Collected module stubs c) {rel : Relocation}
    {t : VeneerLayoutTarget} (ht : t.addend = rel.addend) :
    Collected module stubs (c.targetOf rel t).2 ∧ Grows c (c.targetOf rel t).2 ∧
      StandsFor (c.targetOf rel t).2 (c.targetOf rel t).1 rel.target rel.addend ∧
      (c.targetOf rel t).2.sites = c.sites := by
  unfold Collecting.targetOf
  cases hkey : c.targetIndex (rel.target, rel.addend) with
  | some i => exact ⟨h, Grows.refl c, h.index _ _ hkey, rfl⟩
  | none =>
    simp only
    have hgrows : Grows c
        { c with
          targets := c.targets ++ [t]
          targetSymbol := c.targetSymbol ++ [rel.target]
          targetIndex := Function.update c.targetIndex (rel.target, rel.addend)
            (some c.targets.length) } :=
      ⟨List.prefix_append _ _, List.prefix_append _ _⟩
    have hnew : StandsFor
        { c with
          targets := c.targets ++ [t]
          targetSymbol := c.targetSymbol ++ [rel.target]
          targetIndex := Function.update c.targetIndex (rel.target, rel.addend)
            (some c.targets.length) } c.targets.length rel.target rel.addend := by
      refine ⟨?_, ?_⟩
      · rw [h.length]
        simp
      · simp [ht]
    refine ⟨⟨?_, by simp [h.length], fun q hq => hgrows.siteKnown (h.sites q hq)⟩, hgrows, hnew,
      trivial⟩
    intro key i hi
    by_cases hk : key = (rel.target, rel.addend)
    · subst hk
      simp only [Function.update_self, Option.some.injEq] at hi
      subst hi
      exact hnew
    · simp only [Function.update_of_ne hk] at hi
      exact hgrows.standsFor (h.index _ _ hi)

theorem branchOf_spec {rel : Relocation} {reach : RelocReach} {t : VeneerLayoutTarget}
    (h : branchOf module target stubs rel = some (reach, t)) :
    t.addend = rel.addend ∧ Known module stubs rel.target := by
  unfold branchOf at h
  split at h
  · exact absurd h (by simp)
  · split_ifs at h
    split at h
    · exact absurd h (by simp)
    · split at h
      · next i hi =>
        obtain ⟨-, rfl⟩ := Prod.mk.inj (Option.some.inj h)
        obtain ⟨hlt, hp, -⟩ := List.findIdx?_eq_some_iff_getElem.1 hi
        exact ⟨rfl, .inl ⟨_, List.getElem_mem hlt, by simpa using hp⟩⟩
      · obtain ⟨past, hpast, h⟩ := Option.map_eq_some_iff.1 h
        obtain ⟨-, rfl⟩ := Prod.mk.inj h
        exact ⟨rfl, .inr ⟨past, hpast⟩⟩

theorem collectRelocation_spec {c : Collecting} (h : Collected module stubs c) {fi : ℕ}
    {q : Relocation × ℕ} (hq : relocAt module.functions ⟨fi, q.2⟩ = some q.1) :
    Collected module stubs (collectRelocation module target stubs fi c q) ∧
      Grows c (collectRelocation module target stubs fi c q) ∧
      ((collectRelocation module target stubs fi c q).sites.map (·.2) = c.sites.map (·.2) ∨
        (collectRelocation module target stubs fi c q).sites.map (·.2) =
          c.sites.map (·.2) ++ [⟨fi, q.2⟩]) := by
  unfold collectRelocation
  cases hbranch : branchOf module target stubs q.1 with
  | none => exact ⟨h, Grows.refl c, .inl rfl⟩
  | some rt =>
    obtain ⟨reach, t⟩ := rt
    obtain ⟨haddend, hknown⟩ := branchOf_spec hbranch
    obtain ⟨hc, hgrows, hstands, hsites⟩ := targetOf_spec h haddend
    simp only
    generalize c.targetOf q.1 t = r at hc hgrows hstands hsites ⊢
    obtain ⟨ti, c₁⟩ := r
    have hreach : ∃ ri c₂, c₁.reachOf q.1.kind reach = (ri, c₂) ∧ c₂.targets = c₁.targets ∧
        c₂.targetSymbol = c₁.targetSymbol ∧ c₂.targetIndex = c₁.targetIndex ∧
        c₂.sites = c₁.sites := by
      unfold Collecting.reachOf
      split <;> exact ⟨_, _, rfl, rfl, rfl, rfl, rfl⟩
    obtain ⟨ri, c₂, heq, htargets, hsymbols, hindex, hsites₂⟩ := hreach
    simp only [heq]
    have hgrows₂ : Grows c₁ c₂ := ⟨htargets ▸ List.prefix_rfl, hsymbols ▸ List.prefix_rfl⟩
    refine ⟨⟨?_, by simp only [htargets, hsymbols]; exact hc.length, ?_⟩,
      ⟨(hgrows.trans hgrows₂).targets, (hgrows.trans hgrows₂).symbols⟩, .inr ?_⟩
    · intro key i hi
      simp only [hindex] at hi
      exact hgrows₂.standsFor (hc.index key i hi)
    · intro s hs
      rcases List.mem_append.1 hs with hs | hs
      · rw [hsites₂] at hs
        exact hgrows₂.siteKnown (hc.sites s hs)
      · rw [List.mem_singleton.1 hs]
        exact ⟨q.1, hq, hgrows₂.standsFor hstands, hknown⟩
    · simp only at hsites
      rw [List.map_append, hsites₂, hsites]
      rfl

theorem collectRelocations_spec (fi : ℕ) (qs : List (Relocation × ℕ))
    (hqs : ∀ q ∈ qs, relocAt module.functions ⟨fi, q.2⟩ = some q.1) {c : Collecting}
    (h : Collected module stubs c) :
    Collected module stubs (qs.foldl (collectRelocation module target stubs fi) c) ∧
      Grows c (qs.foldl (collectRelocation module target stubs fi) c) ∧
      ∃ l, l.Sublist (qs.map fun q => (⟨fi, q.2⟩ : SiteRef)) ∧
        (qs.foldl (collectRelocation module target stubs fi) c).sites.map (·.2) =
          c.sites.map (·.2) ++ l := by
  induction qs generalizing c with
  | nil => exact ⟨h, Grows.refl c, [], List.Sublist.slnil, by simp⟩
  | cons q qs ih =>
    obtain ⟨hc, hgrows, hrefs⟩ := @collectRelocation_spec _ target _ _ h fi q
      (hqs q List.mem_cons_self)
    obtain ⟨hc', hgrows', l, hl, hrefs'⟩ := ih (fun r hr => hqs r (List.mem_cons_of_mem _ hr)) hc
    refine ⟨hc', hgrows.trans hgrows', ?_⟩
    rcases hrefs with hrefs | hrefs
    · exact ⟨l, hl.cons _, by rw [List.foldl_cons, hrefs', hrefs]⟩
    · exact ⟨_ :: l, hl.cons_cons _, by rw [List.foldl_cons, hrefs', hrefs]; simp⟩

theorem sortSites_perm (l : List (VeneerLayoutSite × SiteRef)) : (sortSites l).Perm l := by
  unfold sortSites
  split
  · exact List.Perm.refl l
  · exact List.mergeSort_perm l _

theorem collectFunction_spec {c : Collecting} (h : Collected module stubs c)
    {q : AssembledFunction × ℕ} (hq : module.functions[q.2]? = some q.1) :
    Collected module stubs (collectFunction module target stubs c q) ∧
      ∃ l, l.Nodup ∧ (∀ ref ∈ l, ref.function = q.2) ∧
        (collectFunction module target stubs c q).sites.map (·.2) = c.sites.map (·.2) ++ l := by
  have hrel : ∀ r ∈ q.1.relocations.zipIdx, relocAt module.functions ⟨q.2, r.2⟩ = some r.1 := by
    intro r hr
    unfold relocAt
    simp only [hq, Option.bind_some]
    exact List.mem_zipIdx_iff_getElem?.1 hr
  have hstart : Collected module stubs { c with sites := [] } := ⟨h.index, h.length, by simp⟩
  obtain ⟨hc, hgrows, l, hl, hrefs⟩ := @collectRelocations_spec _ target _ q.2 _ hrel _ hstart
  unfold collectFunction
  simp only
  generalize q.1.relocations.zipIdx.foldl (collectRelocation module target stubs q.2)
    { c with sites := [] } = c' at hc hgrows hrefs ⊢
  have hall : (q.1.relocations.zipIdx.map fun r => (⟨q.2, r.2⟩ : SiteRef)).Nodup := by
    have hidx : (q.1.relocations.zipIdx.map (·.2)).Nodup := by
      rw [List.zipIdx_map_snd]
      exact List.nodup_range'
    have hinj : Function.Injective fun r : ℕ => (⟨q.2, r⟩ : SiteRef) := by
      intro a b hab
      exact (SiteRef.mk.inj hab).2
    have hmap := hidx.map hinj
    rwa [List.map_map] at hmap
  have hperm : ((sortSites c'.sites).map (·.2)).Perm l := by
    have := (sortSites_perm c'.sites).map (·.2)
    rw [hrefs] at this
    simpa using this
  refine ⟨⟨hc.index, hc.length, ?_⟩, (sortSites c'.sites).map (·.2), ?_, ?_, by simp⟩
  · intro s hs
    rcases List.mem_append.1 hs with hs | hs
    · exact (⟨hgrows.targets, hgrows.symbols⟩ : Grows c _).siteKnown (h.sites s hs)
    · exact hc.sites s ((sortSites_perm _).mem_iff.1 hs)
  · exact hperm.nodup_iff.2 (hall.sublist hl)
  · intro ref href
    obtain ⟨r, -, rfl⟩ := List.mem_map.1 (hl.subset (hperm.mem_iff.1 href))
    rfl

theorem collectTables_spec (module : AssembledModule) (target : TargetSchema)
    (stubs : ImportCallStubLayout) :
    Collected module stubs (collectTables module target stubs) ∧
      ((collectTables module target stubs).sites.map (·.2)).Nodup := by
  have hrun : ∀ (qs : List (AssembledFunction × ℕ)) (c : Collecting),
      (∀ q ∈ qs, module.functions[q.2]? = some q.1) → (qs.map (·.2)).Nodup →
      Collected module stubs c → (c.sites.map (·.2)).Nodup →
      (∀ ref ∈ c.sites.map (·.2), ref.function ∉ qs.map (·.2)) →
      Collected module stubs (qs.foldl (collectFunction module target stubs) c) ∧
        ((qs.foldl (collectFunction module target stubs) c).sites.map (·.2)).Nodup := by
    intro qs
    induction qs with
    | nil => exact fun c _ _ hc hnodup _ => ⟨hc, hnodup⟩
    | cons q qs ih =>
      intro c hqs hidx hc hnodup hfresh
      obtain ⟨hc', l, hl, hfn, hrefs⟩ := @collectFunction_spec _ target _ _ hc q
        (hqs q List.mem_cons_self)
      rw [List.map_cons, List.nodup_cons] at hidx
      refine ih _ (fun r hr => hqs r (List.mem_cons_of_mem _ hr)) hidx.2 hc' ?_ ?_
      · rw [hrefs, List.nodup_append]
        refine ⟨hnodup, hl, ?_⟩
        rintro ref hold _ hnew rfl
        exact hfresh ref hold (by simp [hfn ref hnew])
      · intro ref href
        rw [hrefs] at href
        rcases List.mem_append.1 href with hold | hnew
        · exact fun hmem => hfresh ref hold (List.mem_cons_of_mem _ hmem)
        · rw [hfn ref hnew]
          exact hidx.1
  refine hrun _ _ ?_ ?_ ⟨by simp, rfl, by simp⟩ (by simp) (by simp)
  · intro q hq
    exact List.mem_zipIdx_iff_getElem?.1 hq
  · rw [List.zipIdx_map_snd]
    exact List.nodup_range'

end Collect

namespace VeneerLayout

variable {L : VeneerLayout}

attribute [local irreducible] int64

def Serves (L : VeneerLayout) (plan : VeneerPlan) : Prop :=
  ∀ si i, plan.siteVeneer.getD si none = some i →
    ∃ v s, plan.veneers[i]? = some v ∧ L.sites[si]? = some s ∧ v.target = s.target

structure Serving (L : VeneerLayout) (st : Sweep) : Prop where
  plan : L.Serves st.plan
  latest : ∀ t i, st.latest t = some i → ∃ v, st.plan.veneers[i]? = some v ∧ v.target = t

theorem Serves.set {plan plan' : VeneerPlan} (h : L.Serves plan) {si i : ℕ} {v : PlannedVeneer}
    {s : VeneerLayoutSite} (hs : L.sites[si]? = some s) (hv : plan'.veneers[i]? = some v)
    (htarget : v.target = s.target) (hveneers : plan.veneers <+: plan'.veneers)
    (hsites : plan'.siteVeneer = plan.siteVeneer.set si (some i)) : L.Serves plan' := by
  intro sj j hj
  rw [hsites, getD_set] at hj
  split_ifs at hj with hsame
  · obtain rfl := Option.some.inj hj
    obtain ⟨rfl, -⟩ := hsame
    exact ⟨v, s, hv, hs, htarget⟩
  · obtain ⟨u, s', hu, hs', hut⟩ := h sj j hj
    exact ⟨u, s', getElem?_of_extends hveneers hu, hs', hut⟩

theorem place_serving {m : ℤ} {st : Sweep} {si p : ℕ} {s : VeneerLayoutSite}
    (hs : L.sites[si]? = some s) (h : L.Serving st) :
    Holds L.Serves L.Serving (L.place m st si s p) := by
  unfold place
  simp only
  split
  · exact holds_error h.plan
  · next boundary hboundary =>
    by_cases hbody : L.bodyFor m (L.veneerDelta boundary (L.target s.target)) = L.bodies.length
    · rw [if_pos hbody]
      exact holds_error h.plan
    · rw [if_neg hbody]
      refine holds_ok ⟨?_, ?_⟩
      · exact @Serves.set L st.plan _ h.plan si _ ⟨boundary, s.target,
          L.bodyFor m (L.veneerDelta boundary (L.target s.target))⟩ s hs (by simp) rfl
          (List.prefix_append _ _) rfl
      · intro t i hi
        have hold : ∀ t i, st.latest t = some i →
            ∃ v, (st.plan.veneers ++ [⟨boundary, s.target,
              L.bodyFor m (L.veneerDelta boundary (L.target s.target))⟩])[i]? = some v ∧
              v.target = t := by
          intro t i hi
          obtain ⟨v, hv, hvt⟩ := h.latest t i hi
          exact ⟨v, getElem?_of_extends (List.prefix_append _ _) hv, hvt⟩
        rcases latest_cases hi with ⟨rfl, rfl⟩ | hi
        · exact ⟨⟨boundary, s.target,
            L.bodyFor m (L.veneerDelta boundary (L.target s.target))⟩, by simp, rfl⟩
        · exact hold t i hi

theorem visit_serving {m : ℤ} {st : Sweep} {si : ℕ} {s : VeneerLayoutSite}
    (hs : L.sites[si]? = some s) (h : L.Serving st) :
    Holds L.Serves L.Serving (L.visit m st s si) := by
  unfold visit
  simp only
  split_ifs
  · exact holds_ok ⟨h.plan, h.latest⟩
  · exact holds_error h.plan
  · split
    · next i hi =>
      unfold reuse at hi
      split at hi
      · exact absurd hi (by simp)
      · next k hk =>
        simp only at hi
        split_ifs at hi
        obtain rfl := Option.some.inj hi
        obtain ⟨v, hv, hvt⟩ := h.latest _ _ hk
        exact holds_ok ⟨h.plan.set hs hv hvt List.prefix_rfl rfl, h.latest⟩
    · exact place_serving hs ⟨h.plan, h.latest⟩

theorem sweep_serving {m : ℤ} {plan : VeneerPlan} (h : L.Serves plan) :
    Holds L.Serves L.Serving (L.sweep m plan) := by
  have hrun : ∀ (qs : List (VeneerLayoutSite × ℕ)) (st : Sweep),
      (∀ q ∈ qs, L.sites[q.2]? = some q.1) → L.Serving st →
      Holds L.Serves L.Serving (qs.foldlM (fun st q => L.visit m st q.1 q.2) st) := by
    intro qs
    induction qs with
    | nil => exact fun st _ hst => holds_ok hst
    | cons q qs ih =>
      intro st hqs hst
      rw [List.foldlM_cons]
      exact (visit_serving (hqs q List.mem_cons_self) hst).bind fun st' hst' =>
        ih st' (fun r hr => hqs r (List.mem_cons_of_mem _ hr)) hst'
  exact hrun _ _ (fun q hq => List.mem_zipIdx_iff_getElem?.1 hq) ⟨h, by simp⟩

theorem planBranchVeneers_serves (L : VeneerLayout) : L.Serves L.planBranchVeneers := by
  have hnone : ∀ plan : VeneerPlan,
      plan.siteVeneer = List.replicate L.sites.length none → L.Serves plan := by
    intro plan hplan si i hi
    rw [hplan] at hi
    simp [List.getD, List.getElem?_replicate] at hi
    split at hi <;> simp at hi
  rcases L.planBranchVeneers_cases with ⟨-, h⟩ | ⟨-, -, ⟨-, -, h⟩ | ⟨-, plan, hplan, -, -, h⟩⟩
  · exact hnone _ h
  · exact hnone _ h
  · have hsweep := @sweep_serving L (int64 L.marginOf.1) plan (hnone _ hplan)
    cases hres : L.sweep (int64 L.marginOf.1) plan with
    | ok st =>
      rw [hres] at h hsweep
      rw [h]
      exact hsweep.plan
    | error plan' =>
      rw [hres] at h hsweep
      rw [h]
      exact hsweep

theorem veneer_known {plan : VeneerPlan} (h : L.findVeneerPlanMisfit plan = none) {i : ℕ}
    {v : PlannedVeneer} (hv : plan.veneers[i]? = some v) :
    v.boundary ≤ L.n ∧ v.body < L.bodies.length := by
  unfold findVeneerPlanMisfit at h
  have hstray : (plan.veneers.zipIdx.findSome? fun v => L.strayVeneer v.1 v.2) = none := by
    cases hs : plan.veneers.zipIdx.findSome? fun v => L.strayVeneer v.1 v.2 with
    | none => rfl
    | some x => simp [hs] at h
  have hone := List.findSome?_eq_none_iff.1 hstray (v, i) (List.mem_zipIdx_iff_getElem?.2 hv)
  unfold strayVeneer at hone
  split_ifs at hone with hbad
  rw [not_or, not_le, not_lt] at hbad
  exact ⟨hbad.2, hbad.1⟩

end VeneerLayout

section Templates

variable {assemble : Assembler} {target : TargetSchema} {format : ObjectFormatSchema} {granule : ℕ}

/-- A body that refers to what its veneers stand in for: by its data word, or by an instruction
that declares a relocation on the target. -/
def LinkVeneerBody.namesTarget (body : LinkVeneerBody) : Bool :=
  body.sequence.any fun step =>
    step.isData || (!step.relocations.isEmpty && decide (placeholderOf step = kTemplateTargetV))

structure BodyTemplate.Sound (tpl : BodyTemplate) : Prop where
  dataAlign : tpl.dataBytes ≠ 0 → tpl.dataAlign = tpl.dataBytes
  size : tpl.size = tpl.code.length + tpl.slack + tpl.dataBytes

theorem templateFor_spec {body : LinkVeneerBody} {fn : AssembledFunction} {tpl : BodyTemplate}
    (h : templateFor target granule body fn = some tpl) :
    tpl.Sound ∧ tpl.relocations = fn.relocations ∧
      ((∃ step ∈ body.sequence, step.isData = true) → tpl.dataBytes ≠ 0) := by
  unfold templateFor at h
  obtain ⟨reach, -, rfl⟩ := Option.map_eq_some_iff.1 h
  refine ⟨⟨fun hdata => if_pos hdata, rfl⟩, rfl, ?_⟩
  rintro ⟨step, hstep, hdata⟩
  have hne : body.sequence.filter (·.isData) ≠ [] :=
    List.ne_nil_of_mem (List.mem_filter.2 ⟨hstep, hdata⟩)
  obtain ⟨last, hlast⟩ : ∃ last, (body.sequence.filter (·.isData)).getLast? = some last :=
    ⟨_, List.getLast?_eq_some_getLast hne⟩
  have hlastData := (List.mem_filter.1 (List.mem_of_getLast? hlast)).2
  simp only [hlast, Option.map_some, Option.getD_some]
  simpa [LinkVeneerStep.isData] using hlastData

theorem assembleBody_spec {body : LinkVeneerBody} {tpl : BodyTemplate}
    (h : assembleBody assemble target granule body = some tpl) :
    tpl.Sound ∧ (body.namesTarget = true →
      tpl.dataBytes ≠ 0 ∨ ∃ r ∈ tpl.relocations, r.target = kTemplateTargetV) := by
  unfold assembleBody at h
  split_ifs at h
  split at h
  · exact absurd h (by simp)
  · next fn hfn =>
    split_ifs at h with hempty hdeclared
    obtain ⟨hsound, hrelocs, hdata⟩ := templateFor_spec h
    refine ⟨hsound, fun hnames => ?_⟩
    obtain ⟨step, hstep, hnames⟩ := List.any_eq_true.1 hnames
    cases hisData : step.isData with
    | true => exact .inl (hdata ⟨step, hstep, hisData⟩)
    | false =>
      right
      rw [not_or, not_not] at hdeclared
      simp only [hisData, Bool.false_or, Bool.and_eq_true, decide_eq_true_eq,
        Bool.not_eq_true', List.isEmpty_eq_false_iff] at hnames
      obtain ⟨k, hk⟩ := List.exists_mem_of_ne_nil _ hnames.1
      have hmem : (k, kTemplateTargetV) ∈ declaredRelocations body := by
        unfold declaredRelocations
        refine List.mem_flatMap.2 ⟨step, List.mem_filter.2 ⟨hstep, by simp [hisData]⟩, ?_⟩
        exact List.mem_map.2 ⟨k, hk, by rw [hnames.2]⟩
      rw [← hdeclared.1] at hmem
      obtain ⟨r, hr, hrt⟩ := List.mem_map.1 hmem
      exact ⟨r, hrelocs ▸ hr, (Prod.mk.inj hrt).2⟩

theorem mem_usableBodies {bodies : List LinkVeneerBody} {usable : List BodyTemplate}
    (h : usableBodies assemble target format granule bodies = .ok usable) {tpl : BodyTemplate}
    (htpl : tpl ∈ usable) :
    isUsable format tpl = true ∧
      ∃ body ∈ bodies, assembleBody assemble target granule body = some tpl := by
  induction bodies generalizing usable with
  | nil =>
    obtain rfl := Except.ok.inj h
    simp at htpl
  | cons body bodies ih =>
    unfold usableBodies at h
    split at h
    · cases h
    · next tp htp =>
      by_cases hsize : tp.size % granule ≠ 0
      · rw [if_pos hsize] at h
        cases h
      rw [if_neg hsize] at h
      cases hrest : usableBodies assemble target format granule bodies with
      | error e =>
        rw [hrest] at h
        cases h
      | ok more =>
        rw [hrest] at h
        obtain rfl := Except.ok.inj h
        have hmore : tpl ∈ more → isUsable format tpl = true ∧
            ∃ b ∈ body :: bodies, assembleBody assemble target granule b = some tpl := by
          intro hmem
          obtain ⟨hu, b, hb, hasm⟩ := ih hrest hmem
          exact ⟨hu, b, List.mem_cons_of_mem _ hb, hasm⟩
        split_ifs at htpl with husable
        · rcases List.mem_cons.1 htpl with rfl | hmem
          · exact ⟨husable, body, List.mem_cons_self, htp⟩
          · exact hmore hmem
        · exact hmore htpl

theorem mem_of_mem_candidates {bytes sites largest : ℕ} {usable : List BodyTemplate}
    {tpl : BodyTemplate} (h : tpl ∈ candidates bytes sites largest usable) : tpl ∈ usable := by
  induction usable generalizing largest with
  | nil => simp [candidates] at h
  | cons tp usable ih =>
    unfold candidates at h
    simp only at h
    split_ifs at h
    · exact List.mem_cons.2 (.inl (List.mem_singleton.1 h))
    · exact (List.mem_cons.1 h).elim (fun h => List.mem_cons.2 (.inl h))
        fun h => List.mem_cons_of_mem _ (ih h)

end Templates

end DssPrime
