import DssPrime.Link.VeneerIslands
import DssPrime.Link.VeneerTables

/-!
# Veneer injection preserves destinations

`Preserves` says what inserting veneers into a module may change and what it may not: the functions
keep their bytes and order, the entry is followed, the text is laid out as the plan was measured,
the data words are aligned, and every collected branch still ends where it did, directly or through
one veneer.
-/

namespace DssPrime

/-- What an accepted module was given: the layout and plan the pass worked on, the bodies of the
veneers, and where functions and veneers came to stand. -/
structure VeneerInsertion where
  layout : VeneerLayout
  plan : VeneerPlan
  template : ℕ → BodyTemplate
  place : ℕ → ℕ
  slot : ℕ → ℕ

/-- A veneer whose body aims at a symbol and addend: one relocation does, and every other one does
too or stays within the veneer. -/
structure AimsAt (vf : AssembledFunction) (symbol : ℕ) (addend : ℤ) : Prop where
  one : ∃ r ∈ vf.relocations, r.target = symbol ∧ r.addend = addend
  all : ∀ r ∈ vf.relocations, (r.target = symbol ∧ r.addend = addend) ∨ r.target = vf.symbol

/-- A relocation that was aimed as `rel` and now enters veneer `i`, the one function of its symbol,
whose body aims there. -/
def ThroughVeneer (functions : List AssembledFunction) (w : VeneerInsertion) (i : ℕ)
    (rel rel' : Relocation) : Prop :=
  rel'.addend = 0 ∧ i < w.plan.veneers.length ∧ ∃ vf, functions[w.slot i]? = some vf ∧
    vf.symbol = rel'.target ∧ (∀ f ∈ functions, f.symbol = rel'.target → f = vf) ∧
    AimsAt vf rel.target rel.addend

/-- What happens to a collected branch: its field stays, and as the plan routes it, it ends where it
did, directly or through one veneer; where it ends is no veneer. -/
def BranchKept (module module' : AssembledModule) (w : VeneerInsertion) (ref : SiteRef)
    (route : Option ℕ) : Prop :=
  ∃ rel rel', relocAt module.functions ref = some rel ∧
    relocAt module'.functions ⟨w.place ref.function, ref.relocation⟩ = some rel' ∧
    rel'.offset = rel.offset ∧ rel'.kind = rel.kind ∧
    rel'.bytesAfterField = rel.bytesAfterField ∧
    (route = none → rel' = rel) ∧
    (∀ i, route = some i → ThroughVeneer module'.functions w i rel rel') ∧
    ∀ i vf, i < w.plan.veneers.length → module'.functions[w.slot i]? = some vf →
      vf.symbol ≠ rel.target

/-- A data word of a veneer that begins at text offset `start`: it lies in the veneer and is
aligned, in the text and wherever the format may place the text. -/
def WordAligned (format : ObjectFormatSchema) (tp : BodyTemplate) (vf : AssembledFunction)
    (start : ℕ) : Prop :=
  ∃ r ∈ vf.relocations, r.kind = tp.dataRelocation ∧ r.offset + tp.dataBytes ≤ vf.bytes.length ∧
    tp.dataBytes ∣ start + r.offset ∧
    ∀ base j k, tp.dataBytes = 2 ^ j → textStartAlignOf format = 2 ^ k →
      textStartAlignOf format ∣ base → tp.dataBytes ∣ base + (start + r.offset)

/-- The plan that routes no branch. -/
def VeneerLayout.unrouted (L : VeneerLayout) : VeneerPlan where
  siteVeneer := List.replicate L.sites.length none

/-- A module `module'` that carries the branches of `module` to where they went.  The insertion `w`
is the one of the layout collected from `module`: nothing in it is free but the bodies the planner
was given. -/
structure Preserves (assemble : Assembler) (target : TargetSchema) (format : ObjectFormatSchema)
    (collected : CollectedLayout) (module module' : AssembledModule) (w : VeneerInsertion) :
    Prop where
  /-- The layout is the collected one. -/
  layout : w.layout = { collected.layout with bodies := w.layout.bodies }
  /-- The plan is the planner's, or none was needed. -/
  plan : w.plan = w.layout.planBranchVeneers ∨ w.plan = collected.layout.unrouted
  /-- Every field reaches in the layout as it is measured. -/
  measured : w.layout.findVeneerPlanMisfit w.plan = none
  functions : ∀ b f, module.functions[b]? = some f → ∃ f',
    module'.functions[w.place b]? = some f' ∧ withoutRelocations f' = withoutRelocations f
  order : ∀ b b', b < b' → b' < module.functions.length → w.place b < w.place b'
  inserted : ∀ f ∈ module'.functions,
    (∃ b < module.functions.length, module'.functions[w.place b]? = some f) ∨
      ∃ i < w.plan.veneers.length, module'.functions[w.slot i]? = some f
  /-- Every veneer is one of the declared bodies, as assembled and as measured. -/
  veneers : ∀ i v, w.plan.veneers[i]? = some v → ∃ vf vocab body,
    module'.functions[w.slot i]? = some vf ∧ vf.bytes = (w.template i).code ++
      List.replicate ((w.template i).size - (w.template i).code.length) 0 ∧
    target.linkVeneers = some vocab ∧ body ∈ vocab.bodies ∧
    assembleBody assemble target (granuleOf target collected.reachKind) body =
      some (w.template i) ∧
    w.layout.bodies[v.body]? = some ⟨(w.template i).size, (w.template i).reach⟩
  entry : ∀ e < module.functions.length, module.imageEntryOverride = some e →
    module'.imageEntryOverride = some (w.place e)
  noEntry : module.imageEntryOverride = none → module'.imageEntryOverride = none
  /-- The text is laid out as it was measured. -/
  starts : textBytes module'.functions < 2 ^ 63 →
    (∀ b < module.functions.length,
      offsetOf module'.functions (w.place b) = w.layout.fstart w.plan.veneers b) ∧
    (∀ i < w.plan.veneers.length,
      (w.layout.vpos w.plan.veneers)[i]? = some (offsetOf module'.functions (w.slot i))) ∧
    textBytes module'.functions = w.layout.fstart w.plan.veneers module.functions.length
  words : ∀ i vf, i < w.plan.veneers.length → module'.functions[w.slot i]? = some vf →
    (w.template i).dataBytes ≠ 0 →
    WordAligned format (w.template i) vf (offsetOf module'.functions (w.slot i))
  branches : ∀ si ref, collected.refs[si]? = some ref →
    BranchKept module module' w ref (w.plan.siteVeneer.getD si none)
  others : ∀ ref ∉ collected.refs, ref.function < module.functions.length →
    relocAt module'.functions ⟨w.place ref.function, ref.relocation⟩ = relocAt module.functions ref

/-- The bodies that may be placed refer to their target: every declared body the assembler accepts
and the format can carry does, unless every collected branch reaches as it is. -/
def BodiesNamed (assemble : Assembler) (module : AssembledModule) (target : TargetSchema)
    (format : ObjectFormatSchema) (stubs : ImportCallStubLayout) : Prop :=
  (collectLayout module target stubs).layout.findVeneerPlanMisfit
    (collectLayout module target stubs).layout.unrouted ≠ none →
  ∀ vocab, target.linkVeneers = some vocab → ∀ body ∈ vocab.bodies, ∀ tpl,
    assembleBody assemble target (granuleOf target (collectLayout module target stubs).reachKind)
      body = some tpl → isUsable format tpl = true → body.namesTarget = true

section Fresh

theorem foldl_le {α : Type*} {f : ℕ → α → ℕ} (hf : ∀ m a, m ≤ f m a) (l : List α) (m : ℕ) :
    m ≤ l.foldl f m := by
  induction l generalizing m with
  | nil => exact le_rfl
  | cons a l ih => exact (hf m a).trans (ih _)

theorem foldl_le_of_mem {α : Type*} {f : ℕ → α → ℕ} {g : α → ℕ} (hf : ∀ m a, m ≤ f m a)
    (hg : ∀ m a, g a ≤ f m a) {l : List α} {a : α} (ha : a ∈ l) (m : ℕ) : g a ≤ l.foldl f m := by
  induction l generalizing m with
  | nil => simp at ha
  | cons b l ih =>
    rcases List.mem_cons.1 ha with rfl | ha
    · exact (hg m a).trans (foldl_le hf l _)
    · exact ih ha _

variable {module : AssembledModule}

theorem blockSymbols_le (m : ℕ) (f : AssembledFunction) :
    m ≤ f.blockSymbols.foldl (fun m bs => max m bs.symbol) m :=
  foldl_le (fun _ _ => le_max_left _ _) _ _

theorem function_symbol_le {f : AssembledFunction} (hf : f ∈ module.functions) :
    f.symbol ≤ maxExistingSymbolIdV module := by
  unfold maxExistingSymbolIdV
  refine le_trans ?_ (foldl_le (fun m f => blockSymbols_le m f) _ _)
  refine le_trans ?_ (foldl_le (fun _ _ => le_max_left _ _) _ _)
  refine le_trans ?_ (foldl_le (fun _ _ => (le_max_left _ _).trans (le_max_left _ _)) _ _)
  exact foldl_le_of_mem (g := fun f : AssembledFunction => f.symbol) (fun _ _ => le_max_left _ _)
    (fun _ _ => le_max_right _ _) hf 0

theorem import_symbol_le {ext : ExternImport} (h : ext ∈ module.externImports) :
    ext.symbol ≤ maxExistingSymbolIdV module := by
  unfold maxExistingSymbolIdV
  refine le_trans ?_ (foldl_le (fun m f => blockSymbols_le m f) _ _)
  refine le_trans ?_ (foldl_le (fun _ _ => le_max_left _ _) _ _)
  exact foldl_le_of_mem (g := fun ext => ext.symbol)
    (fun _ _ => (le_max_left _ _).trans (le_max_left _ _))
    (fun _ _ => (le_max_right _ _).trans (le_max_left _ _)) h _

end Fresh

section Prepare

variable {assemble : Assembler} {module : AssembledModule} {target : TargetSchema}
  {format : ObjectFormatSchema} {stubs : ImportCallStubLayout} {p : Prepared}

/-- What is known of the tables once nothing can be refused any more. -/
structure Ready (assemble : Assembler) (module : AssembledModule) (target : TargetSchema)
    (format : ObjectFormatSchema) (stubs : ImportCallStubLayout) (p : Prepared) : Prop where
  bodies : ∃ vocab, target.linkVeneers = some vocab ∧ ∀ tpl ∈ p.bodies,
    isUsable format tpl = true ∧ ∃ body ∈ vocab.bodies,
      assembleBody assemble target (granuleOf target (collectLayout module target stubs).reachKind)
        body = some tpl
  needed : (collectLayout module target stubs).layout.findVeneerPlanMisfit
    (collectLayout module target stubs).layout.unrouted ≠ none
  layout : p.layout = { (collectLayout module target stubs).layout with
    bodies := p.bodies.map fun tp => ⟨tp.size, tp.reach⟩ }
  plan : p.plan = p.layout.planBranchVeneers
  measured : p.layout.findVeneerPlanMisfit p.plan = none
  firstId : p.firstId = maxExistingSymbolIdV module + 1
  words : ∃ st st', placeWords p.templateOf (islandAt p.plan.veneers)
      (fun b => (module.functions.getD b default).bytes.length) module.functions.length = .ok st ∧
    (islandAt p.plan.veneers module.functions.length).foldlM (placeWord p.templateOf) st =
      .ok st' ∧ p.literalAt = st'.2

theorem prepare_some (h : prepare assemble module target format stubs = .ok (some p)) :
    Ready assemble module target format stubs p := by
  unfold prepare at h
  simp only at h
  split_ifs at h with hfits hproblems
  · cases h
  · split at h <;> cases h
  · split at h
    · cases h
    · next vocab hvocab =>
      obtain ⟨usable, husable, h⟩ := exists_of_bind_eq_ok h
      split_ifs at h with hempty hstatus hmisfit hveneers hsymbols
      · cases h
      · obtain ⟨st, hst, h⟩ := exists_of_bind_eq_ok h
        obtain ⟨st', hst', h⟩ := exists_of_bind_eq_ok h
        obtain rfl := Option.some.inj (Except.ok.inj h)
        refine ⟨⟨vocab, hvocab, ?_⟩, hfits, rfl, rfl, not_not.1 hmisfit, rfl, st, st', hst, hst',
          rfl⟩
        intro tpl htpl
        obtain ⟨hu, body, hbody, hasm⟩ := mem_usableBodies husable (mem_of_mem_candidates htpl)
        exact ⟨hu, body, hbody, hasm⟩

/-- A module that is accepted as it stands was measured with its own layout, and no site of it is
routed. -/
theorem prepare_none (h : prepare assemble module target format stubs = .ok none) :
    ∃ (L : VeneerLayout) (plan : VeneerPlan), plan.veneers = [] ∧
      L = { (collectLayout module target stubs).layout with bodies := L.bodies } ∧
      (plan = L.planBranchVeneers ∨
        plan = (collectLayout module target stubs).layout.unrouted) ∧
      L.findVeneerPlanMisfit plan = none ∧ ∀ si, plan.siteVeneer.getD si none = none := by
  unfold prepare at h
  simp only at h
  split_ifs at h with hfits hproblems
  · refine ⟨_, _, rfl, rfl, .inr rfl, hfits, fun si => ?_⟩
    rw [List.getD_eq_getElem?_getD, VeneerLayout.unrouted, List.getElem?_replicate]
    split_ifs <;> rfl
  · split at h <;> cases h
  · split at h
    · cases h
    · next vocab hvocab =>
      obtain ⟨usable, husable, h⟩ := exists_of_bind_eq_ok h
      split_ifs at h with hempty hstatus hmisfit hveneers hsymbols
      · refine ⟨_, _, hveneers, rfl, .inl rfl, not_not.1 hmisfit, fun si => ?_⟩
        -- a route would lead to a veneer, and there is none
        by_contra hroute
        obtain ⟨i, hi⟩ := Option.ne_none_iff_exists'.1 hroute
        obtain ⟨v, -, hv, -⟩ := VeneerLayout.planBranchVeneers_serves _ si i hi
        rw [hveneers] at hv
        simp at hv
      · obtain ⟨st, hst, h⟩ := exists_of_bind_eq_ok h
        obtain ⟨st', hst', h⟩ := exists_of_bind_eq_ok h
        cases h

end Prepare

section Insert

variable {assemble : Assembler} {module : AssembledModule} {target : TargetSchema}
  {format : ObjectFormatSchema} {stubs : ImportCallStubLayout} {p : Prepared}

def reaimed (module : AssembledModule) (refs : List SiteRef) (p : Prepared) :
    List AssembledFunction := retarget module.functions refs p.plan.siteVeneer p.firstId

def islandFns (p : Prepared) (targetSymbol : List ℕ) (b : ℕ) : List AssembledFunction :=
  (bucket p.plan.veneers.zipIdx b).map (makeVeneer p targetSymbol)

def insertionOf (module : AssembledModule) (collected : CollectedLayout) (p : Prepared) :
    VeneerInsertion where
  layout := p.layout
  plan := p.plan
  template := p.templateOf
  place := place (reaimed module collected.refs p) (islandFns p collected.targetSymbol)
    module.imageEntryOverride
  slot i :=
    let b := (p.plan.veneers.getD i default).boundary
    (mergedBefore (reaimed module collected.refs p) (islandFns p collected.targetSymbol)
      module.imageEntryOverride b).length + (bucket (p.plan.veneers.take i).zipIdx b).length

theorem islandFns_eq (p : Prepared) (targetSymbol : List ℕ) :
    (fun b => (islandAt p.plan.veneers b).map (makeVeneer p targetSymbol)) =
      islandFns p targetSymbol := by
  funext b
  rw [islandAt_eq]
  rfl

theorem insertVeneers_functions (collected : CollectedLayout) :
    (insertVeneers module collected p).functions =
      merged (reaimed module collected.refs p) (islandFns p collected.targetSymbol)
        module.imageEntryOverride := by
  rw [← islandFns_eq]
  rfl

theorem insertVeneers_entry (collected : CollectedLayout) :
    (insertVeneers module collected p).imageEntryOverride =
      (mergeUpTo (reaimed module collected.refs p) (islandFns p collected.targetSymbol)
        module.imageEntryOverride (reaimed module collected.refs p).length).2.orElse
          fun _ => module.imageEntryOverride := by
  rw [← islandFns_eq]
  rfl

theorem reaimed_withoutRelocations (refs : List SiteRef) :
    (reaimed module refs p).map withoutRelocations = module.functions.map withoutRelocations :=
  map_withoutRelocations_retarget refs

theorem length_reaimed (refs : List SiteRef) :
    (reaimed module refs p).length = module.functions.length := by
  simpa using congrArg List.length (@reaimed_withoutRelocations module p refs)

theorem reaimed_getElem? {refs : List SiteRef} {b : ℕ} {f : AssembledFunction}
    (hf : module.functions[b]? = some f) :
    ∃ f', (reaimed module refs p)[b]? = some f' ∧ withoutRelocations f' = withoutRelocations f := by
  have hmap := congrArg (fun l => l[b]?) (@reaimed_withoutRelocations module p refs)
  simp only [List.getElem?_map, hf, Option.map_some] at hmap
  obtain ⟨f', hf', heq⟩ := Option.map_eq_some_iff.1 hmap
  exact ⟨f', hf', heq⟩

theorem length_bytes_makeVeneer (targetSymbol : List ℕ) (i : ℕ) :
    (makeVeneer p targetSymbol i).bytes.length = (p.templateOf i).size := by
  simp only [makeVeneer, List.length_take, List.length_append, List.length_replicate]
  omega

theorem mem_relocations_makeVeneer {targetSymbol : List ℕ} {i : ℕ} {r : Relocation}
    (hr : r ∈ (makeVeneer p targetSymbol i).relocations) :
    (r.target = targetSymbol.getD (p.plan.veneers.getD i default).target 0 ∧
      r.addend = (p.layout.target (p.plan.veneers.getD i default).target).addend) ∨
      r.target = (makeVeneer p targetSymbol i).symbol := by
  simp only [makeVeneer] at hr
  rcases List.mem_append.1 hr with hr | hr
  · obtain ⟨r', -, rfl⟩ := List.mem_map.1 hr
    split_ifs
    · exact .inl ⟨rfl, rfl⟩
    · exact .inr rfl
  · split_ifs at hr with hdata
    · rw [List.mem_singleton.1 hr]
      exact .inl ⟨rfl, rfl⟩
    · simp at hr

theorem word_mem_makeVeneer {targetSymbol : List ℕ} {i : ℕ}
    (hdata : (p.templateOf i).dataBytes ≠ 0) :
    { offset := p.literalAt i
      target := targetSymbol.getD (p.plan.veneers.getD i default).target 0
      kind := (p.templateOf i).dataRelocation
      addend := (p.layout.target (p.plan.veneers.getD i default).target).addend } ∈
      (makeVeneer p targetSymbol i).relocations := by
  simp only [makeVeneer]
  rw [if_pos hdata]
  exact List.mem_append_right _ (List.mem_singleton_self _)

theorem exists_aim_makeVeneer {targetSymbol : List ℕ} {i : ℕ}
    (h : (p.templateOf i).dataBytes ≠ 0 ∨
      ∃ r ∈ (p.templateOf i).relocations, r.target = kTemplateTargetV) :
    ∃ r ∈ (makeVeneer p targetSymbol i).relocations,
      r.target = targetSymbol.getD (p.plan.veneers.getD i default).target 0 ∧
      r.addend = (p.layout.target (p.plan.veneers.getD i default).target).addend := by
  rcases h with hdata | ⟨r, hr, htarget⟩
  · exact ⟨_, word_mem_makeVeneer hdata, rfl, rfl⟩
  · refine ⟨_, List.mem_append_left _ (List.mem_map_of_mem hr), ?_⟩
    simp [htarget]

section Positions

variable (hp : Ready assemble module target format stubs p)
include hp

theorem Ready.template {i : ℕ} {v : PlannedVeneer} (hv : p.plan.veneers[i]? = some v) :
    p.templateOf i ∈ p.bodies ∧ p.layout.sizeOf v = (p.templateOf i).size ∧
      v.boundary ≤ module.functions.length ∧
      p.layout.bodies[v.body]? = some ⟨(p.templateOf i).size, (p.templateOf i).reach⟩ := by
  obtain ⟨hboundary, hbody⟩ := VeneerLayout.veneer_known hp.measured hv
  have hlen : p.layout.bodies.length = p.bodies.length := by
    rw [hp.layout]
    simp
  have hn : p.layout.n = module.functions.length := by
    rw [hp.layout]
    simp [VeneerLayout.n, collectLayout]
  have hget : p.bodies[v.body]? = some (p.templateOf i) := by
    unfold Prepared.templateOf
    have hgetD : p.plan.veneers.getD i default = v := by simp [List.getD, hv]
    rw [hgetD, List.getD_eq_getElem?_getD, List.getElem?_eq_getElem (hlen ▸ hbody),
      Option.getD_some]
  refine ⟨List.mem_of_getElem? hget, ?_, hn ▸ hboundary, ?_⟩
  · unfold VeneerLayout.sizeOf VeneerLayout.body
    rw [hp.layout]
    simp [List.getD, hget]
  · rw [hp.layout]
    simp [hget]

theorem Ready.sound {i : ℕ} (hdata : (p.templateOf i).dataBytes ≠ 0) :
    (p.templateOf i).Sound := by
  have hmem : p.templateOf i ∈ p.bodies := by
    unfold Prepared.templateOf at hdata ⊢
    rw [List.getD_eq_getElem?_getD] at hdata ⊢
    cases hget : p.bodies[(p.plan.veneers.getD i default).body]? with
    | some tpl => exact List.mem_of_getElem? hget
    | none =>
      rw [hget] at hdata
      exact absurd rfl hdata
  obtain ⟨vocab, -, hbodies⟩ := hp.bodies
  obtain ⟨-, body, -, hasm⟩ := hbodies _ hmem
  exact (assembleBody_spec hasm).1

variable {targetSymbol : List ℕ} {refs : List SiteRef}

theorem Ready.size_veneer (targetSymbol : List ℕ) (i : ℕ) (v : PlannedVeneer)
    (hv : p.plan.veneers[i]? = some v) :
    (makeVeneer p targetSymbol i).bytes.length = p.layout.sizeOf v := by
  rw [length_bytes_makeVeneer, (hp.template hv).2.1]

theorem Ready.functionSizes : p.layout.functionSizes = module.functions.map (·.bytes.length) := by
  rw [hp.layout]
  rfl

theorem Ready.size_function (refs : List SiteRef) (b : ℕ) (f : AssembledFunction)
    (hf : (reaimed module refs p)[b]? = some f) : f.bytes.length = p.layout.sizeAt b := by
  obtain ⟨hb, -⟩ := List.getElem?_eq_some_iff.1 hf
  rw [length_reaimed] at hb
  obtain ⟨f', hf', hsame⟩ := @reaimed_getElem? module p refs b _ (List.getElem?_eq_getElem hb)
  obtain rfl : f' = f := Option.some.inj (hf'.symm.trans hf)
  have hbytes : f'.bytes = (module.functions[b]).bytes := congrArg (·.bytes) hsame
  unfold VeneerLayout.sizeAt
  rw [hp.functionSizes, hbytes]
  simp [List.getD, List.getElem?_eq_getElem hb]

theorem Ready.slot_spec {i : ℕ} {v : PlannedVeneer} (hv : p.plan.veneers[i]? = some v)
    (entry : Option ℕ) :
    (merged (reaimed module refs p) (islandFns p targetSymbol) entry)[
        (mergedBefore (reaimed module refs p) (islandFns p targetSymbol) entry v.boundary).length +
          (bucket (p.plan.veneers.take i).zipIdx v.boundary).length]? =
        some (makeVeneer p targetSymbol i) ∧
      offsetOf (merged (reaimed module refs p) (islandFns p targetSymbol) entry)
        ((mergedBefore (reaimed module refs p) (islandFns p targetSymbol) entry v.boundary).length +
          (bucket (p.plan.veneers.take i).zipIdx v.boundary).length) =
        textBytes (mergedBefore (reaimed module refs p) (islandFns p targetSymbol) entry
          v.boundary) + textBytes ((bucket (p.plan.veneers.take i).zipIdx v.boundary).map
            (makeVeneer p targetSymbol)) := by
  obtain ⟨rest, hsplit⟩ := bucket_split hv
  have hb : v.boundary ≤ (reaimed module refs p).length := by
    rw [length_reaimed]
    exact (hp.template hv).2.2.1
  have hisland : islandFns p targetSymbol v.boundary =
      (bucket (p.plan.veneers.take i).zipIdx v.boundary).map (makeVeneer p targetSymbol) ++
        makeVeneer p targetSymbol i :: rest.map (makeVeneer p targetSymbol) := by
    unfold islandFns
    rw [hsplit]
    simp
  have hslot := @merged_slot _ _ entry _ hb _ _ _ hisland
  rwa [List.length_map] at hslot

theorem Ready.textBytes_before {b : ℕ} (hb : b ≤ module.functions.length) (entry : Option ℕ) :
    textBytes (mergedBefore (reaimed module refs p) (islandFns p targetSymbol) entry b) =
      p.layout.bytesBefore b +
        p.layout.bytesWhere p.plan.veneers fun k => decide (k < b) := by
  refine textBytes_mergedBefore (hp.size_veneer targetSymbol)
    (hp.size_function refs) ?_
  rwa [length_reaimed]

theorem Ready.textBytes_islandFns (b : ℕ) :
    textBytes (islandFns p targetSymbol b) =
      p.layout.bytesWhere p.plan.veneers fun k => decide (k = b) :=
  textBytes_island (hp.size_veneer targetSymbol) b

theorem Ready.layout_n : p.layout.n = module.functions.length := by
  unfold VeneerLayout.n
  rw [hp.functionSizes, List.length_map]

theorem Ready.textBytes_merged (entry : Option ℕ) :
    textBytes (merged (reaimed module refs p) (islandFns p targetSymbol) entry) =
      p.layout.bytesBefore p.layout.n + p.layout.total p.plan.veneers := by
  have hall : p.layout.bytesWhere p.plan.veneers
      (fun k => decide (k < module.functions.length + 1)) = p.layout.total p.plan.veneers := by
    unfold VeneerLayout.bytesWhere
    rw [List.filter_eq_self.2]
    intro v hv
    obtain ⟨i, hi⟩ := List.mem_iff_getElem?.1 hv
    have := (hp.template hi).2.2.1
    exact decide_eq_true (by omega)
  unfold merged
  rw [textBytes_append, length_reaimed, hp.textBytes_before le_rfl, hp.textBytes_islandFns,
    hp.layout_n, ← hall, VeneerLayout.bytesWhere_lt_succ]
  omega

theorem Ready.starts (entry : Option ℕ)
    (hfit : textBytes (merged (reaimed module refs p) (islandFns p targetSymbol) entry) < 2 ^ 63) :
    (∀ b ≤ module.functions.length,
      offsetOf (merged (reaimed module refs p) (islandFns p targetSymbol) entry)
        (place (reaimed module refs p) (islandFns p targetSymbol) entry b) =
          p.layout.fstart p.plan.veneers b) ∧
    (∀ i v, p.plan.veneers[i]? = some v →
      (p.layout.vpos p.plan.veneers)[i]? = some
        (textBytes (mergedBefore (reaimed module refs p) (islandFns p targetSymbol) entry
          v.boundary) + textBytes ((bucket (p.plan.veneers.take i).zipIdx v.boundary).map
            (makeVeneer p targetSymbol)))) := by
  rw [hp.textBytes_merged] at hfit
  refine ⟨?_, ?_⟩
  · intro b hb
    rw [offsetOf_place (by rwa [length_reaimed]), hp.textBytes_before hb, hp.textBytes_islandFns,
      VeneerLayout.fstart_eq hfit (hp.layout_n ▸ hb), VeneerLayout.bytesWhere_lt_succ]
    omega
  · intro i v hv
    have hb := (hp.template hv).2.2.1
    have hle := p.layout.bytesBefore_mono (hp.layout_n.symm ▸ hb)
    have htake := VeneerLayout.bytesWhere_take_le (L := p.layout) p.plan.veneers i
      fun k => decide (k = v.boundary)
    have hsucc := VeneerLayout.bytesWhere_lt_succ (L := p.layout) p.plan.veneers v.boundary
    have hins := VeneerLayout.bytesWhere_le_total (L := p.layout) p.plan.veneers
      fun k => decide (k < v.boundary + 1)
    rw [hp.textBytes_before hb, textBytes_island_take (hp.size_veneer targetSymbol)]
    unfold VeneerLayout.vpos
    rw [VeneerLayout.stack_getElem? _ _ _ _ hv,
      VeneerLayout.islandBase_eq hfit (hp.layout_n.symm ▸ hb),
      VeneerLayout.foldl_fill _ _ _ (by omega), uint64_of_lt (by omega), Nat.zero_add]

theorem Ready.wordAligned {i : ℕ} {v : PlannedVeneer} (hv : p.plan.veneers[i]? = some v)
    (hdata : (p.templateOf i).dataBytes ≠ 0) (entry : Option ℕ) :
    WordAligned format (p.templateOf i) (makeVeneer p targetSymbol i)
      (textBytes (mergedBefore (reaimed module refs p) (islandFns p targetSymbol) entry
          v.boundary) + textBytes ((bucket (p.plan.veneers.take i).zipIdx v.boundary).map
            (makeVeneer p targetSymbol))) := by
  obtain ⟨st, st', hst, hst', hliteral⟩ := hp.words
  obtain ⟨rest, hsplit⟩ := bucket_split hv
  have hsound := hp.sound hdata
  have hfs : (fun b => (module.functions.getD b default).bytes.length) =
      fun b => ((reaimed module refs p).getD b default).bytes.length := by
    funext b
    cases hb : module.functions[b]? with
    | some f =>
      obtain ⟨f', hf', hsame⟩ := @reaimed_getElem? module p refs b f hb
      have hbytes : f'.bytes = f.bytes := congrArg (·.bytes) hsame
      simp [List.getD, hb, hf', hbytes]
    | none =>
      have hnone : (reaimed module refs p)[b]? = none := by
        rw [List.getElem?_eq_none_iff] at hb ⊢
        rwa [length_reaimed]
      simp [List.getD, hb, hnone]
  rw [hfs, ← @length_reaimed module p refs] at hst
  rw [← @length_reaimed module p refs] at hst'
  have hislands : islandAt p.plan.veneers = bucket p.plan.veneers.zipIdx := funext (islandAt_eq _)
  rw [hislands] at hst hst'
  have haligned := @placeWords_aligned p.templateOf (makeVeneer p targetSymbol)
    (fun j hj => by rw [(hp.sound hj).dataAlign hj]; exact Nat.pos_of_ne_zero hj)
    (length_bytes_makeVeneer targetSymbol) (reaimed module refs p) (bucket p.plan.veneers.zipIdx)
    entry (bucket_nodup _) (fun b b' j hj hj' => by
      obtain ⟨u, hu, rfl⟩ := mem_bucket.1 hj
      obtain ⟨u', hu', rfl⟩ := mem_bucket.1 hj'
      rw [Option.some.inj (hu.symm.trans hu')]) st st' hst hst' v.boundary
    (by rw [length_reaimed]; exact (hp.template hv).2.2.1) _ _ i hsplit hdata
  rw [← hliteral] at haligned
  obtain ⟨hafter, hpadding, hdvd⟩ := haligned
  rw [hsound.dataAlign hdata] at hdvd
  refine ⟨_, word_mem_makeVeneer hdata, rfl, ?_, hdvd, ?_⟩
  · rw [length_bytes_makeVeneer, hsound.size]
    simp only
    omega
  · intro base j k hj hk hbase
    -- the format aligns the text at least as strictly as the word
    obtain ⟨vocab, -, hbodies⟩ := hp.bodies
    have husable := (hbodies _ (hp.template hv).1).1
    unfold isUsable at husable
    simp only [ne_eq, decide_not, Bool.and_eq_true, Bool.and_eq_false_imp,
      decide_eq_false_iff_not, not_lt, Bool.not_eq_eq_eq_not, Bool.not_true] at husable
    have hle : (p.templateOf i).dataBytes ≤ textStartAlignOf format := by
      have := husable.2 hdata
      rwa [hsound.dataAlign hdata] at this
    rw [hj, hk] at hle
    have hjk : j ≤ k := (Nat.pow_le_pow_iff_right (by omega)).1 hle
    have hdiv : (p.templateOf i).dataBytes ∣ base := by
      rw [hj]
      exact (Nat.pow_dvd_pow 2 hjk).trans (hk ▸ hbase)
    exact hdiv.add hdvd

theorem Ready.slot_eq (collected : CollectedLayout) {i : ℕ} {v : PlannedVeneer}
    (hv : p.plan.veneers[i]? = some v) :
    (insertVeneers module collected p).functions[(insertionOf module collected p).slot i]? =
      some (makeVeneer p collected.targetSymbol i) := by
  have hgetD : p.plan.veneers.getD i default = v := by simp [List.getD, hv]
  rw [insertVeneers_functions]
  unfold insertionOf
  simp only [hgetD]
  exact (hp.slot_spec hv module.imageEntryOverride).1

theorem Ready.offsetOf_slot (collected : CollectedLayout) {i : ℕ} {v : PlannedVeneer}
    (hv : p.plan.veneers[i]? = some v) :
    offsetOf (insertVeneers module collected p).functions
        ((insertionOf module collected p).slot i) =
      textBytes (mergedBefore (reaimed module collected.refs p)
          (islandFns p collected.targetSymbol) module.imageEntryOverride v.boundary) +
        textBytes ((bucket (p.plan.veneers.take i).zipIdx v.boundary).map
          (makeVeneer p collected.targetSymbol)) := by
  have hgetD : p.plan.veneers.getD i default = v := by simp [List.getD, hv]
  rw [insertVeneers_functions]
  unfold insertionOf
  simp only [hgetD]
  exact (hp.slot_spec hv module.imageEntryOverride).2

omit hp in
theorem relocAt_place (collected : CollectedLayout) {ref : SiteRef}
    (hb : ref.function < module.functions.length) :
    relocAt (insertVeneers module collected p).functions
        ⟨(insertionOf module collected p).place ref.function, ref.relocation⟩ =
      relocAt (reaimed module collected.refs p) ref := by
  rw [← @length_reaimed module p collected.refs] at hb
  unfold relocAt insertionOf
  rw [insertVeneers_functions]
  simp only
  rw [merged_place (List.getElem?_eq_getElem hb), List.getElem?_eq_getElem hb]

theorem Ready.symbol_lt (hstubs : ∀ symbol past, stubs.maxPastTextEnd.lookup symbol = some past →
      ∃ ext ∈ module.externImports, ext.symbol = symbol) {symbol : ℕ}
    (h : Known module stubs symbol) : symbol < p.firstId := by
  rw [hp.firstId]
  rcases h with ⟨f, hf, rfl⟩ | ⟨past, hpast⟩
  · exact Nat.lt_succ_of_le (function_symbol_le hf)
  · obtain ⟨ext, hext, rfl⟩ := hstubs symbol past hpast
    exact Nat.lt_succ_of_le (import_symbol_le hext)

theorem Ready.symbol_unique (collected : CollectedLayout) {i : ℕ} {f : AssembledFunction}
    (hf : f ∈ (insertVeneers module collected p).functions) (hsymbol : f.symbol = p.firstId + i) :
    f = makeVeneer p collected.targetSymbol i := by
  rw [insertVeneers_functions] at hf
  rcases mem_merged hf with hf | ⟨b, hf⟩
  · exfalso
    obtain ⟨b, hb⟩ := List.mem_iff_getElem?.1 hf
    have hlt : b < module.functions.length := by
      obtain ⟨hb', -⟩ := List.getElem?_eq_some_iff.1 hb
      rwa [length_reaimed] at hb'
    obtain ⟨f', hf', hsame⟩ :=
      @reaimed_getElem? module p collected.refs b _ (List.getElem?_eq_getElem hlt)
    obtain rfl : f' = f := Option.some.inj (hf'.symm.trans hb)
    have hold : f'.symbol = (module.functions[b]).symbol := congrArg (·.symbol) hsame
    have hle := function_symbol_le (List.getElem_mem hlt)
    rw [← hold, hsymbol, hp.firstId] at hle
    omega
  · obtain ⟨j, -, rfl⟩ := List.mem_map.1 hf
    have hj : p.firstId + j = p.firstId + i := hsymbol
    rw [show j = i by omega]

theorem Ready.branch (hnames : BodiesNamed assemble module target format stubs)
    (hstubs : ∀ symbol past, stubs.maxPastTextEnd.lookup symbol = some past →
      ∃ ext ∈ module.externImports, ext.symbol = symbol) {si : ℕ} {ref : SiteRef}
    (hsi : (collectLayout module target stubs).refs[si]? = some ref) :
    BranchKept module (insertVeneers module (collectLayout module target stubs) p)
      (insertionOf module (collectLayout module target stubs) p) ref
      (p.plan.siteVeneer.getD si none) := by
  obtain ⟨hcollected, hnodup⟩ := collectTables_spec module target stubs
  obtain ⟨q, hq, rfl⟩ : ∃ q, (collectTables module target stubs).sites[si]? = some q ∧
      q.2 = ref := by
    have : ((collectTables module target stubs).sites.map (·.2))[si]? = some ref := hsi
    rwa [List.getElem?_map, Option.map_eq_some_iff] at this
  obtain ⟨rel, hrel, ⟨hsymbol, haddend⟩, hknown⟩ :=
    hcollected.sites q (List.mem_of_getElem? hq)
  have hfn : q.2.function < module.functions.length := by
    unfold relocAt at hrel
    obtain ⟨f, hf, -⟩ := Option.bind_eq_some_iff.1 hrel
    exact (List.getElem?_eq_some_iff.1 hf).1
  have hnew := @relocAt_place module p (collectLayout module target stubs) q.2 hfn
  have hre : relocAt (reaimed module (collectLayout module target stubs).refs p) q.2 = _ :=
    relocAt_retarget hnodup hsi
  have hfree : ∀ i vf, i < p.plan.veneers.length →
      (insertVeneers module (collectLayout module target stubs) p).functions[
        (insertionOf module (collectLayout module target stubs) p).slot i]? = some vf →
      vf.symbol ≠ rel.target := by
    intro i vf hi hvf
    rw [hp.slot_eq _ (List.getElem?_eq_getElem hi)] at hvf
    obtain rfl := Option.some.inj hvf
    have hlt := hp.symbol_lt hstubs hknown
    have hself : (makeVeneer p (collectLayout module target stubs).targetSymbol i).symbol =
      p.firstId + i := rfl
    omega
  cases hroute : p.plan.siteVeneer.getD si none with
  | none =>
    rw [hroute] at hre
    exact ⟨rel, rel, hrel, hnew.trans (hre.trans hrel), rfl, rfl, rfl, fun _ => rfl,
      fun i hi => (by cases hi), hfree⟩
  | some i =>
    rw [hroute, hrel] at hre
    obtain ⟨v, s, hv, hs, htarget⟩ :=
      (hp.plan ▸ p.layout.planBranchVeneers_serves : p.layout.Serves p.plan) si i hroute
    obtain ⟨hi, -⟩ := List.getElem?_eq_some_iff.1 hv
    have hgetD : p.plan.veneers.getD i default = v := by simp [List.getD, hv]
    -- the site of the layout is the collected one
    have hsite : s = q.1 := by
      rw [hp.layout] at hs
      have : ((collectTables module target stubs).sites.map (·.1))[si]? = some s := hs
      rw [List.getElem?_map, hq] at this
      exact (Option.some.inj this).symm
    subst hsite
    have haim : (collectLayout module target stubs).targetSymbol.getD
        (p.plan.veneers.getD i default).target 0 = rel.target := by
      rw [hgetD, htarget, List.getD_eq_getElem?_getD]
      exact congrArg (·.getD 0) hsymbol
    have haimPlus : (p.layout.target (p.plan.veneers.getD i default).target).addend =
        rel.addend := by
      obtain ⟨t, ht, hta⟩ := Option.map_eq_some_iff.1 haddend
      unfold VeneerLayout.target
      rw [hgetD, htarget, hp.layout, List.getD_eq_getElem?_getD]
      have : (collectLayout module target stubs).layout.targets[q.1.target]? = some t := ht
      rw [this]
      exact hta
    obtain ⟨vocab, hvocab, hbodies⟩ := hp.bodies
    obtain ⟨husable, body, hbody, hasm⟩ := hbodies _ (hp.template hv).1
    have hone := @exists_aim_makeVeneer p (collectLayout module target stubs).targetSymbol i
      ((assembleBody_spec hasm).2 (hnames hp.needed vocab hvocab body hbody _ hasm husable))
    rw [haim, haimPlus] at hone
    refine ⟨rel, aimed p.firstId i rel, hrel, hnew.trans hre, rfl, rfl, rfl,
      fun hno => (by cases hno), fun j hj => ?_, hfree⟩
    obtain rfl := Option.some.inj hj
    refine ⟨rfl, hi, _, hp.slot_eq _ hv, rfl, fun f hf hsym => hp.symbol_unique _ hf hsym, hone, ?_⟩
    intro r hr
    have hall := mem_relocations_makeVeneer hr
    rwa [haim, haimPlus] at hall

theorem Ready.preserves (hnames : BodiesNamed assemble module target format stubs)
    (hstubs : ∀ symbol past, stubs.maxPastTextEnd.lookup symbol = some past →
      ∃ ext ∈ module.externImports, ext.symbol = symbol) :
    Preserves assemble target format (collectLayout module target stubs) module
      (insertVeneers module (collectLayout module target stubs) p)
      (insertionOf module (collectLayout module target stubs) p) where
  layout := by
    unfold insertionOf
    simp only
    rw [hp.layout]
  plan := .inl hp.plan
  measured := hp.measured
  functions := by
    intro b f hf
    obtain ⟨f', hf', hsame⟩ :=
      @reaimed_getElem? module p (collectLayout module target stubs).refs b f hf
    rw [insertVeneers_functions]
    exact ⟨f', merged_place hf', hsame⟩
  order := by
    intro b b' hlt hb'
    exact place_lt hlt (by rwa [length_reaimed])
  inserted := by
    intro f hf
    rw [insertVeneers_functions] at hf
    rcases mem_merged hf with hf | ⟨b, hf⟩
    · obtain ⟨b, hb⟩ := List.mem_iff_getElem?.1 hf
      refine .inl ⟨b, ?_, ?_⟩
      · obtain ⟨hb', -⟩ := List.getElem?_eq_some_iff.1 hb
        rwa [length_reaimed] at hb'
      · rw [insertVeneers_functions]
        exact merged_place hb
    · obtain ⟨i, hi, rfl⟩ := List.mem_map.1 hf
      obtain ⟨v, hv, -⟩ := mem_bucket.1 hi
      exact .inr ⟨i, (List.getElem?_eq_some_iff.1 hv).1, hp.slot_eq _ hv⟩
  veneers := by
    intro i v hv
    obtain ⟨vocab, hvocab, hbodies⟩ := hp.bodies
    obtain ⟨-, body, hbody, hasm⟩ := hbodies _ (hp.template hv).1
    refine ⟨_, vocab, body, hp.slot_eq _ hv, ?_, hvocab, hbody, hasm, (hp.template hv).2.2.2⟩
    have hsize := (assembleBody_spec hasm).1.size
    refine List.take_of_length_le ?_
    rw [List.length_append, List.length_replicate]
    omega
  entry := by
    intro e he hentry
    rw [insertVeneers_entry, mergeUpTo_entry hentry le_rfl, length_reaimed, if_pos he]
    rfl
  noEntry := by
    intro hentry
    rw [insertVeneers_entry, mergeUpTo_noEntry hentry, hentry]
    rfl
  starts := by
    intro hfit
    rw [insertVeneers_functions] at hfit ⊢
    obtain ⟨hplaces, hslots⟩ := hp.starts module.imageEntryOverride hfit
    refine ⟨fun b hb => hplaces b hb.le, ?_, ?_⟩
    · intro i hi
      obtain ⟨v, hv⟩ : ∃ v, p.plan.veneers[i]? = some v := ⟨_, List.getElem?_eq_getElem hi⟩
      rw [← insertVeneers_functions, hp.offsetOf_slot _ hv]
      exact hslots i v hv
    · refine Eq.trans ?_ (hplaces _ le_rfl)
      rw [offsetOf_place (by rw [length_reaimed]), merged, textBytes_append, length_reaimed]
  words := by
    intro i vf hi hvf hdata
    obtain ⟨v, hv⟩ : ∃ v, p.plan.veneers[i]? = some v := ⟨_, List.getElem?_eq_getElem hi⟩
    rw [hp.slot_eq _ hv] at hvf
    obtain rfl := Option.some.inj hvf
    rw [hp.offsetOf_slot _ hv]
    exact hp.wordAligned hv hdata module.imageEntryOverride
  branches := fun si ref hsi => hp.branch hnames hstubs hsi
  others := by
    intro ref href hb
    rw [relocAt_place _ hb]
    exact relocAt_retarget_of_notMem href

end Positions

end Insert

def noInsertion (L : VeneerLayout) (plan : VeneerPlan) : VeneerInsertion where
  layout := L
  plan := plan
  template _ := default
  place := id
  slot := id

theorem noInsertion_preserves {assemble : Assembler} {module : AssembledModule}
    {target : TargetSchema} {format : ObjectFormatSchema} {stubs : ImportCallStubLayout}
    {L : VeneerLayout} {plan : VeneerPlan} (hveneers : plan.veneers = [])
    (hlayout : L = { (collectLayout module target stubs).layout with bodies := L.bodies })
    (hplan : plan = L.planBranchVeneers ∨
      plan = (collectLayout module target stubs).layout.unrouted)
    (hmeasured : L.findVeneerPlanMisfit plan = none)
    (hroutes : ∀ si, plan.siteVeneer.getD si none = none) :
    Preserves assemble target format (collectLayout module target stubs) module module
      (noInsertion L plan) where
  layout := hlayout
  plan := hplan
  measured := hmeasured
  functions := fun b f hf => ⟨f, hf, rfl⟩
  order := fun b b' h _ => h
  inserted := by
    intro f hf
    obtain ⟨b, hb⟩ := List.mem_iff_getElem?.1 hf
    exact .inl ⟨b, (List.getElem?_eq_some_iff.1 hb).1, hb⟩
  veneers := by simp [noInsertion, hveneers]
  entry := fun e _ he => he
  noEntry := id
  starts := by
    intro hfit
    have hsizes : L.functionSizes = module.functions.map (·.bytes.length) := by
      rw [hlayout]
      rfl
    have hbytes : ∀ b, L.bytesBefore b = offsetOf module.functions b := by
      intro b
      unfold VeneerLayout.bytesBefore offsetOf textBytes
      rw [hsizes, List.map_take]
    have hn : L.n = module.functions.length := by
      unfold VeneerLayout.n
      rw [hsizes, List.length_map]
    have hend : offsetOf module.functions module.functions.length = textBytes module.functions := by
      unfold offsetOf
      rw [List.take_length]
    have htotal : L.total [] = 0 := rfl
    have hstart : ∀ b ≤ module.functions.length,
        L.fstart [] b = offsetOf module.functions b := by
      intro b hb
      rw [VeneerLayout.fstart_eq (by rw [hn, hbytes, hend, htotal]; exact hfit) (hn ▸ hb), hbytes]
      rfl
    unfold noInsertion
    simp only [hveneers]
    exact ⟨fun b hb => (hstart b hb.le).symm, by simp, by rw [hstart _ le_rfl, hend]⟩
  words := by simp [noInsertion, hveneers]
  branches := by
    intro si ref hsi
    obtain ⟨hcollected, -⟩ := collectTables_spec module target stubs
    obtain ⟨q, hq, rfl⟩ := List.mem_map.1 (List.mem_of_getElem? hsi)
    obtain ⟨rel, hrel, -, -⟩ := hcollected.sites q hq
    refine ⟨rel, rel, hrel, hrel, rfl, rfl, rfl, fun _ => rfl, fun i hi => ?_,
      by simp [noInsertion, hveneers]⟩
    rw [show (noInsertion L plan).plan = plan from rfl, hroutes] at hi
    cases hi
  others := fun _ _ _ => rfl

/-- **Veneer injection preserves every destination and is atomic.**  When every body that may be
placed refers to its target and the stubs are those of the module's imports, an accepted module is
preserved in the sense of `Preserves`; a refused module is handed back as it was. -/
theorem injectBranchVeneers_preserves (assemble : Assembler) (module : AssembledModule)
    (target : TargetSchema) (format : ObjectFormatSchema) (stubs : ImportCallStubLayout)
    (hnames : BodiesNamed assemble module target format stubs)
    (hstubs : ∀ symbol past, stubs.maxPastTextEnd.lookup symbol = some past →
      ∃ ext ∈ module.externImports, ext.symbol = symbol) :
    ((injectBranchVeneers assemble module target format stubs).1 = none →
      ∃ w, Preserves assemble target format (collectLayout module target stubs) module
        (injectBranchVeneers assemble module target format stubs).2 w) ∧
    ((injectBranchVeneers assemble module target format stubs).1 ≠ none →
      (injectBranchVeneers assemble module target format stubs).2 = module) := by
  unfold injectBranchVeneers
  cases hprepare : prepare assemble module target format stubs with
  | error refusal => exact ⟨fun h => by simp at h, fun _ => rfl⟩
  | ok prepared =>
    cases prepared with
    | none =>
      obtain ⟨L, plan, hveneers, hlayout, hplan, hmeasured, hroutes⟩ := prepare_none hprepare
      exact ⟨fun _ => ⟨_, noInsertion_preserves hveneers hlayout hplan hmeasured hroutes⟩,
        fun _ => rfl⟩
    | some p =>
      exact ⟨fun _ => ⟨_, (prepare_some hprepare).preserves hnames hstubs⟩,
        fun h => absurd rfl h⟩

def oneCall : AssembledModule where
  functions :=
    [{ symbol := 1, bytes := [0, 0, 0, 0x94], relocations := [{ target := 2, kind := 1 }] }]
  expectedFuncCount := 1
  externImports := [⟨2, 0⟩]
  imageEntryOverride := some 0

/-- Its import's stub lies farther past the text than the call reaches. -/
def farStub : ImportCallStubLayout := ⟨[(2, 2 ^ 28)]⟩

/-- A format that carries calls, literal loads and PC-relative words. -/
def plainFormat : ObjectFormatSchema := ⟨some ⟨4, 0⟩, [1, 2, 3]⟩

def targetWith (bodies : List LinkVeneerBody) : TargetSchema where
  registers := List.replicate 17 .gpr
  opcodes := [{}, { hasResult := true, minOperands := 1, maxOperands := 1 },
    { isTerminator := true, isIndirectBr := true, minOperands := 1, maxOperands := 1 }]
  relocations := [(1, ⟨.aarch64Call26, true, 4, 0⟩), (2, ⟨.aarch64AdrPrelLo21, true, 4, 0⟩),
    (3, ⟨.linear, true, 4, 0⟩)]
  linkVeneers := some ⟨[16], [1], bodies⟩

def literalBody : LinkVeneerBody where
  name := "literal"
  sequence :=
    [{ opcode := 1, resultRegister := some 16, operands := [{ kind := .literal }]
       relocations := [2] },
     { opcode := 2, operands := [{ reg := 16 }] },
     { dataBytes := 4, operands := [{ kind := .target }], relocations := [3] }]

/-- A body that branches without having computed a destination. -/
def targetlessBody : LinkVeneerBody where
  name := "jump"
  sequence := [{ opcode := 2, operands := [{ reg := 16 }] }]

def plainAssembler : Assembler := fun _ insts => some
  { bytes := List.replicate (4 * insts.length) 0
    relocations := if insts.length = 2 then [{ target := kTemplateLiteralV, kind := 2 }] else [] }

theorem injectBranchVeneers_preserves_literal :
    (injectBranchVeneers plainAssembler oneCall (targetWith [literalBody]) plainFormat farStub).1 =
        none ∧
      (injectBranchVeneers plainAssembler oneCall (targetWith [literalBody]) plainFormat
        farStub).2.functions.length = 2 ∧
      ∃ w, Preserves plainAssembler (targetWith [literalBody]) plainFormat
        (collectLayout oneCall (targetWith [literalBody]) farStub) oneCall
        (injectBranchVeneers plainAssembler oneCall (targetWith [literalBody]) plainFormat
          farStub).2 w := by
  have hok : (injectBranchVeneers plainAssembler oneCall (targetWith [literalBody]) plainFormat
      farStub).1 = none := by decide
  refine ⟨hok, by decide, (injectBranchVeneers_preserves _ _ _ _ _ ?_ ?_).1 hok⟩
  · intro _ vocab hvocab body hbody _ _ _
    obtain rfl := Option.some.inj hvocab
    obtain rfl := List.mem_singleton.1 hbody
    decide
  · intro symbol past hpast
    refine ⟨⟨2, 0⟩, by simp [oneCall], ?_⟩
    unfold farStub at hpast
    rw [List.lookup_cons] at hpast
    split at hpast
    · next h => exact (beq_iff_eq.1 h).symm
    · simp at hpast

/-- The rules of the declaration let a body pass that never refers to its target.  The call is
routed through a veneer of it, and nothing in that veneer aims at the import. -/
theorem injectBranchVeneers_targetlessBody :
    (targetWith [targetlessBody]).linkVeneerProblems = [] ∧
      (injectBranchVeneers plainAssembler oneCall (targetWith [targetlessBody]) plainFormat
        farStub).1 = none ∧
      ¬ ∃ w, Preserves plainAssembler (targetWith [targetlessBody]) plainFormat
        (collectLayout oneCall (targetWith [targetlessBody]) farStub) oneCall
        (injectBranchVeneers plainAssembler oneCall (targetWith [targetlessBody]) plainFormat
          farStub).2 w := by
  have hresult : (injectBranchVeneers plainAssembler oneCall (targetWith [targetlessBody])
      plainFormat farStub).2.functions =
      [{ symbol := 1, bytes := [0, 0, 0, 0x94], relocations := [{ target := 3, kind := 1 }] },
       { symbol := 3, bytes := [0, 0, 0, 0] }] := by decide
  refine ⟨by decide, by decide +kernel, ?_⟩
  rintro ⟨w, hw⟩
  have href : (collectLayout oneCall (targetWith [targetlessBody]) farStub).refs[0]? =
      some ⟨0, 0⟩ := by decide
  obtain ⟨rel, rel', hrel, hrel', -, -, -, hdirect, hthrough, -⟩ := hw.branches _ _ href
  have hold : rel.target = 2 := by
    have : relocAt oneCall.functions ⟨0, 0⟩ = some { target := 2, kind := 1 } := by decide
    rw [this] at hrel
    rw [← Option.some.inj hrel]
  have hnew : rel'.target = 3 := by
    rw [hresult] at hrel'
    unfold relocAt at hrel'
    obtain ⟨f, hf, hrf⟩ := Option.bind_eq_some_iff.1 hrel'
    have hmem := List.mem_of_getElem? hf
    simp only [List.mem_cons, List.not_mem_nil, or_false] at hmem
    rcases hmem with rfl | rfl
    · have := List.mem_of_getElem? hrf
      simp only [List.mem_singleton] at this
      rw [this]
    · simp at hrf
  cases hroute : w.plan.siteVeneer.getD 0 none with
  | none =>
    rw [hdirect hroute, hold] at hnew
    exact absurd hnew (by decide)
  | some i =>
    obtain ⟨-, -, vf, hvf, hsymbol, -, haims⟩ := hthrough i hroute
    obtain ⟨r, hr, -⟩ := haims.one
    rw [hresult] at hvf
    have hmem := List.mem_of_getElem? hvf
    simp only [List.mem_cons, List.not_mem_nil, or_false] at hmem
    rcases hmem with rfl | rfl
    · rw [hnew] at hsymbol
      exact absurd hsymbol (by decide)
    · simp at hr

end DssPrime
