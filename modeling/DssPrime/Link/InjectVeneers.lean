import DssPrime.Link.VeneerBodies

/-!
# Inserting branch veneers into a module

The model of `injectBranchVeneers`: the branches of a module are collected into the layout the
planner works on, the plan is measured, and the veneers are inserted between the functions, the
routed branches being re-aimed at them.  The module is passed in and out; every refusal hands back
the module it was given.

Byte counts of vectors are natural numbers.  Of a refusal its cause is kept and its prose is not.
-/

namespace DssPrime

/-- An imported symbol, and the slot of its address. -/
structure ExternImport where
  symbol : ℕ
  addressSlotSymbol : ℕ := 0

/-- A module as the pass gets it. -/
structure AssembledModule where
  functions : List AssembledFunction
  expectedFuncCount : ℕ
  externImports : List ExternImport := []
  dataItems : List ℕ := []
  imageEntryOverride : Option ℕ := none

structure TextSection where
  addrAlign : ℕ
  virtualAddress : ℕ

/-- What the format says of text and relocations. -/
structure ObjectFormatSchema where
  text : Option TextSection
  relocations : List ℕ

structure ImportCallStubLayout where
  maxPastTextEnd : List (ℕ × ℕ)

structure SiteRef where
  function : ℕ
  relocation : ℕ
  deriving DecidableEq

/-- The tables being filled while the branches are collected. -/
structure Collecting where
  targets : List VeneerLayoutTarget := []
  targetSymbol : List ℕ := []
  targetIndex : ℕ × ℤ → Option ℕ := fun _ => none
  reaches : List RelocReach := []
  reachKind : List ℕ := []
  reachIndex : ℕ → Option ℕ := fun _ => none
  sites : List (VeneerLayoutSite × SiteRef) := []

namespace Collecting

def targetOf (c : Collecting) (rel : Relocation) (t : VeneerLayoutTarget) : ℕ × Collecting :=
  match c.targetIndex (rel.target, rel.addend) with
  | some i => (i, c)
  | none =>
    (c.targets.length, { c with
      targets := c.targets ++ [t]
      targetSymbol := c.targetSymbol ++ [rel.target]
      targetIndex := Function.update c.targetIndex (rel.target, rel.addend)
        (some c.targets.length) })

def reachOf (c : Collecting) (kind : ℕ) (reach : RelocReach) : ℕ × Collecting :=
  match c.reachIndex kind with
  | some i => (i, c)
  | none =>
    (c.reaches.length, { c with
      reaches := c.reaches ++ [reach]
      reachKind := c.reachKind ++ [kind]
      reachIndex := Function.update c.reachIndex kind (some c.reaches.length) })

end Collecting

namespace AssembledModule

def fnBySymbol (module : AssembledModule) (symbol : ℕ) : Option ℕ :=
  module.functions.findIdx? fun f => decide (f.symbol = symbol)

end AssembledModule

def branchOf (module : AssembledModule) (target : TargetSchema) (stubs : ImportCallStubLayout)
    (rel : Relocation) : Option (RelocReach × VeneerLayoutTarget) :=
  match target.relocationInfo rel.kind with
  | none => none
  | some row =>
    if (branchRelocGeometry row.formulaKind).fieldBits = 0 then none
    else match relocFieldReach row with
    | none => none
    | some reach =>
      match module.fnBySymbol rel.target with
      | some i => some (reach, { function := i, addend := rel.addend })
      | none => (stubs.maxPastTextEnd.lookup rel.target).map fun past =>
          (reach, { pastTextEnd := past, addend := rel.addend })

def isRoutable (target : TargetSchema) (kind : ℕ) : Bool :=
  target.linkVeneers.any fun vocab => vocab.routableRelocations.contains kind

def collectRelocation (module : AssembledModule) (target : TargetSchema)
    (stubs : ImportCallStubLayout) (fi : ℕ) (c : Collecting) (q : Relocation × ℕ) : Collecting :=
  match branchOf module target stubs q.1 with
  | none => c
  | some (reach, t) =>
    let (ti, c) := c.targetOf q.1 t
    let (ri, c) := c.reachOf q.1.kind reach
    { c with
      sites := c.sites ++ [({ function := fi
                              offset := q.1.offset
                              target := ti
                              reach := ri
                              routable := isRoutable target q.1.kind }, ⟨fi, q.2⟩)] }

/-- Puts the sites of one function in the order of their offsets, unless they already are. -/
def sortSites (l : List (VeneerLayoutSite × SiteRef)) : List (VeneerLayoutSite × SiteRef) :=
  if (l.zip l.tail).all fun p => decide (p.1.1.offset ≤ p.2.1.offset) then l
  else l.mergeSort fun a b => decide (a.1.offset ≤ b.1.offset)

def collectFunction (module : AssembledModule) (target : TargetSchema)
    (stubs : ImportCallStubLayout) (c : Collecting) (q : AssembledFunction × ℕ) : Collecting :=
  let c' := q.1.relocations.zipIdx.foldl (collectRelocation module target stubs q.2)
    { c with sites := [] }
  { c' with sites := c.sites ++ sortSites c'.sites }

def collectTables (module : AssembledModule) (target : TargetSchema)
    (stubs : ImportCallStubLayout) : Collecting :=
  module.functions.zipIdx.foldl (collectFunction module target stubs) {}

/-- The layout with what its numbers stand for. -/
structure CollectedLayout where
  layout : VeneerLayout
  refs : List SiteRef
  targetSymbol : List ℕ
  reachKind : List ℕ

def collectLayout (module : AssembledModule) (target : TargetSchema)
    (stubs : ImportCallStubLayout) : CollectedLayout :=
  let c := collectTables module target stubs
  { layout :=
      { functionSizes := module.functions.map (·.bytes.length)
        sites := c.sites.map (·.1)
        targets := c.targets
        reaches := c.reaches
        bodies := [] }
    refs := c.sites.map (·.2)
    targetSymbol := c.targetSymbol
    reachKind := c.reachKind }

inductive VeneerRefusal where
  | noVocabulary
  /-- The declaration breaks its rules at these paths. -/
  | malformedVocabulary (paths : List String)
  | bodyNotBuilt
  | misalignedBody
  | noUsableBody
  | notPlanned (status : VeneerPlanStatus)
  /-- A field does not reach on the final layout. -/
  | misfit
  | symbolSpaceExhausted
  | dataWordMisaligned

/-- The coarsest unit the collected branches count in. -/
def granuleOf (target : TargetSchema) (reachKind : List ℕ) : ℕ :=
  reachKind.foldl (fun g kind =>
    match target.relocationInfo kind with
    | none => g
    | some row => max g (2 ^ (branchRelocGeometry row.formulaKind).scaleLog2)) 1

def lowestSetBit (v : ℕ) : ℕ := v &&& uint64 (2 ^ 64 - v)

def textStartAlignOf (format : ObjectFormatSchema) : ℕ :=
  match format.text with
  | none => 1
  | some text =>
    let align := max 1 text.addrAlign
    if text.virtualAddress ≠ 0 then min align (lowestSetBit text.virtualAddress) else align

def isUsable (format : ObjectFormatSchema) (tpl : BodyTemplate) : Bool :=
  tpl.kinds.all (fun k => format.relocations.contains k) &&
    !(tpl.dataBytes ≠ 0 && tpl.dataAlign > textStartAlignOf format)

def usableBodies (assemble : Assembler) (target : TargetSchema) (format : ObjectFormatSchema)
    (granule : ℕ) : List LinkVeneerBody → Except VeneerRefusal (List BodyTemplate)
  | [] => .ok []
  | body :: rest =>
    match assembleBody assemble target granule body with
    | none => .error .bodyNotBuilt
    | some tpl =>
      if tpl.size % granule ≠ 0 then .error .misalignedBody
      else do
        let more ← usableBodies assemble target format granule rest
        pure (if isUsable format tpl then tpl :: more else more)

/-- The bodies handed to the planner: up to the first one that spans the whole image. -/
def candidates (bytes sites : ℕ) (largest : ℕ) : List BodyTemplate → List BodyTemplate
  | [] => []
  | tpl :: rest =>
    let largest := max largest tpl.size
    if tpl.reach.symmetricReach ≥ int64 (uint64 (bytes + sites * largest)) then [tpl]
    else tpl :: candidates bytes sites largest rest

def maxPast (targets : List VeneerLayoutTarget) : ℕ :=
  targets.foldl (fun m t => if t.function = kVeneerTargetIsStub then max m t.pastTextEnd else m) 0

def islandCounts (vs : List PlannedVeneer) : ℕ → ℕ :=
  vs.foldl (fun c v => Function.update c (v.boundary + 1) (c (v.boundary + 1) + 1)) fun _ => 0

def firstAt (vs : List PlannedVeneer) : ℕ → ℕ
  | 0 => islandCounts vs 0
  | b + 1 => islandCounts vs (b + 1) + firstAt vs b

def enterVeneer (st : (ℕ → ℕ) × (ℕ → ℕ)) (q : PlannedVeneer × ℕ) : (ℕ → ℕ) × (ℕ → ℕ) :=
  (Function.update st.1 q.1.boundary (st.1 q.1.boundary + 1),
    Function.update st.2 (st.1 q.1.boundary) q.2)

def veneerOrder (vs : List PlannedVeneer) : ℕ → ℕ :=
  (vs.zipIdx.foldl enterVeneer (firstAt vs, fun _ => 0)).2

def islandAt (vs : List PlannedVeneer) (b : ℕ) : List ℕ :=
  (List.range (firstAt vs (b + 1) - firstAt vs b)).map fun j => veneerOrder vs (firstAt vs b + j)

/-- What is known once nothing can be refused any more. -/
structure Prepared where
  layout : VeneerLayout
  bodies : List BodyTemplate
  plan : VeneerPlan
  firstId : ℕ
  /-- Where the data word of a veneer stands in it. -/
  literalAt : ℕ → ℕ

namespace Prepared

def templateOf (p : Prepared) (i : ℕ) : BodyTemplate :=
  p.bodies.getD (p.plan.veneers.getD i default).body default

end Prepared

def placeWord (templateOf : ℕ → BodyTemplate) (st : ℕ × (ℕ → ℕ)) (i : ℕ) :
    Except VeneerRefusal (ℕ × (ℕ → ℕ)) :=
  let tp := templateOf i
  if tp.dataBytes ≠ 0 then
    let c := tp.code.length
    let lit := c + (tp.dataAlign - (st.1 + c) % tp.dataAlign) % tp.dataAlign
    if lit - c > tp.slack then .error .dataWordMisaligned
    else .ok (st.1 + tp.size, Function.update st.2 i lit)
  else .ok (st.1 + tp.size, st.2)

def placeWords (templateOf : ℕ → BodyTemplate) (island : ℕ → List ℕ) (functionSize : ℕ → ℕ) :
    ℕ → Except VeneerRefusal (ℕ × (ℕ → ℕ))
  | 0 => .ok (0, fun _ => 0)
  | b + 1 => do
    let st ← placeWords templateOf island functionSize b
    let st ← (island b).foldlM (placeWord templateOf) st
    pure (st.1 + functionSize b, st.2)

def maxExistingSymbolIdV (module : AssembledModule) : ℕ :=
  let maxV := module.functions.foldl (fun m f => max m f.symbol) 0
  let maxV := module.externImports.foldl
    (fun m ext => max (max m ext.symbol) ext.addressSlotSymbol) maxV
  let maxV := module.dataItems.foldl max maxV
  module.functions.foldl (fun m f => f.blockSymbols.foldl (fun m bs => max m bs.symbol) m) maxV

def prepare (assemble : Assembler) (module : AssembledModule) (target : TargetSchema)
    (format : ObjectFormatSchema) (stubs : ImportCallStubLayout) :
    Except VeneerRefusal (Option Prepared) :=
  let collected := collectLayout module target stubs
  let L := collected.layout
  if L.findVeneerPlanMisfit { siteVeneer := List.replicate L.sites.length none } = none then
    .ok none
  else match target.linkVeneers with
  | none => .error .noVocabulary
  | some vocab =>
    if target.linkVeneerProblems ≠ [] then .error (.malformedVocabulary target.linkVeneerProblems)
    else do
      let usable ← usableBodies assemble target format (granuleOf target collected.reachKind)
        vocab.bodies
      let bodies := candidates (L.functionSizes.sum + maxPast L.targets) L.sites.length 0 usable
      let L := { L with bodies := bodies.map fun tp => ⟨tp.size, tp.reach⟩ }
      let plan := L.planBranchVeneers
      let p : Prepared := ⟨L, bodies, plan, maxExistingSymbolIdV module + 1, fun _ => 0⟩
      if usable = [] then .error .noUsableBody
      else if plan.status ≠ .ok then .error (.notPlanned plan.status)
      else if L.findVeneerPlanMisfit plan ≠ none then .error .misfit
      else if plan.veneers = [] then pure none
      else if maxExistingSymbolIdV module + plan.veneers.length > 2 ^ 32 - 1 then
        .error .symbolSpaceExhausted
      else do
        let st ← placeWords p.templateOf (islandAt plan.veneers)
          (fun b => (module.functions.getD b default).bytes.length) module.functions.length
        let st ← (islandAt plan.veneers module.functions.length).foldlM (placeWord p.templateOf) st
        pure (some { p with literalAt := st.2 })

def modifyRelocation (fs : List AssembledFunction) (ref : SiteRef) (f : Relocation → Relocation) :
    List AssembledFunction :=
  fs.modify ref.function fun fn =>
    { fn with relocations := fn.relocations.modify ref.relocation f }

def retarget (fs : List AssembledFunction) (refs : List SiteRef) (siteVeneer : List (Option ℕ))
    (firstId : ℕ) : List AssembledFunction :=
  refs.zipIdx.foldl (fun fs q =>
    match siteVeneer.getD q.2 none with
    | none => fs
    | some v => modifyRelocation fs q.1 fun rel => { rel with target := firstId + v, addend := 0 })
    fs

/-- Builds veneer `i`, which stands in for `aim` plus `aimPlus`. -/
def makeVeneer (p : Prepared) (targetSymbol : List ℕ) (i : ℕ) : AssembledFunction :=
  let pv := p.plan.veneers.getD i default
  let tp := p.templateOf i
  let self := p.firstId + i
  let aim := targetSymbol.getD pv.target 0
  let aimPlus := (p.layout.target pv.target).addend
  { symbol := self
    bytes := (tp.code ++ List.replicate (tp.size - tp.code.length) 0).take tp.size
    relocations :=
      (tp.relocations.map fun r =>
        if r.target = kTemplateTargetV then { r with target := aim, addend := aimPlus }
        else { r with target := self, addend := p.literalAt i }) ++
      if tp.dataBytes ≠ 0 then
        [{ offset := p.literalAt i, target := aim, kind := tp.dataRelocation, addend := aimPlus }]
      else [] }

def mergeUpTo (fs : List AssembledFunction) (island : ℕ → List AssembledFunction)
    (entry : Option ℕ) : ℕ → List AssembledFunction × Option ℕ
  | 0 => ([], none)
  | b + 1 =>
    let (merged, newEntry) := mergeUpTo fs island entry b
    let merged := merged ++ island b
    match fs[b]? with
    | none => (merged, newEntry)
    | some f => (merged ++ [f], if entry = some b then some merged.length else newEntry)

def insertVeneers (module : AssembledModule) (collected : CollectedLayout) (p : Prepared) :
    AssembledModule :=
  let fs := retarget module.functions collected.refs p.plan.siteVeneer p.firstId
  let island := fun b => (islandAt p.plan.veneers b).map (makeVeneer p collected.targetSymbol)
  let (merged, newEntry) := mergeUpTo fs island module.imageEntryOverride fs.length
  { module with
    functions := merged ++ island fs.length
    expectedFuncCount := module.expectedFuncCount + p.plan.veneers.length
    imageEntryOverride := newEntry.orElse fun _ => module.imageEntryOverride }

/-- Carries every out-of-reach branch of a module through a veneer.  The first component says why
not; without one the source returns true. -/
def injectBranchVeneers (assemble : Assembler) (module : AssembledModule) (target : TargetSchema)
    (format : ObjectFormatSchema) (stubs : ImportCallStubLayout) :
    Option VeneerRefusal × AssembledModule :=
  match prepare assemble module target format stubs with
  | .error refusal => (some refusal, module)
  | .ok none => (none, module)
  | .ok (some p) => (none, insertVeneers module (collectLayout module target stubs) p)

end DssPrime
