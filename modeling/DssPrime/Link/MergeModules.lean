import DssPrime.Link.CrossCuResolve
import DssPrime.Link.VeneerBodies
import DssPrime.Mir.LazyImport
import DssPrime.Run.Naming

/-!
# Merging assembled modules

`resolveCrossCuSymbols` and `mergeModules` of `linker.cpp`: the assembled modules of a link become
one, in one space of symbol numbers.

The numbers are kept in a table that is filled on demand (`mergedIdFor`), so the model threads it
through the merge. Of a diagnostic its cause is kept and its prose is not.
-/

namespace DssPrime.Linker

structure ModuleSymbol where
  symbol : ℕ
  name : String
  binding : SymbolBinding := .global
  visibility : SymbolVisibility := .default
  duplicateMatch : DuplicateMatch := .any

/-- The place of a member in an input section that is kept or dropped whole. -/
structure InputSectionSlice where
  sectionKey : ℕ
  offset : ℕ

structure AssembledFunction extends DssPrime.AssembledFunction where
  inputSection : Option InputSectionSlice := none

structure AssembledData where
  symbol : ℕ := 0
  zeroFill : Bool := false
  bytes : List UInt8 := []
  relocations : List Relocation := []
  reservedSize : ℕ := 0
  inputSection : Option InputSectionSlice := none

def AssembledData.sizeInSection (d : AssembledData) : ℕ :=
  if d.zeroFill then d.reservedSize else d.bytes.length

/-- Whether an import states that it is an object or a function. -/
inductive ExternKindOrigin where
  | stated | pending | fromLibrary
  deriving DecidableEq

structure ExternImport extends Mirsum.ExternImport where
  kindOrigin : ExternKindOrigin := .stated
  deriving Inhabited

/-- When a function runs before or after the entry point; the numbers are priorities. -/
structure StaticInitSchedule where
  beforeEntry : Option ℕ := none
  afterEntry : Option ℕ := none

def StaticInitSchedule.any (s : StaticInitSchedule) : Bool :=
  s.beforeEntry.isSome || s.afterEntry.isSome

structure LirStaticInitEntry where
  symbol : ℕ
  schedule : StaticInitSchedule

structure AssembledModule where
  cuId : ℕ := 0
  functions : List AssembledFunction := []
  dataItems : List AssembledData := []
  externImports : List ExternImport := []
  symbols : List ModuleSymbol := []
  userEntrySymbol : Option ℕ := none
  staticInitSchedule : List LirStaticInitEntry := []
  deriving Inhabited

def AssembledModule.declared (m : AssembledModule) : List ℕ :=
  m.functions.map (·.symbol) ++ m.functions.flatMap (fun fn => fn.blockSymbols.map (·.symbol)) ++
  m.dataItems.map (·.symbol) ++
  m.externImports.flatMap fun ext =>
    ext.symbol :: if ext.addressSlotSymbol ≠ 0 then [ext.addressSlotSymbol] else []

inductive LinkError where
  | redefined (c : CrossCuConflict)
  | mismatch (c : CrossCuDuplicateMismatch)
  | undefinedTarget (cuId target : ℕ)
  | absolutePointerRelocMissing
  | brokenReference (reference : LinkedSymbolKey)
  | divergingNames (key : LinkedSymbolKey) (names : List String)
  | attributeConflict (mangledName : String)
  /-- An import, or its slot, already has another number. -/
  | importRemapped (key : LinkedSymbolKey)
  | secondEntry

structure LinkedImage where
  resolvedGlobalDefs : List (String × LinkedSymbolKey)
  resolvedCrossCuRefs : List (LinkedSymbolKey × LinkedSymbolKey)

def bodyOfSymbol (m : AssembledModule) (symbol : ℕ) : ℕ × List UInt8 :=
  match m.functions.find? (·.symbol = symbol) with
  | some fn => (fn.bytes.length, fn.bytes)
  | none =>
    match m.dataItems.find? (·.symbol = symbol) with
    | some d => (d.sizeInSection, d.bytes)
    | none => (0, [])

/-- The definitions of a link, one for each name of each; a row that repeats another is left out. -/
def crossCuDefs (modules : List AssembledModule) : List CrossCuDef :=
  let rows := modules.flatMap fun m => m.symbols.map fun s => (m, s)
  (rows.reverse.pwFilter fun a b =>
      ¬ (a.1.cuId = b.1.cuId ∧ a.2.symbol = b.2.symbol ∧ a.2.name = b.2.name)).reverse.map fun p =>
    let body := bodyOfSymbol p.1 p.2.symbol
    ⟨p.2.name, p.2.binding, ⟨p.1.cuId, p.2.symbol⟩, p.2.duplicateMatch, body.1, body.2⟩

/-- The winners by name and the imports that they satisfy. -/
def resolveCrossCuSymbols (modules : List AssembledModule) : LinkedImage × List LinkError :=
  let defs := crossCuDefs modules
  let resolution := resolveCrossCuDefs defs
  let refs := modules.flatMap fun m => m.externImports.filterMap fun ext =>
    if ext.isPreemptionReference then none
    else (resolution.winners ext.mangledName).map fun key => (⟨m.cuId, ext.symbol⟩, key)
  let names := (defs.map CrossCuDef.name).dedup
  let undefined := modules.flatMap fun m =>
    ((m.functions.flatMap fun fn => fn.relocations) ++
        m.dataItems.flatMap AssembledData.relocations).filterMap fun rel =>
      if rel.target ∈ m.declared then none
      else some (LinkError.undefinedTarget m.cuId rel.target)
  (⟨names.filterMap fun n => (resolution.winners n).map fun key => (n, key), refs⟩,
    resolution.conflicts.map .redefined ++ resolution.duplicateMismatches.map .mismatch ++
      undefined)

/-- The numbers given so far. -/
structure MergeState where
  names : Names LinkedSymbolKey
  nextId : ℕ
  errors : List LinkError

abbrev MergeM := StateM MergeState

def report (e : LinkError) : MergeM Unit := modify fun st => { st with errors := st.errors ++ [e] }

/-- Give every winning definition a number, one for each key however many names it won, and list the
number of each name. -/
def assignWinners (defs : List (String × LinkedSymbolKey)) : MergeState × List (String × ℕ) :=
  defs.foldl (fun acc d =>
    match acc.1.names.table d.2 with
    | some id => (acc.1, acc.2 ++ [(d.1, id)])
    | none =>
      ({ acc.1 with names := acc.1.names.give d.2 acc.1.nextId, nextId := acc.1.nextId + 1 },
        acc.2 ++ [(d.1, acc.1.nextId)])) (⟨.empty, 1, []⟩, [])

section

variable (modules : List AssembledModule) (nameToId : List (String × ℕ))

def moduleAt (i : ℕ) : AssembledModule := modules.getD i default

def keyAt (i : ℕ) (symbol : ℕ) : LinkedSymbolKey := ⟨(moduleAt modules i).cuId, symbol⟩

def foldTargets (m : AssembledModule) (old : ℕ) : List (String × ℕ) :=
  (m.symbols.filter fun ms => ms.symbol = old ∧ ms.binding ≠ .«local»).filterMap fun ms =>
    (nameToId.lookup ms.name).map fun id => (ms.name, id)

/-- The number of a symbol in the merged module.  A definition that lost its name has the number of
the winner; what has no number yet gets a new one. -/
def mergedIdFor (i : ℕ) (old : ℕ) : MergeM ℕ := do
  let st ← get
  let key := keyAt modules i old
  match st.names.table key with
  | some id => return id
  | none =>
    match foldTargets nameToId (moduleAt modules i) old with
    | [] =>
      set { st with names := st.names.give key st.nextId, nextId := st.nextId + 1 }
      return st.nextId
    | (name, id) :: rest =>
      let diverging := (rest.filter fun p => p.2 ≠ id).map Prod.fst
      if diverging ≠ [] then report (.divergingNames key (name :: diverging))
      modify fun st => { st with names := st.names.fold key id }
      return id

def freshId : MergeM ℕ := do
  let st ← get
  set { st with names := st.names.giveLoose st.nextId, nextId := st.nextId + 1 }
  return st.nextId

def retargetRelocs (i : ℕ) (relocs : List Relocation) : MergeM (List Relocation) :=
  relocs.mapM fun rel => do
    let id ← mergedIdFor modules nameToId i rel.target
    return { rel with target := id }

def referenceReadsThroughSlot (key : LinkedSymbolKey) : Option Bool :=
  (modules.flatMap fun m => m.externImports.map fun e =>
    ((⟨m.cuId, e.symbol⟩ : LinkedSymbolKey), e.readThroughSlot)).lookup key

structure Bound where
  slots : List AssembledData := []
  codeSlotByReference : List (LinkedSymbolKey × ℕ) := []
  strippedExterns : List LinkedSymbolKey := []

def bindReference (absPtrKind : ℕ) (b : Bound) (ref : LinkedSymbolKey × LinkedSymbolKey) :
    MergeM Bound := do
  match modules.findIdx? (·.cuId = ref.2.cuId) with
  | none =>
    report (.brokenReference ref.1)
    return b
  | some dit =>
    let defId ← mergedIdFor modules nameToId dit ref.2.symbol
    match referenceReadsThroughSlot modules ref.1 with
    | none =>
      report (.brokenReference ref.1)
      return b
    | some true =>
      let slotId ← freshId
      modify fun st => { st with names := st.names.fold ref.1 defId }
      return {
        slots := b.slots ++ [{
          symbol := slotId
          bytes := List.replicate 8 0
          relocations := [{ offset := 0, target := defId, kind := absPtrKind, addend := 0 }] }]
        codeSlotByReference := (ref.1, slotId) :: b.codeSlotByReference
        strippedExterns := ref.1 :: b.strippedExterns }
    | some false =>
      modify fun st => { st with names := st.names.fold ref.1 defId }
      return { b with strippedExterns := ref.1 :: b.strippedExterns }

/-- Aim the relocations of a function: a reference that its code reads through a slot goes to the
slot. -/
def retargetCodeRelocs (b : Bound) (i : ℕ) (relocs : List Relocation) :
    MergeM (List Relocation) :=
  relocs.mapM fun rel =>
    match b.codeSlotByReference.lookup (keyAt modules i rel.target) with
    | some slotId => return { rel with target := slotId }
    | none => do
      let id ← mergedIdFor modules nameToId i rel.target
      return { rel with target := id }

end

def ExternImport.sameImport (e e' : ExternImport) : Bool :=
  e.mangledName = e'.mangledName && e.libraryPath = e'.libraryPath && e.version = e'.version

def strongerReferenceBinding (a b : SymbolBinding) : SymbolBinding :=
  if a = .global ∨ b = .global then .global else .weak

def foldNonZero (mangledName : String) (kept incoming : UInt64) : UInt64 × List LinkError :=
  if incoming = 0 ∨ kept = incoming then (kept, [])
  else if kept = 0 then (incoming, [])
  else (kept, [.attributeConflict mangledName])

def foldImport (kept ext : ExternImport) : ExternImport × List LinkError :=
  let kind : Bool × ExternKindOrigin × List LinkError :=
    if kept.kindOrigin = .pending ∧ ext.kindOrigin ≠ .pending then
      (ext.isData, ext.kindOrigin, [])
    else if kept.kindOrigin ≠ .pending ∧ ext.kindOrigin ≠ .pending ∧ kept.isData ≠ ext.isData then
      (kept.isData, kept.kindOrigin, [.attributeConflict ext.mangledName])
    else (kept.isData, kept.kindOrigin, [])
  let size := foldNonZero ext.mangledName kept.dataSizeBytes ext.dataSizeBytes
  let align := foldNonZero ext.mangledName kept.dataAlignBytes ext.dataAlignBytes
  ({ kept with
      isEagerImport := kept.isEagerImport || ext.isEagerImport
      binding := strongerReferenceBinding kept.binding ext.binding
      isData := kind.1
      kindOrigin := kind.2.1
      dataSizeBytes := size.1
      dataAlignBytes := align.1
      isPreemptionReference := kept.isPreemptionReference || ext.isPreemptionReference },
    kind.2.2 ++
      (if kept.isThreadLocal ≠ ext.isThreadLocal then [.attributeConflict ext.mangledName]
       else []) ++ size.2 ++ align.2)

/-- Give a key the number of another, unless it has one; another one is reported. -/
def emplaceId (key : LinkedSymbolKey) (id : ℕ) : MergeM Unit := do
  let st ← get
  match st.names.table key with
  | none => set { st with names := st.names.fold key id }
  | some old => if old ≠ id then report (.importRemapped key)

section

variable (modules : List AssembledModule) (nameToId : List (String × ℕ))

/-- The slot of the kept row after a row with a slot: the first one stays, and the others are folded
onto it. -/
def foldSlot (i : ℕ) (kept slot : ℕ) : MergeM ℕ := do
  if slot = 0 then return kept
  if kept = 0 then mergedIdFor modules nameToId i slot
  else do
    emplaceId (keyAt modules i slot) kept
    return kept

/-- One import row: the first of its dynamic symbol is kept under a new number, and the others are
folded into it. -/
def mergeImport (b : Bound) (i : ℕ) (rows : List ExternImport) (ext : ExternImport) :
    MergeM (List ExternImport) := do
  let key := keyAt modules i ext.symbol
  if key ∈ b.strippedExterns then return rows
  match rows.findIdx? (·.sameImport ext) with
  | none =>
    let id ← mergedIdFor modules nameToId i ext.symbol
    let slot ← foldSlot modules nameToId i 0 ext.addressSlotSymbol
    return rows ++ [{ ext with symbol := id, addressSlotSymbol := slot }]
  | some k =>
    let kept := rows.getD k default
    emplaceId key kept.symbol
    let folded := foldImport kept ext
    modify fun st => { st with errors := st.errors ++ folded.2 }
    let slot ← foldSlot modules nameToId i kept.addressSlotSymbol ext.addressSlotSymbol
    return rows.set k { folded.1 with addressSlotSymbol := slot }

def mergeImports (b : Bound) : MergeM (List ExternImport) :=
  (List.range modules.length).foldlM (fun rows i =>
    (moduleAt modules i).externImports.foldlM (mergeImport modules nameToId b i) rows) []

variable (winningKeys : List LinkedSymbolKey)

/-- The bytes of a definition are dropped: it won no name, and one of its names was won
elsewhere. -/
def isShadowedAtom (i : ℕ) (symbol : ℕ) : Bool :=
  keyAt modules i symbol ∉ winningKeys &&
    (moduleAt modules i).symbols.any fun ms =>
      decide (ms.symbol = symbol ∧ ms.binding ≠ .«local») && (nameToId.lookup ms.name).isSome

def isShadowedName (defs : List (String × LinkedSymbolKey)) (i : ℕ) (ms : ModuleSymbol) : Bool :=
  if ms.binding = .«local» then false
  else if ms.name = "" then false
  else
    match defs.lookup ms.name with
    | none => false
    | some key => key ≠ keyAt modules i ms.symbol

def remapUnit (units : List (ℕ × ℕ)) (i : ℕ) (slice : Option InputSectionSlice) :
    Option InputSectionSlice × List (ℕ × ℕ) :=
  match slice with
  | none => (none, units)
  | some s =>
    match units.findIdx? (· = (i, s.sectionKey)) with
    | some k => (some { s with sectionKey := k }, units)
    | none => (some { s with sectionKey := units.length }, units ++ [(i, s.sectionKey)])

/-- The module built so far, with the input sections met. -/
structure Emitted where
  functions : List AssembledFunction := []
  dataItems : List AssembledData := []
  symbols : List ModuleSymbol := []
  units : List (ℕ × ℕ) := []

def emittedId (i : ℕ) (symbol : ℕ) : MergeM ℕ :=
  if isShadowedAtom modules nameToId winningKeys i symbol then freshId
  else mergedIdFor modules nameToId i symbol

/-- Emit a function.  One that lost its name is dropped, unless it lies in an input section: then it
stays there under a number that nothing aims at. -/
def emitFunction (b : Bound) (i : ℕ) (out : Emitted) (fn : AssembledFunction) :
    MergeM Emitted := do
  let shadowed := isShadowedAtom modules nameToId winningKeys i fn.symbol
  if shadowed ∧ fn.inputSection = none then return out
  let symbol ← emittedId modules nameToId winningKeys i fn.symbol
  let unit := remapUnit out.units i fn.inputSection
  let blockSymbols ← fn.blockSymbols.mapM fun bs => do
    let id ← mergedIdFor modules nameToId i bs.symbol
    return { bs with symbol := id }
  let relocations ← retargetCodeRelocs modules nameToId b i fn.relocations
  return { out with
    functions := out.functions ++ [{ fn with
      symbol := symbol, inputSection := unit.1, blockSymbols := blockSymbols
      relocations := relocations }]
    units := unit.2 }

def emitData (i : ℕ) (out : Emitted) (di : AssembledData) : MergeM Emitted := do
  let shadowed := isShadowedAtom modules nameToId winningKeys i di.symbol
  if shadowed ∧ di.inputSection = none then return out
  let symbol ← emittedId modules nameToId winningKeys i di.symbol
  let unit := remapUnit out.units i di.inputSection
  let relocations ← retargetRelocs modules nameToId i di.relocations
  return { out with
    dataItems := out.dataItems ++ [{ di with
      symbol := symbol, inputSection := unit.1, relocations := relocations }]
    units := unit.2 }

def emitSymbol (defs : List (String × LinkedSymbolKey)) (i : ℕ) (out : Emitted)
    (ms : ModuleSymbol) : MergeM Emitted := do
  if ms.name = "" then return out
  if isShadowedAtom modules nameToId winningKeys i ms.symbol then return out
  if isShadowedName modules defs i ms then return out
  let id ← mergedIdFor modules nameToId i ms.symbol
  if out.symbols.any fun row => row.symbol = id ∧ row.name = ms.name then return out
  return { out with symbols := out.symbols ++ [⟨id, ms.name, ms.binding, ms.visibility, .any⟩] }

def emitModule (defs : List (String × LinkedSymbolKey)) (b : Bound) (out : Emitted) (i : ℕ) :
    MergeM Emitted := do
  let m := moduleAt modules i
  let out ← m.functions.foldlM (emitFunction modules nameToId winningKeys b i) out
  let out ← m.dataItems.foldlM (emitData modules nameToId winningKeys i) out
  m.symbols.foldlM (emitSymbol modules nameToId winningKeys defs i) out

/-- The members of an input section stand together, where the first of them stood, in the order of
their offsets. -/
def orderUnits (functions : List AssembledFunction) : List AssembledFunction :=
  let keyOf (p : AssembledFunction × ℕ) : ℕ × ℕ :=
    match p.1.inputSection with
    | none => (p.2, 0)
    | some slice =>
      (functions.findIdx fun fn => fn.inputSection.any (·.sectionKey = slice.sectionKey),
        slice.offset)
  (functions.zipIdx.insertionSort fun a b =>
    (keyOf a).1 < (keyOf b).1 ∨ (keyOf a).1 = (keyOf b).1 ∧ (keyOf a).2 ≤ (keyOf b).2).map Prod.fst

/-- The entry point: the first unit that names one. -/
def mergeEntry : MergeM (Option ℕ) :=
  (List.range modules.length).foldlM (fun entry i =>
    match (moduleAt modules i).userEntrySymbol, entry with
    | none, _ => return entry
    | some _, some id => do
      report .secondEntry
      return some id
    | some symbol, none => some <$> mergedIdFor modules nameToId i symbol) none

def mergeSchedule : MergeM (List LirStaticInitEntry) :=
  (List.range modules.length).foldlM (fun schedule i =>
    (moduleAt modules i).staticInitSchedule.foldlM (fun schedule e => do
      let id ← mergedIdFor modules nameToId i e.symbol
      return schedule ++ [⟨id, e.schedule⟩]) schedule) []

end

def mergeRest (modules : List AssembledModule) (image : LinkedImage)
    (nameToId : List (String × ℕ)) (absPtrKind : ℕ) : MergeM AssembledModule := do
  let winningKeys := image.resolvedGlobalDefs.map Prod.snd
  let b ← image.resolvedCrossCuRefs.foldlM (bindReference modules nameToId absPtrKind) {}
  let externs ← mergeImports modules nameToId b
  let out ← (List.range modules.length).foldlM
    (emitModule modules nameToId winningKeys image.resolvedGlobalDefs b) {}
  let entry ← mergeEntry modules nameToId
  let schedule ← mergeSchedule modules nameToId
  return {
    functions := orderUnits out.functions
    dataItems := b.slots ++ out.dataItems
    externImports := externs
    symbols := out.symbols
    userEntrySymbol := entry
    staticInitSchedule := schedule }

/-- Merge the modules of a link into one.  `absPtrKind` is the pointer relocation of the target; a
link that needs slots and has none is given up. -/
def mergeModules (modules : List AssembledModule) (image : LinkedImage) (absPtrKind : Option ℕ) :
    AssembledModule × MergeState :=
  let winners := assignWinners image.resolvedGlobalDefs
  let needsSlot := image.resolvedCrossCuRefs.any fun ref =>
    (referenceReadsThroughSlot modules ref.1).getD false
  if needsSlot ∧ absPtrKind = none then
    ({}, { winners.1 with errors := [.absolutePointerRelocMissing] })
  else (mergeRest modules image winners.2 (absPtrKind.getD 0)).run winners.1

end DssPrime.Linker
