import DssPrime.Mir.Basic
import DssPrime.Run.Chunked

/-!
# Importing bodies on demand

`lazyImportOptimize` of `lazy_import_optimize.cpp`: before a module is optimised, the small
functions that it calls in other modules are cloned into it, so that the inliner can reach them.

Bodies, names and rows travel through the cloner `mergeCuMirs` and the optimiser callback. Both are
parameters here: whatever they do, they are functions of what they are given. A callback may keep a
state of its own, and each of the two may abort.
-/

namespace DssPrime.Mirsum

structure SummaryCallSite where
  calleeName : String
  direct : Bool

structure SummaryFunction where
  name : String
  symbol : ℕ
  binding : SymbolBinding
  instCount : UInt32
  noInline : Bool
  alwaysInline : Bool
  noOptimize : Bool
  /-- It takes the address of a label and jumps there. -/
  hasComputedGoto : Bool
  hasSeh : Bool
  frameBound : Bool
  hasReturn : Bool
  calls : List SummaryCallSite
  deriving Inhabited

structure SummaryImport where
  mangledName : String
  libraryPath : String
  version : String
  isData : Bool
  isThreadLocal : Bool

structure ModuleSummary where
  functions : List SummaryFunction
  imports : List SummaryImport
  deriving Inhabited

/-- The limits of the import. -/
structure SummaryIndexPolicy where
  inlineThreshold : UInt32
  maxImportDepth : UInt32
  perModuleImportInstBudget : UInt32

structure DefiningSite where
  moduleIndex : ℕ
  functionIndex : ℕ
  isFunction : Bool
  deriving DecidableEq

/-- What the import asks of the index of the whole program. -/
structure SummaryIndex where
  winners : List (String × DefiningSite)
  escapedSymbols : List String

def SummaryIndex.definitionOf (index : SummaryIndex) (name : String) : Option DefiningSite :=
  index.winners.lookup name

def isInlineCandidate (f : SummaryFunction) (policy : SummaryIndexPolicy)
    (escaped : List String) : Bool :=
  if f.name = "" then false
  else if f.binding = .weak then false
  else if f.noInline then false
  else if f.noOptimize then false
  else if f.hasComputedGoto then false
  else if f.hasSeh then false
  else if f.frameBound then false
  else if !f.hasReturn then false
  else if f.name ∈ escaped then false
  else if f.instCount > policy.inlineThreshold && !f.alwaysInline then false
  else true

structure ExternImport where
  symbol : ℕ
  mangledName : String
  libraryPath : String := ""
  isData : Bool := false
  isThreadLocal : Bool := false
  dataSizeBytes : UInt64 := 0
  dataAlignBytes : UInt64 := 0
  version : String := ""
  isEagerImport : Bool := false
  binding : SymbolBinding := .global
  isPreemptionReference : Bool := false
  addressSlotSymbol : ℕ := 0
  readThroughSlot : Bool := false
  deriving Inhabited

/-- A module as the import sees it; each of its parts may be missing. -/
structure LazyImportCu where
  mir : Option Mir
  interner : Option TypeInterner
  symbolNames : Option (List String)
  externImports : List ExternImport
  synthRecipes : Option (List (ℕ × String))

def nameOfSymbol (table : List String) (s : ℕ) : String := table.getD s ""

def sortUnique (v : List String) : List String := v.dedup.insertionSort (· ≤ ·)

theorem mem_sortUnique {v : List String} {n : String} : n ∈ sortUnique v ↔ n ∈ v := by
  unfold sortUnique
  rw [(List.perm_insertionSort _ _).mem_iff, List.mem_dedup]

def literalSymbols : MirLiteralValue → List ℕ
  | .symbolAddr _ symbol _ => [symbol]
  | .aggregate _ fields => fields.flatMap literalSymbols
  | _ => []

structure BodyReferences where
  names : List String
  sawUnnamed : Bool

/-- The symbols that an instruction refers to.  A block address that is exported is a point of the
function's own code. -/
def instSymbols (mir : Mir) (inst : ℕ) : List ℕ :=
  match mir.instOpcode inst with
  | .globalAddr => [mir.instPayload inst]
  | .const => literalSymbols (mir.literals.getD (mir.instPayload inst) default)
  | _ => []

def collectBodyReferences (mir : Mir) (fn : ℕ) (symbolNames : List String) : BodyReferences :=
  let named := ((mir.funcBlocks fn).flatMap fun b =>
    (mir.blockInsts b).flatMap (instSymbols mir)).map (nameOfSymbol symbolNames)
  ⟨sortUnique (named.filter (· ≠ "")), named.any (· = "")⟩

def outboundCallees (mir : Mir) (symbolNames : List String) : List String :=
  let defined := mir.moduleFuncs.map fun f => nameOfSymbol symbolNames (mir.func f).symbol
  let callees := mir.moduleFuncs.flatMap fun f => (mir.funcBlocks f).flatMap fun b =>
    (mir.blockInsts b).filterMap fun inst =>
      if mir.instOpcode inst ≠ .call then none
      else
        match mir.instOperands inst with
        | [] => none
        | callee :: _ =>
          if mir.instOpcode callee ≠ .globalAddr then none
          else some (nameOfSymbol symbolNames (mir.instPayload callee))
  sortUnique (callees.filter fun n => n ≠ "" ∧ n ∉ defined)

inductive Stop where
  | aborted
  /-- The budget of the closure loop is spent. -/
  | outOfFuel
  deriving DecidableEq

/-- Whether the body of a callee may be cloned into a module: it is the winning definition of its
name, in another module, small enough to inline, and all that it refers to can be named from
outside.  A summary that does not describe its module aborts. -/
def isImportable (importer : ℕ) (calleeName : String) (cus : List LazyImportCu)
    (summaries : List ModuleSummary) (index : SummaryIndex) (policy : SummaryIndexPolicy) :
    Except Stop Bool :=
  match index.definitionOf calleeName with
  | none => .ok false
  | some site =>
    if !site.isFunction then .ok false
    else if site.moduleIndex = importer then .ok false
    else
      match summaries[site.moduleIndex]? with
      | none => .ok false
      | some srcSummary =>
        match srcSummary.functions[site.functionIndex]? with
        | none => .ok false
        | some callee =>
          if !isInlineCandidate callee policy index.escapedSymbols then .ok false
          else
            match cus[site.moduleIndex]? with
            | none => .ok false
            | some src =>
              match src.mir, src.symbolNames with
              | some mir, some symbolNames =>
                if mir.moduleFuncCount ≤ site.functionIndex then .ok false
                else
                  let f := mir.funcAt site.functionIndex
                  if nameOfSymbol symbolNames (mir.func f).symbol ≠ calleeName then .error .aborted
                  else
                    let refs := collectBodyReferences mir f symbolNames
                    if refs.sawUnnamed then .ok false
                    else .ok (refs.names.all fun r =>
                      (index.definitionOf r).isSome ||
                        srcSummary.imports.any fun e => e.mangledName = r)
              | _, _ => .ok false

/-- What a fetch has to clone: for each module, in order, the names to take from it. -/
structure ImportBatch where
  byModule : List (ℕ × List String)
  total : UInt32

/-- The state of the closure. -/
structure Closure where
  frontier : List String
  taken : List String
  spent : UInt32
  picked : List (ℕ × List String)
  total : UInt32

def pushPicked (picked : List (ℕ × List String)) (m : ℕ) (name : String) :
    List (ℕ × List String) :=
  if picked.any (·.1 = m) then
    picked.map fun p => if p.1 = m then (m, p.2 ++ [name]) else p
  else picked ++ [(m, [name])]

def directCallees (f : SummaryFunction) : List String :=
  (f.calls.filter fun c => c.direct ∧ c.calleeName ≠ "").map SummaryCallSite.calleeName

section

variable (importer : ℕ) (cus : List LazyImportCu) (summaries : List ModuleSummary)
  (index : SummaryIndex) (policy : SummaryIndexPolicy)

def calleeOf (site : DefiningSite) : SummaryFunction :=
  (summaries.getD site.moduleIndex default).functions.getD site.functionIndex default

/-- One name of a level: it is taken when it is new, importable and within the budget, and what it
calls is added to the next level.  The next level is kept in `frontier`. -/
def takeName (st : Closure) (name : String) : Except Stop Closure :=
  if name ∈ st.taken then .ok st
  else do
    if !(← isImportable importer name cus summaries index policy) then return st
    match index.definitionOf name with
    | none => return st
    | some site =>
      let callee := calleeOf summaries site
      if policy.perModuleImportInstBudget ≠ 0 ∧
          st.spent + callee.instCount > policy.perModuleImportInstBudget then
        return st
      return {
        frontier := st.frontier ++ directCallees callee
        taken := st.taken ++ [name]
        spent := st.spent + callee.instCount
        picked := pushPicked st.picked site.moduleIndex name
        total := st.total + 1 }

def takeLevel (st : Closure) : Except Stop Closure :=
  (sortUnique st.frontier).foldlM (takeName importer cus summaries index policy)
    { st with frontier := [] }

/-- The names of each module in order, by module. -/
def batchOf (st : Closure) : ImportBatch :=
  ⟨(st.picked.map fun p => (p.1, sortUnique p.2)).insertionSort fun a b => a.1 ≤ b.1, st.total⟩

/-- The closure of a frontier, `levels` levels to a fetch batch.  Every level but the last takes a
name that has a winning definition and was not taken before. -/
def takeClosure (frontier : List String) (levels : ℕ) (taken : List String) (spent : UInt32)
    (batches : ℕ) : Except Stop (Closure × ℕ) :=
  Chunked.chunked (fun st : Closure => !st.frontier.isEmpty)
    (takeLevel importer cus summaries index policy) .outOfFuel levels
    (index.winners.length + 1) ⟨frontier, taken, spent, [], 0⟩ batches

end

inductive DiagnosticSeverity where
  | error | warning | note

inductive DiagnosticCode where
  | crossCuMergeUnsupported
  | optFixpointTruncated
  | other (code : ℕ)

structure ParseDiagnostic where
  code : DiagnosticCode
  severity : DiagnosticSeverity
  actual : String

/-- A module handed to the cloner.  With `importOnly` it is a source of bodies and contributes the
functions of these names only. -/
structure MergeCuInput where
  mir : Mir
  interner : TypeInterner
  nameOf : ℕ → String
  externImports : List ExternImport
  synthRecipes : Option (List (ℕ × String))
  importOnly : Option (List String)

structure MergedMirModule (Lattice : Type) where
  mir : Mir
  host : Lattice
  symbolNames : List (ℕ × String)
  externImports : List ExternImport

/-- What the import calls: the type lattices, the cloner, and the optimiser with its own state.
A call that does not return is `none`. -/
structure Tools (Lattice Callback : Type) where
  owner : TypeInterner → ℕ
  freshLattice : ℕ → String → Lattice
  interner : Lattice → TypeInterner
  /-- Clone modules into one; the second result is the diagnostics with those it reported. -/
  mergeCuMirs : List MergeCuInput → Lattice → List ParseDiagnostic →
    Option (Option (MergedMirModule Lattice) × List ParseDiagnostic)
  optimizeOne : Callback → Mir → TypeInterner → List ExternImport →
    Option (Bool × Mir × Callback)

def orAbort {α : Type} (x : Option α) : Except Stop α := x.elim (.error .aborted) .ok

def referencedSymbols (merged : Mir) : List ℕ :=
  (merged.moduleFuncs.flatMap fun f => (merged.funcBlocks f).flatMap fun b =>
    (merged.blockInsts b).flatMap (instSymbols merged)) ++
  merged.globals.tail.flatMap fun g =>
    (g.initLiteralIndex.map fun lit => literalSymbols (merged.literals.getD lit default)).getD []

/-- The symbols that need no import row: the functions, the globals, the exported block addresses
and the shims. -/
def accountedSymbols (merged : Mir) (synthRecipes : List (ℕ × String)) : List ℕ :=
  (merged.moduleFuncs.map fun f => (merged.func f).symbol) ++
  merged.globals.tail.map MirGlobal.symbol ++
  (merged.moduleFuncs.flatMap fun f => (merged.funcBlocks f).flatMap fun b =>
    (merged.blockInsts b).filterMap fun inst =>
      if merged.instOpcode inst = .blockAddressExport then some (merged.instPayload inst)
      else none) ++
  synthRecipes.map Prod.fst

def declaredRow (summaries : List ModuleSummary) (name : String) : Option SummaryImport :=
  (summaries.flatMap ModuleSummary.imports).find? fun e => e.mangledName = name

/-- The row of a symbol that is referred to and not defined: a definition of the program comes
before a library's.  A symbol with no name or no declaration aborts. -/
def undefinedRow (symbolNames : List (ℕ × String)) (summaries : List ModuleSummary)
    (index : SummaryIndex) (v : ℕ) : Except Stop ExternImport :=
  match symbolNames.lookup v with
  | none => .error .aborted
  | some name =>
    if name = "" then .error .aborted
    else
      match index.definitionOf name with
      | some w => .ok { symbol := v, mangledName := name, isData := !w.isFunction }
      | none =>
        match declaredRow summaries name with
        | none => .error .aborted
        | some e => .ok {
            symbol := v, mangledName := name, libraryPath := e.libraryPath
            version := e.version, isData := e.isData, isThreadLocal := e.isThreadLocal }

def declareUndefinedReferences (merged : Mir) (symbolNames : List (ℕ × String))
    (summaries : List ModuleSummary) (index : SummaryIndex) (synthRecipes : List (ℕ × String))
    (externs : List ExternImport) : Except Stop (List ExternImport) := do
  let accounted := accountedSymbols merged synthRecipes ++ externs.map ExternImport.symbol
  let undefined := ((referencedSymbols merged).filter (· ∉ accounted)).dedup.insertionSort (· ≤ ·)
  let rows ← undefined.mapM (undefinedRow symbolNames summaries index)
  return externs ++ rows

def importedRows (owned : Mir) (liveNames : List String) (taken : List String)
    (externs : List ExternImport) : List ExternImport :=
  let declared := externs.map ExternImport.symbol
  let symbols := (owned.moduleFuncs.map fun f => (owned.func f).symbol).filter fun s =>
    nameOfSymbol liveNames s ≠ "" ∧ nameOfSymbol liveNames s ∈ taken ∧ s ∉ declared
  (symbols.dedup.insertionSort (· ≤ ·)).map fun s =>
    { symbol := s, mangledName := nameOfSymbol liveNames s }

structure LazyImportOutcome (Lattice : Type) where
  ok : Bool := false
  mir : Option Mir := none
  importedBodies : UInt32 := 0
  importBatches : ℕ := 0
  importMerges : ℕ := 0
  optimizeRuns : ℕ := 0
  demandLeftAtBound : ℕ := 0
  host : Option Lattice := none
  symbolNames : List (ℕ × String) := []
  externImports : List ExternImport := []
  synthRecipes : List (ℕ × String) := []

/-- The state of the driver: the module as it stands with all that describes it, the names taken,
the report so far, and the state of the reporter and of the callback.  `merges` records what each
call of the cloner was asked for. -/
structure Live (Lattice Callback : Type) where
  readMir : Mir
  liveInterner : TypeInterner
  liveNames : List String
  liveExterns : List ExternImport
  liveHost : Option Lattice
  liveNameMap : List (ℕ × String)
  liveRecipes : List (ℕ × String)
  taken : List String
  spent : UInt32
  out : LazyImportOutcome Lattice
  reporter : List ParseDiagnostic
  callback : Callback
  merges : List ImportBatch

def kMaxImportRounds : ℕ := 8

section

variable {Lattice Callback : Type} (tools : Tools Lattice Callback) (importer : ℕ)
  (cus : List LazyImportCu) (summaries : List ModuleSummary) (index : SummaryIndex)
  (policy : SummaryIndexPolicy) (ownerCu : ℕ) (sourceLanguage : String)
  (recipeByName : List (String × String))

def mergeInputs (live : Live Lattice Callback) (batch : ImportBatch) :
    Except Stop (List MergeCuInput) := do
  let sources ← batch.byModule.mapM fun p => do
    let cu := cus.getD p.1 ⟨none, none, none, [], none⟩
    let mir ← orAbort cu.mir
    let interner ← orAbort cu.interner
    let names ← orAbort cu.symbolNames
    return (⟨mir, interner, nameOfSymbol names, [], none, some p.2⟩ : MergeCuInput)
  return ⟨live.readMir, live.liveInterner, nameOfSymbol live.liveNames, live.liveExterns,
    some live.liveRecipes, none⟩ :: sources

def flatNames (nameMap : List (ℕ × String)) : List String :=
  (List.range ((nameMap.map Prod.fst).foldl max 0 + 1)).map fun v => (nameMap.lookup v).getD ""

/-- Clone a batch into the module; `false` when the cloner failed. -/
def mergeBatch (live : Live Lattice Callback) (batch : ImportBatch) :
    Except Stop (Bool × Live Lattice Callback) := do
  let inputs ← mergeInputs cus live batch
  let (merged, reporter) ← orAbort
    (tools.mergeCuMirs inputs (tools.freshLattice ownerCu sourceLanguage) live.reporter)
  match merged with
  | none =>
    return (false, { live with
      reporter := reporter ++ [⟨.crossCuMergeUnsupported, .error,
        "lazyImportOptimize: the on-demand body import for module #" ++ toString importer ++
        " failed to clone " ++ toString batch.total ++ " function(s)."⟩] })
  | some merged =>
    let liveNames := flatNames merged.symbolNames
    let liveRecipes := merged.symbolNames.filterMap fun p =>
      (recipeByName.lookup p.2).map fun recipe => (p.1, recipe)
    let rows := merged.externImports ++
      importedRows merged.mir liveNames live.taken merged.externImports
    let liveExterns ← declareUndefinedReferences merged.mir merged.symbolNames summaries index
      liveRecipes rows
    return (true, { live with
      readMir := merged.mir
      liveInterner := tools.interner merged.host
      liveNames := liveNames
      liveExterns := liveExterns
      liveHost := some merged.host
      liveNameMap := merged.symbolNames
      liveRecipes := liveRecipes
      out := { live.out with
        importedBodies := live.out.importedBodies + batch.total
        importMerges := live.out.importMerges + 1 }
      reporter := reporter
      merges := live.merges ++ [batch] })

/-- The closure over the module as it stands, cloned in one merge; `false` when that failed. -/
def importRound (live : Live Lattice Callback) : Except Stop (Bool × Live Lattice Callback) := do
  let levels := if policy.maxImportDepth = 0 then 1 else policy.maxImportDepth.toNat
  let (st, batches) ← takeClosure importer cus summaries index policy
    (outboundCallees live.readMir live.liveNames) levels live.taken live.spent
    live.out.importBatches
  let batch := batchOf st
  let live := { live with
    taken := st.taken, spent := st.spent, out := { live.out with importBatches := batches } }
  if batch.total ≠ 0 then
    mergeBatch tools importer cus summaries index ownerCu sourceLanguage recipeByName live batch
  else
    return (true, live)

def finished (live : Live Lattice Callback) : Live Lattice Callback :=
  if live.out.importedBodies ≠ 0 then
    { live with out := { live.out with
        ok := true
        mir := some live.readMir
        host := live.liveHost
        symbolNames := live.liveNameMap
        externImports := live.liveExterns
        synthRecipes := live.liveRecipes } }
  else { live with out := { live.out with ok := true } }

def exposed (taken fresh : List String) (n : String) : Except Stop (List String) :=
  if n ∈ taken then .ok fresh
  else do
    if ← isImportable importer n cus summaries index policy then return fresh ++ [n]
    return fresh

/-- One round: import, optimise, and ask whether the optimiser exposed callees that may be imported
too.  With such callees the run goes on; without a list it is over. -/
def optimizeRound (live : Live Lattice Callback) :
    Except Stop (Option (List String) × Live Lattice Callback) := do
  let (cloned, live) ← importRound tools importer cus summaries index policy ownerCu
    sourceLanguage recipeByName live
  if !cloned then return (none, live)
  -- a module that imported nothing is left alone
  if live.out.importedBodies = 0 then return (none, finished live)
  let (optimized, mir, callback) ← orAbort
    (tools.optimizeOne live.callback live.readMir live.liveInterner live.liveExterns)
  let live := { live with readMir := mir, callback := callback }
  if !optimized then return (none, live)
  let live := { live with out := { live.out with optimizeRuns := live.out.optimizeRuns + 1 } }
  let fresh ← (outboundCallees live.readMir live.liveNames).foldlM
    (exposed importer cus summaries index policy live.taken) []
  if fresh.isEmpty then return (none, finished live)
  return (some fresh, live)

/-- A run whose rounds ran out while callees were left. -/
def truncated (fresh : List String) (live : Live Lattice Callback) : Live Lattice Callback :=
  finished { live with
    out := { live.out with demandLeftAtBound := fresh.length }
    reporter := live.reporter ++ [⟨.optFixpointTruncated, .warning,
      "lazyImportOptimize: module #" ++ toString importer ++ " still had " ++
      toString fresh.length ++ " importable callee(s) after " ++ toString kMaxImportRounds ++
      " optimize round(s) — the import fixpoint hit its bound. The module is CORRECT; some " ++
      "cross-CU inlining was left for the whole-program stage."⟩] }

def importRounds : ℕ → Live Lattice Callback → Except Stop (Live Lattice Callback)
  | 0, live => do
    let (demand, live) ← optimizeRound tools importer cus summaries index policy ownerCu
      sourceLanguage recipeByName live
    match demand with
    | none => return live
    | some fresh => return truncated importer fresh live
  | left + 1, live => do
    let (demand, live) ← optimizeRound tools importer cus summaries index policy ownerCu
      sourceLanguage recipeByName live
    match demand with
    | none => return live
    | some _ => importRounds left live

def lazyImportOptimize (callback : Callback) (reporter : List ParseDiagnostic) :
    Except Stop (LazyImportOutcome Lattice × List ParseDiagnostic × Callback × List ImportBatch) :=
  let refused : LazyImportOutcome Lattice × List ParseDiagnostic × Callback × List ImportBatch :=
    ({}, reporter ++ [⟨.crossCuMergeUnsupported, .error,
      "lazyImportOptimize: importer #" ++ toString importer ++ " is out of range for " ++
      toString cus.length ++ " CUs / " ++ toString summaries.length ++
      " summaries, or no optimize callback was supplied."⟩], callback, [])
  match cus[importer]? with
  | none => .ok refused
  | some cu =>
    match decide (summaries.length ≤ importer), cu.mir, cu.interner, cu.symbolNames with
    | false, some mir, some interner, some names => do
      let recipes := cu.synthRecipes.getD []
      let byName := recipes.filterMap fun p =>
        let n := nameOfSymbol names p.1
        if n = "" then none else some (n, p.2)
      let live ← importRounds tools importer cus summaries index policy (tools.owner interner)
        sourceLanguage byName (kMaxImportRounds - 1)
        ⟨mir, interner, names, cu.externImports, none, [], recipes, [], 0, {}, reporter, callback,
          []⟩
      return (live.out, live.reporter, live.callback, live.merges)
    | _, _, _, _ => .ok refused

end

end DssPrime.Mirsum
