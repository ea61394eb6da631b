import DssPrime.Link.MergeModules

/-!
# The numbers of a merge before assembly

`mergeCuMirs` of `mir_merge.cpp`, as far as it decides which functions survive and under which
number: one number a name that is won, which all its definitions and references share, one a private
symbol, one an import.  The first unit keeps its own numbers where they are free.  A function
carries its static-initialiser schedule with it when it is cloned, and the schedule of the merged
module is read off its functions.

A unit is seen through its symbols here; the bodies that are cloned are not modelled.
-/

namespace DssPrime.Linker

structure UnitFunction where
  symbol : ℕ
  name : String
  binding : SymbolBinding
  visibility : SymbolVisibility := .default
  staticInit : StaticInitSchedule := {}

structure UnitGlobal where
  symbol : ℕ
  name : String
  binding : SymbolBinding
  visibility : SymbolVisibility := .default

/-- A unit to be merged. -/
structure CompiledUnit where
  cuId : ℕ
  functions : List UnitFunction
  globals : List UnitGlobal := []
  externImports : List ExternImport := []
  /-- The symbols of its blocks whose address static data takes. -/
  blockExports : List ℕ := []
  synthRecipes : List (ℕ × String) := []
  deriving Inhabited

def mirDefs (units : List CompiledUnit) : List CrossCuDef :=
  units.zipIdx.flatMap fun p =>
    ((p.1.functions.map fun f => (f.symbol, f.name, f.binding)) ++
      p.1.globals.map fun g => (g.symbol, g.name, g.binding)).filterMap fun d =>
        if d.2.1 = "" ∨ d.2.2 = .«local» then none
        else some ⟨d.2.1, d.2.2, ⟨p.2 + 1, d.1⟩, .any, 0, []⟩

/-- What a number is given to: a name that is won, a symbol of a unit, a dynamic symbol, the name of
an import, or the name of a shim. -/
inductive MergeKey where
  | name (name : String)
  | symbol (unit : ℕ) (symbol : ℕ)
  | imported (mangledName libraryPath version : String)
  | importedName (name : String)
  | shim (name : String)
  deriving DecidableEq

def ffiImportKey (e : ExternImport) : MergeKey := .imported e.mangledName e.libraryPath e.version

/-- The plan of the merge: the numbers given, those in use, and where to look for the next. -/
structure MergePlan where
  names : Names MergeKey
  used : List ℕ
  next : ℕ

abbrev PlanM := StateM MergePlan

def firstFree (used : List ℕ) : ℕ → ℕ → ℕ
  | 0, n => n
  | fuel + 1, n => if n ∈ used then firstFree used fuel (n + 1) else n

def MergePlan.freshNumber (p : MergePlan) : ℕ := firstFree p.used (p.used.length + 1) p.next

def giveNumber (key : MergeKey) (unit symbol : ℕ) : PlanM ℕ := do
  let p ← get
  if unit = 0 ∧ symbol ∉ p.used then
    set { p with names := p.names.give key symbol, used := symbol :: p.used }
    return symbol
  else
    let id := p.freshNumber
    set { p with names := p.names.give key id, used := id :: p.used, next := id + 1 }
    return id

def emplace (key : MergeKey) (id : ℕ) : PlanM Unit := do
  let p ← get
  match p.names.table key with
  | some _ => return ()
  | none => set { p with names := p.names.fold key id }

/-- A new number for a symbol; that of an import is kept for the imports of the same dynamic
symbol. -/
def freshSymbol (unit old : ℕ) (name : String) (ffiRow : Option ExternImport) : PlanM Unit := do
  let id ← giveNumber (.symbol unit old) unit old
  match ffiRow with
  | none => return ()
  | some row =>
    if name = "" then return ()
    emplace (ffiImportKey row) id
    emplace (.importedName name) id

/-- The number of a symbol: that of its name when the name is won, that of its dynamic symbol when
another unit imports it too, or a new one. -/
def assignSymbol (unit old : ℕ) (name : String) (ffiRow : Option ExternImport)
    (isLocalDef : Bool) : PlanM Unit := do
  let p ← get
  match p.names.table (.symbol unit old) with
  | some _ => return ()
  | none =>
    let shared := if name ≠ "" ∧ !isLocalDef then
      (p.names.table (.name name)).orElse fun _ =>
        ffiRow.bind fun row => p.names.table (ffiImportKey row)
      else none
    match shared with
    | some id => emplace (.symbol unit old) id
    | none => freshSymbol unit old name ffiRow

def assignUnit (unit : ℕ) (u : CompiledUnit) : PlanM Unit := do
  u.functions.forM fun f => assignSymbol unit f.symbol f.name none (f.binding = .«local»)
  u.globals.forM fun g => assignSymbol unit g.symbol g.name none (g.binding = .«local»)
  u.externImports.forM fun e => assignSymbol unit e.symbol e.mangledName (some e) false
  u.blockExports.forM fun s => assignSymbol unit s "" none true

/-- A shim, by name: a definition, an import or a shim of another unit comes first. -/
def assignShim (unit : ℕ) (shim : ℕ × String) : PlanM Unit := do
  let p ← get
  match p.names.table (.symbol unit shim.1) with
  | some _ => return ()
  | none =>
    if shim.2 = "" then return ()
    match (p.names.table (.name shim.2)).orElse fun _ =>
        (p.names.table (.importedName shim.2)).orElse fun _ => p.names.table (.shim shim.2) with
    | some id => emplace (.symbol unit shim.1) id
    | none =>
      let id ← giveNumber (.symbol unit shim.1) unit shim.1
      emplace (.shim shim.2) id

def assignShims (unit : ℕ) (u : CompiledUnit) : PlanM Unit :=
  u.synthRecipes.forM (assignShim unit)

def assignName (winners : String → Option LinkedSymbolKey) (name : String) : PlanM Unit :=
  match winners name with
  | none => return ()
  | some key => do
    let _ ← giveNumber (.name name) (key.cuId - 1) key.symbol

def assignNames (winners : String → Option LinkedSymbolKey) (names : List String) : PlanM Unit :=
  names.forM (assignName winners)

def maxSymbol (u : CompiledUnit) : ℕ :=
  (u.functions.map (·.symbol) ++ u.globals.map (·.symbol) ++
    u.externImports.map (·.symbol)).foldl max 0

def winnerNames (units : List CompiledUnit) : List String :=
  ((mirDefs units).map CrossCuDef.name).dedup.insertionSort (· ≤ ·)

def planSymbols (units : List CompiledUnit) : PlanM Unit := do
  assignNames (resolveCrossCuDefs (mirDefs units)).winners (winnerNames units)
  units.zipIdx.forM fun p => assignUnit p.2 p.1
  units.zipIdx.forM fun p => assignShims p.2 p.1

def mergePlan (units : List CompiledUnit) : MergePlan :=
  ((planSymbols units).run ⟨.empty, [], maxSymbol (units.headD default) + 1⟩).2

def isShadowedLoser (winners : String → Option LinkedSymbolKey) (unit : ℕ) (f : UnitFunction) :
    Bool :=
  if f.name = "" then false
  else if f.binding = .«local» then false
  else
    match winners f.name with
    | none => false
    | some key => !(key.cuId - 1 = unit && key.symbol = f.symbol)

def clonedFunctions (units : List CompiledUnit) : List (ℕ × UnitFunction) :=
  units.zipIdx.flatMap fun p =>
    (p.1.functions.filter fun f =>
      !isShadowedLoser (resolveCrossCuDefs (mirDefs units)).winners p.2 f).map fun f => (p.2, f)

def mergedSymbolOf (plan : MergePlan) (unit symbol : ℕ) : Option ℕ :=
  plan.names.table (.symbol unit symbol)

def cloneFunction (plan : MergePlan) (p : ℕ × UnitFunction) : Option (ℕ × StaticInitSchedule) :=
  (mergedSymbolOf plan p.1 p.2.symbol).map fun id => (id, p.2.staticInit)

def mergeCuFunctions (units : List CompiledUnit) : Option (List (ℕ × StaticInitSchedule)) :=
  (clonedFunctions units).mapM (cloneFunction (mergePlan units))

def staticInitAdd (symbol : ℕ) (schedule : StaticInitSchedule) : List LirStaticInitEntry :=
  if symbol = 0 ∨ !schedule.any then [] else [⟨symbol, schedule⟩]

def lowerSchedule (functions : List (ℕ × StaticInitSchedule)) : List LirStaticInitEntry :=
  functions.flatMap fun f => staticInitAdd f.1 f.2

end DssPrime.Linker
