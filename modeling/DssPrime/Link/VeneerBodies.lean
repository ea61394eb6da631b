import DssPrime.Link.BranchVeneers

/-!
# The veneer bodies a target declares

A target declares the bodies a linker may build veneers from (`linkVeneers`).  This is the model of
the rules such a declaration obeys (`linkVeneerProblems`), of the reach of a relocation's field
(`link/branch_reloc_geometry.hpp`), and of `assembleBody`, which turns a declared body into the
bytes and relocations every veneer of it is copied from.

Of a diagnostic the path is kept and the prose is not.  The assembler proper is a parameter: the
functions here read its result only through the checks the source makes of it.
-/

namespace DssPrime

inductive RelocFormulaKind where
  | linear
  | aarch64Call26
  | aarch64AdrPrelPgHi21
  | aarch64AddAbsLo12
  /-- The upper 12 bits of a thread-pointer offset. -/
  | aarch64TprelAddHi12
  | aarch64AdrGotPage
  | aarch64Ld64GotLo12
  /-- The distance to a slot of the global offset table. -/
  | x86_64GotPcRel
  | aarch64AdrPrelLo21
  | aarch64LdstAbsLo12
  deriving DecidableEq

structure TargetRelocationInfo where
  formulaKind : RelocFormulaKind
  pcRelative : Bool
  widthBytes : ℕ
  addendBias : ℤ

/-- Where a branch keeps its distance, and in what unit. -/
structure BranchRelocGeometry where
  fieldBits : ℕ
  scaleLog2 : ℕ
  lsb : ℕ

def branchRelocGeometry : RelocFormulaKind → BranchRelocGeometry
  | .aarch64Call26 => ⟨26, 2, 0⟩
  | _ => ⟨0, 0, 0⟩

def branchRelocFieldMin (g : BranchRelocGeometry) : ℤ :=
  if g.fieldBits = 0 then 0 else -2 ^ (g.fieldBits - 1)

def branchRelocFieldMax (g : BranchRelocGeometry) : ℤ :=
  if g.fieldBits = 0 then -1 else 2 ^ (g.fieldBits - 1) - 1

/-- The byte distances a row's field can encode; none when it is not bounded by a distance. -/
def relocFieldReach (row : TargetRelocationInfo) : Option RelocReach :=
  match row.formulaKind with
  | .aarch64Call26 =>
    let g := branchRelocGeometry row.formulaKind
    some ⟨branchRelocFieldMin g * 2 ^ g.scaleLog2, branchRelocFieldMax g * 2 ^ g.scaleLog2⟩
  | .aarch64AdrPrelPgHi21 => some ⟨-2 ^ 20 * 4096, (2 ^ 20 - 1) * 4096 - 1⟩
  | .aarch64AdrPrelLo21 => some ⟨-2 ^ 20, 2 ^ 20 - 1⟩
  | .linear =>
    if !row.pcRelative ∨ row.widthBytes = 0 ∨ row.widthBytes ≥ 8 then none
    else
      let half : ℤ := 2 ^ (8 * row.widthBytes - 1)
      some ⟨-half - row.addendBias, half - 1 - row.addendBias⟩
  | _ => none

structure Relocation where
  offset : ℕ := 0
  target : ℕ := 0
  kind : ℕ := 0
  addend : ℤ := 0
  bytesAfterField : ℕ := 0
  deriving DecidableEq

structure SyntheticBlockSymbol where
  symbol : ℕ
  blockByteOffset : ℕ
  deriving DecidableEq

/-- The bytes of a function and what patches them. -/
structure AssembledFunction where
  symbol : ℕ := 0
  bytes : List UInt8 := []
  relocations : List Relocation := []
  blockSymbols : List SyntheticBlockSymbol := []
  deriving DecidableEq, Inhabited

inductive TargetRegClass where
  | none
  | gpr
  | fpr
  | vr
  | flags
  deriving DecidableEq

/-- What a veneer may ask of an opcode. -/
structure VeneerOpcodeInfo where
  isCall : Bool := false
  isTerminator : Bool := false
  isIndirectBr : Bool := false
  hasResult : Bool := false
  minOperands : ℕ := 0
  maxOperands : ℕ := 0
  hasImplicitRegisters : Bool := false

inductive LinkVeneerOperandKind where
  | register
  /-- A memory operand with a granted base register. -/
  | memory
  /-- The symbol and addend the veneer stands in for. -/
  | target
  /-- The address of the body's own data word. -/
  | literal
  deriving DecidableEq

structure LinkVeneerOperand where
  kind : LinkVeneerOperandKind := .register
  reg : ℕ := 0
  offset : ℤ := 0

/-- A step of a veneer body: an instruction, or the data word after the closing branch. -/
structure LinkVeneerStep where
  opcode : ℕ := 0
  resultRegister : Option ℕ := none
  dataBytes : ℕ := 0
  operands : List LinkVeneerOperand := []
  relocations : List ℕ := []
  deriving Inhabited

namespace LinkVeneerStep

def isData (step : LinkVeneerStep) : Bool := decide (step.dataBytes ≠ 0)

end LinkVeneerStep

structure LinkVeneerBody where
  name : String
  sequence : List LinkVeneerStep

/-- What a linker may build, and clobber, to carry a branch past its reach. -/
structure LinkVeneerVocabulary where
  scratchRegisters : List ℕ
  routableRelocations : List ℕ
  bodies : List LinkVeneerBody

structure TargetSchema where
  registers : List TargetRegClass
  opcodes : List VeneerOpcodeInfo
  relocations : List (ℕ × TargetRelocationInfo)
  linkVeneers : Option LinkVeneerVocabulary

namespace TargetSchema

def relocationInfo (target : TargetSchema) (kind : ℕ) : Option TargetRelocationInfo :=
  target.relocations.lookup kind

def lastInstruction (body : LinkVeneerBody) : ℕ :=
  (List.range body.sequence.length).foldl
    (fun last i => if (body.sequence.getD i default).isData then last else i) body.sequence.length

def dataProblems (target : TargetSchema) (sp : String) (s last : ℕ) (step : LinkVeneerStep) :
    List String :=
  (if s < last then [sp ++ "/data"] else []) ++
  (if step.operands.length = 1 ∧ (step.operands.map (·.kind)) = [.target] then []
    else [sp ++ "/operands"]) ++
  match step.relocations with
  | [kind] =>
    match target.relocationInfo kind with
    | none => []
    | some row =>
      if row.formulaKind ≠ .linear ∨ !row.pcRelative then [sp ++ "/relocations/0"]
      else if row.widthBytes ≠ step.dataBytes then [sp ++ "/data"] else []
  | _ => [sp ++ "/relocations"]

def symbolOperands (step : LinkVeneerStep) : ℕ :=
  step.operands.countP fun o => decide (o.kind = .target ∨ o.kind = .literal)

def instructionProblems (target : TargetSchema) (granted : ℕ → Bool) (sp : String) (isLast : Bool)
    (step : LinkVeneerStep) : List String :=
  match target.opcodes[step.opcode]? with
  | none => [sp ++ "/mnemonic"]
  | some op =>
    if step.opcode = 0 then [sp ++ "/mnemonic"]
    else
      let lirOperands := (step.operands.map fun o => if o.kind = .memory then 3 else 1).sum
      (if op.isCall then [sp ++ "/mnemonic"] else []) ++
      (if isLast && !op.isIndirectBr then [sp ++ "/mnemonic"] else []) ++
      (if !isLast && op.isTerminator then [sp ++ "/mnemonic"] else []) ++
      (if step.resultRegister.isSome ≠ op.hasResult then [sp ++ "/result"] else []) ++
      (if step.resultRegister.any (!granted ·) then [sp ++ "/result"] else []) ++
      (if lirOperands < op.minOperands ∨ lirOperands > op.maxOperands then [sp ++ "/operands"]
        else []) ++
      (if symbolOperands step > 1 then [sp ++ "/operands"] else []) ++
      (if !step.relocations.isEmpty && symbolOperands step = 0 then [sp ++ "/relocations"]
        else []) ++
      (if op.hasImplicitRegisters then [sp ++ "/mnemonic"] else [])

def stepProblems (target : TargetSchema) (granted : ℕ → Bool) (bp : String) (last s : ℕ)
    (step : LinkVeneerStep) : List String :=
  let sp := bp ++ "/sequence/" ++ toString s
  (step.relocations.zipIdx.flatMap fun r =>
    if (target.relocationInfo r.1).isSome then [] else [sp ++ "/relocations/" ++ toString r.2]) ++
  (step.operands.zipIdx.flatMap fun o =>
    if (o.1.kind = .register ∨ o.1.kind = .memory) ∧ !granted o.1.reg then
      [sp ++ "/operands/" ++ toString o.2] else []) ++
  if step.isData then target.dataProblems sp s last step
  else target.instructionProblems granted sp (decide (s = last)) step

def bodyProblems (target : TargetSchema) (granted : ℕ → Bool) (earlier : List LinkVeneerBody)
    (body : LinkVeneerBody) : List String :=
  let bp := "/linkVeneers/bodies/" ++ toString earlier.length
  let last := lastInstruction body
  let dataSteps := body.sequence.countP (·.isData)
  let literalNamed := body.sequence.any fun step =>
    !step.isData && step.operands.any fun o => decide (o.kind = .literal)
  (if body.name = "" then [bp ++ "/name"] else []) ++
  (earlier.flatMap fun o => if body.name ≠ "" ∧ o.name = body.name then [bp ++ "/name"] else []) ++
  (if last = body.sequence.length then [bp ++ "/sequence"] else []) ++
  (if dataSteps > 1 then [bp ++ "/sequence"] else []) ++
  (body.sequence.zipIdx.flatMap fun s => target.stepProblems granted bp last s.2 s.1) ++
  (if literalNamed && dataSteps = 0 then [bp ++ "/sequence"] else []) ++
  (if dataSteps = 1 && !literalNamed then [bp ++ "/sequence"] else [])

def linkVeneerProblems (target : TargetSchema) : List String :=
  match target.linkVeneers with
  | none => []
  | some lv =>
    let granted := fun reg => lv.scratchRegisters.contains reg
    (if lv.scratchRegisters.isEmpty then ["/linkVeneers/scratchRegisters"] else []) ++
    (lv.scratchRegisters.zipIdx.flatMap fun r =>
      if target.registers[r.1]? = some .gpr then []
      else ["/linkVeneers/scratchRegisters/" ++ toString r.2]) ++
    (if lv.routableRelocations.isEmpty then ["/linkVeneers/routableRelocations"] else []) ++
    (lv.routableRelocations.zipIdx.flatMap fun r =>
      if (target.relocationInfo r.1).isSome then []
      else ["/linkVeneers/routableRelocations/" ++ toString r.2]) ++
    (if lv.bodies.isEmpty then ["/linkVeneers/bodies"] else []) ++
    (lv.bodies.zipIdx.flatMap fun b =>
      target.bodyProblems granted (lv.bodies.take b.2) b.1)

end TargetSchema

def kTemplateTargetV : ℕ := 1

/-- The placeholder for a veneer's data word. -/
def kTemplateLiteralV : ℕ := 2

inductive TemplateOperand where
  | reg (r : ℕ)
  | memBase (scale : ℕ)
  | memOffset (offset : ℤ)
  | symbolRef (symbol : ℕ)

structure TemplateInst where
  opcode : ℕ
  result : Option ℕ
  operands : List TemplateOperand
  isIndirectBr : Bool

abbrev Assembler := TargetSchema → List TemplateInst → Option AssembledFunction

/-- A veneer that is assembled. -/
structure BodyTemplate where
  name : String := ""
  code : List UInt8 := []
  relocations : List Relocation := []
  dataBytes : ℕ := 0
  dataRelocation : ℕ := 0
  dataAlign : ℕ := 1
  slack : ℕ := 0
  size : ℕ := 0
  /-- The distances from a veneer to a target that it can encode. -/
  reach : RelocReach := default
  kinds : List ℕ := []
  deriving Inhabited

def templateOperands (step : LinkVeneerStep) : List TemplateOperand :=
  step.operands.flatMap fun op =>
    match op.kind with
    | .register => [.reg op.reg]
    | .memory => [.reg op.reg, .memBase 1, .memOffset op.offset]
    | .target => [.symbolRef kTemplateTargetV]
    | .literal => [.symbolRef kTemplateLiteralV]

def placeholderOf (step : LinkVeneerStep) : ℕ :=
  step.operands.foldl (fun p op =>
    match op.kind with
    | .target => kTemplateTargetV
    | .literal => kTemplateLiteralV
    | _ => p) 0

def declaredRelocations (body : LinkVeneerBody) : List (ℕ × ℕ) :=
  (body.sequence.filter (!·.isData)).flatMap fun step =>
    step.relocations.map fun k => (k, placeholderOf step)

def templateInsts (body : LinkVeneerBody) : List TemplateInst :=
  let insts := body.sequence.filter (!·.isData)
  insts.zipIdx.map fun s =>
    let isLast := decide (s.2 + 1 = insts.length)
    { opcode := s.1.opcode
      result := if isLast then none else s.1.resultRegister
      operands := templateOperands s.1
      isIndirectBr := isLast }

def namedRegisters (body : LinkVeneerBody) : List ℕ :=
  let insts := body.sequence.filter (!·.isData)
  insts.zipIdx.flatMap fun s =>
    (s.1.operands.filter fun op => decide (op.kind = .register ∨ op.kind = .memory)).map (·.reg) ++
      if s.2 + 1 = insts.length then [] else s.1.resultRegister.toList

/-- The most padding that code of `c` bytes, standing at a multiple of the granule, needs before a
data word of alignment `a`. -/
def slackOf (granule c a : ℕ) : ℕ :=
  let step := min granule a
  (List.range a).foldl (fun slack j =>
    if j * step < a then max slack ((a - (c + j * granule) % a) % a) else slack) 0

/-- Narrows a veneer's reach by a field that stands between `lo` and `hi` bytes after its start. -/
def narrow (target : TargetSchema) (reach : RelocReach) (kind : ℕ) (lo hi : ℤ) : RelocReach :=
  match (target.relocationInfo kind).bind relocFieldReach with
  | none => reach
  | some w =>
    ⟨max reach.minDelta (int64 (w.minDelta + hi)), min reach.maxDelta (int64 (w.maxDelta + lo))⟩

/-- Takes one relocation of the template into account: one aimed at the target narrows the reach,
one aimed at the data word must reach it wherever it stands. -/
def narrowBy (target : TargetSchema) (c slack : ℕ) (reach : RelocReach) (r : Relocation) :
    Option RelocReach :=
  if r.target = kTemplateTargetV then some (narrow target reach r.kind r.offset r.offset)
  else
    match (target.relocationInfo r.kind).bind relocFieldReach with
    | none => some reach
    | some w =>
      if w.inWindow ((c : ℤ) - r.offset) && w.inWindow (((c + slack : ℕ) : ℤ) - r.offset) then
        some reach
      else none

/-- The template of a body whose instructions assembled to `fn`; none when it cannot reach its own
data word. -/
def templateFor (target : TargetSchema) (granule : ℕ) (body : LinkVeneerBody)
    (fn : AssembledFunction) : Option BodyTemplate :=
  -- of several data words the last would be kept
  let word := (body.sequence.filter (·.isData)).getLast?
  let dataBytes : ℕ := (word.map (·.dataBytes)).getD 0
  let dataRelocation : ℕ := (word.map (·.relocations.headD 0)).getD 0
  let c := fn.bytes.length
  let dataAlign := if dataBytes ≠ 0 then dataBytes else 1
  let slack := if dataBytes ≠ 0 then slackOf granule c dataAlign else 0
  (fn.relocations.foldlM (narrowBy target c slack) ⟨int64Min, int64Max⟩).map fun reach =>
    { name := body.name
      code := fn.bytes
      relocations := fn.relocations
      dataBytes := dataBytes
      dataRelocation := dataRelocation
      dataAlign := dataAlign
      slack := slack
      size := c + slack + dataBytes
      reach := if dataBytes ≠ 0 then narrow target reach dataRelocation c ((c + slack : ℕ) : ℤ)
        else reach
      kinds := fn.relocations.map (·.kind) ++ if dataBytes ≠ 0 then [dataRelocation] else [] }

/-- Assembles a body.  It is refused when it names an unknown register, when it does not assemble,
when the assembled relocations are not the declared ones, or when it cannot reach its own data
word. -/
def assembleBody (assemble : Assembler) (target : TargetSchema) (granule : ℕ)
    (body : LinkVeneerBody) : Option BodyTemplate :=
  if (namedRegisters body).any fun r => (target.registers[r]?).isNone then none
  else match assemble target (templateInsts body) with
  | none => none
  | some fn =>
    if fn.bytes = [] then none
    else if fn.relocations.map (fun r => (r.kind, r.target)) ≠ declaredRelocations body ∨
        fn.relocations.any (fun r => r.addend ≠ 0) then none
    else templateFor target granule body fn

end DssPrime
