import Mathlib

/-!
# The linear-scan register allocator

The model of `lir_regalloc.cpp` from the live ranges on: the free lists of a calling convention,
the coalescing of copies into classes, the scan over the classes with its spills and evictions, and
the check of the finished assignment.

What the allocator reads off the instructions beforehand (where the calls are, which registers an
instruction clobbers, which registers hold incoming arguments, which copies there are) is collected
in `RegallocFacts`.  Slots of arrays are functions on virtual register ids; id `0` names no
register.
-/

namespace DssPrime

inductive LirRegClass where
  | none | gpr | fpr | vr | flags
  deriving DecidableEq, Inhabited

/-- A physical or a virtual register. -/
structure LirReg where
  id : ℕ
  isPhysical : Bool
  regClass : LirRegClass
  deriving DecidableEq

/-- The half-open range of positions at which a virtual register is live. -/
structure LirLiveRange where
  vreg : ℕ
  regClass : LirRegClass
  start : ℕ
  «end» : ℕ
  deriving DecidableEq, Inhabited

def lirRangesInterfere (a b : LirLiveRange) : Bool :=
  decide (a.start < b.end) && decide (b.start < a.end)

def LirLiveRange.hullWith (a b : LirLiveRange) : LirLiveRange :=
  { a with start := min a.start b.start, «end» := max a.end b.end }

structure TargetRegister where
  name : String
  regClass : LirRegClass

/-- The registers of the convention, by name. -/
structure TargetCallingConvention where
  callerSaved : List String
  calleeSaved : List String
  argGprs : List String
  argFprs : List String
  returnGprs : List String
  returnFprs : List String
  indirectResultRegister : Option ℕ

/-- The free registers of a class, the next one to hand out last. -/
structure RegList where
  calleeSaved : List ℕ
  callerSaved : List ℕ

abbrev FreeListsByClass := LirRegClass → RegList

def TargetCallingConvention.allocatable (cc : TargetCallingConvention) : List String :=
  cc.callerSaved ++ cc.calleeSaved ++ cc.argGprs ++ cc.argFprs ++ cc.returnGprs ++ cc.returnFprs

def registerByName (regs : List TargetRegister) (name : String) : Option ℕ :=
  regs.findIdx? fun r => r.name = name

def addFreeReg (cc : TargetCallingConvention) (reservedFramePointer : Option ℕ)
    (free : FreeListsByClass) (r : TargetRegister × ℕ) : FreeListsByClass :=
  let (info, i) := r
  if info.regClass = .none then free
  else if info.name ∉ cc.allocatable then free
  else if reservedFramePointer = some i then free
  else
    let bucket := free info.regClass
    Function.update free info.regClass
      (if info.name ∈ cc.callerSaved then { bucket with callerSaved := bucket.callerSaved ++ [i] }
      else { bucket with calleeSaved := bucket.calleeSaved ++ [i] })

/-- Takes up to `want` registers that pass no argument out of the first `scan` entries of a list,
from the back; returns the list and how many were taken. -/
def drawReserve (argOrdinals : List ℕ) : ℕ → List ℕ → ℕ → List ℕ × ℕ
  | 0, from_, _ => (from_, 0)
  | scan + 1, from_, want =>
    if want = 0 then (from_, 0)
    else if from_.getD scan 0 ∈ argOrdinals then drawReserve argOrdinals scan from_ want
    else
      let (rest, taken) := drawReserve argOrdinals scan (from_.eraseIdx scan) (want - 1)
      (rest, taken + 1)

/-- Takes the registers reserved for reloads out of the lists of a class. -/
def reserveFrom (argOrdinals : List ℕ) (k : ℕ) (bucket : RegList) : RegList × ℕ :=
  if k = 0 then (bucket, 0)
  else
    let (caller, taken) := drawReserve argOrdinals bucket.callerSaved.length bucket.callerSaved k
    if taken < k then
      let (callee, taken') :=
        drawReserve argOrdinals bucket.calleeSaved.length bucket.calleeSaved (k - taken)
      (⟨callee, caller⟩, taken + taken')
    else (⟨bucket.calleeSaved, caller⟩, taken)

def buildFreeLists (regs : List TargetRegister) (cc : TargetCallingConvention)
    (reloadReserve : LirRegClass → ℕ) (reservedFramePointer : Option ℕ) : FreeListsByClass :=
  let out := regs.zipIdx.foldl (addFreeReg cc reservedFramePointer) fun _ => ⟨[], []⟩
  let argOrdinals := (cc.argGprs ++ cc.argFprs).filterMap (registerByName regs)
    ++ cc.indirectResultRegister.toList
  fun c => (reserveFrom argOrdinals (reloadReserve c) (out c)).1

structure ImplicitClobberAt where
  position : ℕ
  forbiddenOrdinals : List ℕ

structure IndirectCalleeAt where
  position : ℕ
  calleeVregId : ℕ
  variadic : Bool
  indirectResult : Bool

/-- A register that holds an incoming argument until it is read. -/
structure ArgRegisterOccupiedAt where
  ordinal : ℕ
  cls : LirRegClass
  releasePos : ℕ
  paramVregId : ℕ

/-- What is read of the instruction at which a range starts. -/
structure ProducingInst where
  requires2Address : Option ℕ
  result : LirReg
  operands : List (Option LirReg)
  forbiddenOrdinals : List ℕ
  /-- For inline assembly, the registers it defines and those it clobbers. -/
  asmRegion : Option (List LirReg × List ℕ)

/-- What is known of a function before the scan. -/
structure RegallocFacts where
  totalPositions : ℕ
  callPositions : List ℕ
  implicitClobbers : List ImplicitClobberAt
  argOccupied : List ArgRegisterOccupiedAt
  indirectCallees : List IndirectCalleeAt
  ccArgRegOrdinals : List ℕ
  /-- The register that counts the vector arguments of a variadic call. -/
  ccVariadicCountRegOrdinal : Option ℕ
  ccIndirectResultRegOrdinal : Option ℕ
  positionToInst : ℕ → Option ProducingInst
  edges : List (ℕ × ℕ)
  forbidden : List (ℕ × ℕ)
  /-- The registers that virtual registers are moved from or to. -/
  physHints : List (ℕ × ℕ)
  reloadReserve : LirRegClass → ℕ
  reservedFramePointer : Option ℕ

/-- The classes of registers that share a location. -/
structure CoalescePartition where
  parent : ℕ → ℕ
  hull : ℕ → LirLiveRange
  members : ℕ → List ℕ
  unions : ℕ
  antiAffinityQueries : ℕ
  antiAffinityProbes : ℕ

/-- The root of `x`, halving the paths on the way; at most `fuel` steps. -/
def findRoot : ℕ → (ℕ → ℕ) → ℕ → (ℕ → ℕ) × ℕ
  | 0, parent, x => (parent, x)
  | fuel + 1, parent, x =>
    if parent x ≠ x then
      let parent := Function.update parent x (parent (parent x))
      findRoot fuel parent (parent x)
    else (parent, x)

namespace CoalescePartition

/-- The root of `x`.  A parent is never larger than its child, so `x` steps are enough. -/
def find (p : CoalescePartition) (x : ℕ) : CoalescePartition × ℕ :=
  let (parent, r) := findRoot (x + 1) p.parent x
  ({ p with parent := parent }, r)

def singletons (rangeOf : ℕ → LirLiveRange) : CoalescePartition where
  parent := id
  hull := rangeOf
  members := fun i => if (rangeOf i).vreg ≠ 0 then [i] else []
  unions := 0
  antiAffinityQueries := 0
  antiAffinityProbes := 0

/-- Looks through forbidden pairs for one between the classes `ra` and `rb`. -/
def probe (forbidden : List (ℕ × ℕ)) (ra rb : ℕ) :
    List ℕ → CoalescePartition → CoalescePartition × Bool
  | [], p => (p, false)
  | fi :: side, p =>
    let p := { p with antiAffinityProbes := p.antiAffinityProbes + 1 }
    let f := forbidden.getD fi (0, 0)
    let (p, fa) := p.find f.1
    let (p, fb) := p.find f.2
    if (fa = ra ∧ fb = rb) ∨ (fa = rb ∧ fb = ra) then (p, true) else probe forbidden ra rb side p

/-- Whether a forbidden pair lies between two classes. -/
def straddles (forbidden : List (ℕ × ℕ)) (incident : ℕ → List ℕ) (ra rb : ℕ)
    (p : CoalescePartition) : CoalescePartition × Bool :=
  let p := { p with antiAffinityQueries := p.antiAffinityQueries + 1 }
  let side := if (incident ra).length ≤ (incident rb).length then incident ra else incident rb
  probe forbidden ra rb side p

/-- Joins two classes under the smaller root. -/
def union (p : CoalescePartition) (ra rb : ℕ) : CoalescePartition :=
  let keep := if ra < rb then ra else rb
  let drop := if ra < rb then rb else ra
  { p with
    parent := Function.update p.parent drop keep
    hull := Function.update p.hull keep ((p.hull keep).hullWith (p.hull drop))
    members := Function.update (Function.update p.members keep (p.members keep ++ p.members drop))
      drop []
    unions := p.unions + 1 }

/-- The forbidden pairs at the roots after a union. -/
def mergeIncident (incident : ℕ → List ℕ) (ra rb : ℕ) : ℕ → List ℕ :=
  let keep := if ra < rb then ra else rb
  let drop := if ra < rb then rb else ra
  let (big, small) := if (incident keep).length < (incident drop).length
    then (incident drop, incident keep) else (incident keep, incident drop)
  Function.update (Function.update incident keep (big ++ small)) drop []

end CoalescePartition

def livePressure (ranges : List LirLiveRange) (positions : ℕ) (c : LirRegClass) (p : ℕ) : ℤ :=
  let counted := ranges.filter fun r => r.vreg ≠ 0 ∧ r.regClass = c ∧ r.start < positions
  (counted.countP fun r => r.start ≤ p) - (counted.countP fun r => min r.end positions ≤ p : ℕ)

def spansHotRegion (ranges : List LirLiveRange) (totalPositions : ℕ)
    (capacity : LirRegClass → ℕ) (c : LirRegClass) (r : LirLiveRange) : Bool :=
  let positions := totalPositions + 1
  decide (capacity c ≠ 0) &&
  (List.range positions).any fun p =>
    decide (min r.start (positions - 1) ≤ p) && decide (p < r.end) &&
      decide (livePressure ranges positions c p ≥ capacity c)

/-- One copy: joins the classes of its ends unless something speaks against it. -/
def coalesceEdge (facts : RegallocFacts) (n : ℕ) (rangeOf : ℕ → LirLiveRange)
    (hot : LirRegClass → LirLiveRange → Bool) (st : CoalescePartition × (ℕ → List ℕ))
    (e : ℕ × ℕ) : CoalescePartition × (ℕ → List ℕ) :=
  let (p, incident) := st
  if e.1 = 0 ∨ e.2 = 0 then st
  else if e.1 ≥ n ∨ e.2 ≥ n then st
  else if (rangeOf e.1).vreg = 0 ∨ (rangeOf e.2).vreg = 0 then st
  else
    let (p, ra) := p.find e.1
    let (p, rb) := p.find e.2
    if ra = rb then (p, incident)
    else if (p.hull ra).regClass ≠ (p.hull rb).regClass then (p, incident)
    else if lirRangesInterfere (p.hull ra) (p.hull rb) then (p, incident)
    else
      let (p, straddle) := p.straddles facts.forbidden incident ra rb
      if straddle then (p, incident)
      else if hot (p.hull ra).regClass ((p.hull ra).hullWith (p.hull rb)) then (p, incident)
      else (p.union ra rb, CoalescePartition.mergeIncident incident ra rb)

def incidentPairs (facts : RegallocFacts) (n x : ℕ) : List ℕ :=
  facts.forbidden.zipIdx.flatMap fun f =>
    if f.1.1 ≥ n ∨ f.1.2 ≥ n ∨ f.1.1 = f.1.2 then []
    else (if f.1.1 = x then [f.2] else []) ++ if f.1.2 = x then [f.2] else []

def buildCoalescePartition (facts : RegallocFacts) (n : ℕ) (rangeOf : ℕ → LirLiveRange)
    (hot : LirRegClass → LirLiveRange → Bool) : CoalescePartition :=
  (facts.edges.foldl (coalesceEdge facts n rangeOf hot)
    (.singletons rangeOf, incidentPairs facts n)).1

inductive LirLocation where
  | phys (ordinal : ℕ) (cls : LirRegClass)
  | spill (slot : ℕ)
  deriving DecidableEq

/-- A range that holds a register. -/
structure ActiveEntry where
  range : LirLiveRange
  cls : LirRegClass
  physOrdinal : ℕ
  isCalleeSaved : Bool
  classRoot : ℕ
  deriving DecidableEq

/-- A spill slot and until when it is taken. -/
structure SlotInFlight where
  slot : ℕ
  cls : LirRegClass
  «end» : ℕ

/-- The register that was handed out. -/
structure AllocPick where
  ordinal : ℕ
  isCalleeSaved : Bool

def giveBack (free : FreeListsByClass) (e : ActiveEntry) : FreeListsByClass :=
  let bucket := free e.cls
  Function.update free e.cls
    (if e.isCalleeSaved then { bucket with calleeSaved := bucket.calleeSaved ++ [e.physOrdinal] }
    else { bucket with callerSaved := bucket.callerSaved ++ [e.physOrdinal] })

def expireActive (currentStart : ℕ) :
    List ActiveEntry → FreeListsByClass → List ActiveEntry × FreeListsByClass
  | [], free => ([], free)
  | e :: active, free =>
    if e.range.end ≤ currentStart then expireActive currentStart active (giveBack free e)
    else
      let (active, free) := expireActive currentStart active free
      (e :: active, free)

def popLast (ok : ℕ → Bool) : List ℕ → Option (ℕ × List ℕ)
  | [] => none
  | r :: regs =>
    match popLast ok regs with
    | some (x, rest) => some (x, r :: rest)
    | none => if ok r then some (r, regs) else none

/-- Takes a register that is not excluded, one that calls may overwrite first unless the range
crosses a call. -/
def tryAllocateExcluding (free : FreeListsByClass) (cls : LirRegClass) (crossesCall : Bool)
    (excluded : List ℕ) : Option (AllocPick × FreeListsByClass) :=
  let bucket := free cls
  let ok := fun r => decide (r ∉ excluded)
  let fromCallee :=
    match popLast ok bucket.calleeSaved with
    | some (r, rest) =>
      some (⟨r, true⟩, Function.update free cls { bucket with calleeSaved := rest })
    | none => none
  if crossesCall then fromCallee
  else match popLast ok bucket.callerSaved with
    | some (r, rest) =>
      some (⟨r, false⟩, Function.update free cls { bucket with callerSaved := rest })
    | none => fromCallee

def tryAllocatePreferred (free : FreeListsByClass) (cls : LirRegClass) (crossesCall : Bool)
    (excluded : List ℕ) (preferred : Option ℕ) : Option (AllocPick × FreeListsByClass) :=
  match preferred with
  | none => none
  | some r =>
    let bucket := free cls
    if r ∈ excluded then none
    else if !crossesCall && decide (r ∈ bucket.callerSaved) then
      some (⟨r, false⟩,
        Function.update free cls { bucket with callerSaved := bucket.callerSaved.erase r })
    else if r ∈ bucket.calleeSaved then
      some (⟨r, true⟩,
        Function.update free cls { bucket with calleeSaved := bucket.calleeSaved.erase r })
    else none

/-- The active class to evict: of those whose register would do, the one that ends last. -/
def findSpillCandidate (active : List ActiveEntry) (cls : LirRegClass) (requireCalleeSaved : Bool)
    (excluded : List ℕ) : Option ActiveEntry :=
  (active.foldl (fun (best : Option ActiveEntry × ℕ) e =>
    if e.cls ≠ cls then best
    else if requireCalleeSaved && !e.isCalleeSaved then best
    else if e.physOrdinal ∈ excluded then best
    else if e.range.end > best.2 then (some e, e.range.end) else best) (none, 0)).1

/-- The state of the scan. -/
structure ScanState where
  free : FreeListsByClass
  active : List ActiveEntry
  assignments : ℕ → Option LirLocation
  slotsInFlight : List SlotInFlight
  nextSlotV : ℕ
  coalescedSpillSlots : ℕ

def assignClass (assignments : ℕ → Option LirLocation) (members : List ℕ) (l : LirLocation) :
    ℕ → Option LirLocation :=
  members.foldl (fun a m => Function.update a m (some l)) assignments

/-- The first slot of the class that is free by the start of a range, with its end moved; `none`
if there is none. -/
def reuseSlot (cls : LirRegClass) (hull : LirLiveRange) :
    List SlotInFlight → Option (ℕ × List SlotInFlight)
  | [] => none
  | s :: slots =>
    if s.cls = cls ∧ s.end ≤ hull.start then some (s.slot, { s with «end» := hull.end } :: slots)
    else match reuseSlot cls hull slots with
      | none => none
      | some (slot, slots) => some (slot, s :: slots)

def acquireSlot (st : ScanState) (cls : LirRegClass) (hull : LirLiveRange) : ScanState × ℕ :=
  match reuseSlot cls hull st.slotsInFlight with
  | some (slot, slots) =>
    ({ st with slotsInFlight := slots, coalescedSpillSlots := st.coalescedSpillSlots + 1 }, slot)
  | none =>
    ({ st with
      slotsInFlight := st.slotsInFlight ++ [⟨st.nextSlotV, cls, hull.end⟩]
      nextSlotV := st.nextSlotV + 1 }, st.nextSlotV)

def rangeCrossesCall (r : LirLiveRange) (callPositions : List ℕ) : Bool :=
  match callPositions.find? (fun c => decide (c ≥ r.start)) with
  | none => false
  | some c => decide (c + 1 < r.end)

def addExcluded (out : List ℕ) (ord : ℕ) : List ℕ := if ord ∈ out then out else out ++ [ord]

/-- The registers that the instruction producing member `mr` forbids. -/
def excludedByProducer (facts : RegallocFacts) (assignments : ℕ → Option LirLocation)
    (mr : LirLiveRange) : List ℕ :=
  match facts.positionToInst mr.start with
  | none => []
  | some inst =>
    (match inst.requires2Address with
    | none => []
    | some tied =>
      if inst.result = ⟨mr.vreg, false, mr.regClass⟩ then
        (inst.operands.zipIdx.flatMap fun op =>
          match op with
          | (none, _) => []
          | (some opReg, k) =>
            if k = tied then []
            else if opReg.isPhysical then [opReg.id]
            else match assignments opReg.id with
              | some (.phys ord _) => [ord]
              | _ => []) ++ inst.forbiddenOrdinals
      else []) ++
    match inst.asmRegion with
    | none => []
    | some (defs, clobbered) =>
      if ⟨mr.vreg, false, mr.regClass⟩ ∈ defs then clobbered else []

def excludedFor (facts : RegallocFacts) (rangeOf : ℕ → LirLiveRange) (members : List ℕ)
    (assignments : ℕ → Option LirLocation) (r : LirLiveRange) : List ℕ :=
  let out := members.flatMap fun m => excludedByProducer facts assignments (rangeOf m)
  let out := facts.implicitClobbers.foldl (fun out c =>
    if c.position < r.start ∨ c.position ≥ r.end then out
    else c.forbiddenOrdinals.foldl addExcluded out) out
  let out := facts.indirectCallees.foldl (fun out ic =>
    if ic.calleeVregId ∉ members then out
    else if ic.position < r.start ∨ ic.position ≥ r.end then out
    else
      let out := facts.ccArgRegOrdinals.foldl addExcluded out
      let out := if ic.variadic then facts.ccVariadicCountRegOrdinal.toList.foldl addExcluded out
        else out
      if ic.indirectResult then facts.ccIndirectResultRegOrdinal.toList.foldl addExcluded out
      else out) out
  facts.argOccupied.foldl (fun out ao =>
    if ao.cls ≠ r.regClass then out
    else members.foldl (fun out m =>
      if m = ao.paramVregId then out
      else if (rangeOf m).start < ao.releasePos then addExcluded out ao.ordinal else out) out) out

/-- The register each virtual register is moved from or to; an incoming argument's own register
comes first. -/
def hintOf (facts : RegallocFacts) (x : ℕ) : Option ℕ :=
  match (facts.argOccupied.filter fun ao => ao.paramVregId = x).getLast? with
  | some ao => some ao.ordinal
  | none => (facts.physHints.find? fun h => h.1 = x).map Prod.snd

def preferredOrdinal (facts : RegallocFacts) (members : List ℕ) : Option ℕ :=
  (members.foldl (fun (best : ℕ × Option ℕ) m =>
    match hintOf facts m with
    | none => best
    | some o => if best.1 = 0 ∨ m < best.1 then (m, some o) else best) (0, none)).2

def scanClass (facts : RegallocFacts) (part : CoalescePartition) (rangeOf : ℕ → LirLiveRange)
    (st : ScanState) (classRoot : ℕ) : ScanState :=
  let r := part.hull classRoot
  let members := part.members classRoot
  if r.vreg = 0 then st
  else if r.regClass = .none then st
  else
    let cls := r.regClass
    let (active, free) := expireActive r.start st.active st.free
    let st := { st with active := active, free := free }
    let crossesCall := rangeCrossesCall r facts.callPositions
    let excluded := excludedFor facts rangeOf members st.assignments r
    let pick := match tryAllocatePreferred st.free cls crossesCall excluded
        (preferredOrdinal facts members) with
      | some pick => some pick
      | none => tryAllocateExcluding st.free cls crossesCall excluded
    match pick with
    | some (pick, free) =>
      { st with
        free := free
        assignments := assignClass st.assignments members (.phys pick.ordinal cls)
        active := st.active ++ [⟨r, cls, pick.ordinal, pick.isCalleeSaved, classRoot⟩] }
    | none =>
      match findSpillCandidate st.active cls crossesCall excluded with
      | some e =>
        if e.range.end > r.end then
          -- the candidate goes to a slot and its register to this class
          let (st, slot) := acquireSlot st e.cls e.range
          { st with
            assignments := assignClass
              (assignClass st.assignments (part.members e.classRoot) (.spill slot))
              members (.phys e.physOrdinal cls)
            active := st.active.erase e ++
              [⟨r, cls, e.physOrdinal, e.isCalleeSaved, classRoot⟩] }
        else
          let (st, slot) := acquireSlot st cls r
          { st with assignments := assignClass st.assignments members (.spill slot) }
      | none =>
        let (st, slot) := acquireSlot st cls r
        { st with assignments := assignClass st.assignments members (.spill slot) }

def maxVRegId (ranges : List LirLiveRange) : ℕ := ranges.foldl (fun a r => max a r.vreg) 0

def setRange (t : ℕ → LirLiveRange) (r : LirLiveRange) : ℕ → LirLiveRange :=
  if r.vreg = 0 then t else Function.update t r.vreg r

def rangeTable (ranges : List LirLiveRange) : ℕ → LirLiveRange :=
  ranges.foldl setRange fun _ => default

def classCapacity (free : FreeListsByClass) (c : LirRegClass) : ℕ :=
  (free c).calleeSaved.length + (free c).callerSaved.length

def partitionOf (facts : RegallocFacts) (free : FreeListsByClass) (ranges : List LirLiveRange) :
    CoalescePartition :=
  buildCoalescePartition facts (maxVRegId ranges + 1) (rangeTable ranges)
    (spansHotRegion ranges facts.totalPositions (classCapacity free))

def classRoots (ranges : List LirLiveRange) (part : CoalescePartition) : List ℕ :=
  (((List.range (maxVRegId ranges + 1)).filter fun id =>
      id ≠ 0 ∧ (rangeTable ranges id).vreg ≠ 0 ∧ (part.find id).2 = id).mergeSort
    fun a b => decide ((part.hull a).start < (part.hull b).start ∨
      ((part.hull a).start = (part.hull b).start ∧ a ≤ b)))

def ScanState.start (free : FreeListsByClass) : ScanState := ⟨free, [], fun _ => none, [], 1, 0⟩

def allocateOneFunc (regs : List TargetRegister) (cc : TargetCallingConvention)
    (facts : RegallocFacts) (ranges : List LirLiveRange) : ℕ → Option LirLocation :=
  let free := buildFreeLists regs cc facts.reloadReserve facts.reservedFramePointer
  let part := partitionOf facts free ranges
  ((classRoots ranges part).foldl (scanClass facts part (rangeTable ranges))
    (.start free)).assignments

structure Placed where
  range : LirLiveRange
  resource : ℕ
  isSpill : Bool

def LirRegClass.toNat : LirRegClass → ℕ
  | .none => 0
  | .gpr => 1
  | .fpr => 2
  | .vr => 3
  | .flags => 4

def placedOf (assignments : ℕ → Option LirLocation) (r : LirLiveRange) : Option Placed :=
  if r.vreg = 0 then none
  else match assignments r.vreg with
    | none => none
    | some (.spill slot) => some ⟨r, slot, true⟩
    | some (.phys ord cls) => some ⟨r, ord <<< 8 ||| cls.toNat, false⟩

/-- The order of the check: by kind, resource, start and register. -/
def Placed.le (x y : Placed) : Bool :=
  decide (toLex (x.isSpill, toLex (x.resource, toLex (x.range.start, x.range.vreg))) ≤
    toLex (y.isSpill, toLex (y.resource, toLex (y.range.start, y.range.vreg))))

/-- The first two neighbours that share a resource while they overlap. -/
def neighbourConflict : List Placed → Option (LirLiveRange × LirLiveRange)
  | prev :: cur :: rest =>
    if prev.isSpill = cur.isSpill ∧ prev.resource = cur.resource ∧
        lirRangesInterfere prev.range cur.range then some (prev.range, cur.range)
    else neighbourConflict (cur :: rest)
  | _ => none

/-- Two ranges that overlap and share a register or slot. -/
def findAllocationConflict (ranges : List LirLiveRange) (assignments : ℕ → Option LirLocation) :
    Option (LirLiveRange × LirLiveRange) :=
  neighbourConflict ((ranges.filterMap (placedOf assignments)).mergeSort Placed.le)

end DssPrime
