import DssPrime.Opt.Alias

/-!
# The memory-clobber index

`MirMemoryClobbers` is built once per pass: a ledger of every instruction that may write
memory, the predecessor map and the escape analysis.  Its queries remember what they computed
in a memo (`ClobberMemo`): alias verdicts per instruction and pointer, up to a capacity, and
the blocks reachable from an endpoint.  `anyClobberBetweenPoints` is the query that
common-subexpression elimination asks; it answers from four slices of the control-flow graph.
-/

namespace DssPrime

/-- An entry of the ledger: a clobbering instruction and its index in its block. -/
structure MirMemoryDef where
  inst : ℕ
  instIdxInBlock : ℕ
  deriving DecidableEq

/-- The index of what writes memory. -/
structure MirMemoryClobbers where
  mir : Mir
  preds : List (List ℕ)
  escape : MirPointerEscape
  ledger : List (ℕ × MirMemoryDef)

/-- What earlier queries left. -/
structure ClobberMemo where
  verdicts : MirAliasMode → List ((ℕ × ℕ) × Bool)
  interner : Option ℕ
  aliasTests : ℕ
  aliasSkips : ℕ
  fwdMemo : List (ℕ × List ℕ)
  bwdMemo : List (ℕ × List ℕ)
  reachSelfSeen : List ℕ
  reachSelfStamp : ℕ

def ClobberMemo.fresh : ClobberMemo where
  verdicts _ := []
  interner := none
  aliasTests := 0
  aliasSkips := 0
  fwdMemo := []
  bwdMemo := []
  reachSelfSeen := []
  reachSelfStamp := 0

namespace MirMemoryClobbers

def blockLedger (m : MirData) (b : ℕ) : List (ℕ × MirMemoryDef) :=
  ((List.range (m.blockInstCount b)).filter
    fun i => opcodeClobbersMemory (m.instOpcode (m.blockInstAt b i))).map
    fun i => (b, ⟨m.blockInstAt b i, i⟩)

/-- Build the index of a module; `none` is an abort (a foreign predecessor map, or an abort of
the escape analysis). -/
def build (m : Mir) (preds : List (List ℕ)) : Option MirMemoryClobbers := do
  let escape ← MirPointerEscape.build m.toMirData
  if preds.length ≠ m.blockCount then none
  else return {
    mir := m
    preds := preds
    escape := escape
    ledger := m.moduleFuncs.flatMap fun f => (m.funcBlocks f).flatMap (blockLedger m.toMirData) }

variable (cap : ℕ) (ix : MirMemoryClobbers) (t : TypeInterner)

def blockClobbers (b : ℕ) : List MirMemoryDef := (ix.ledger.filter (·.1 = b)).map Prod.snd

/-- The blocks with ledger entries, in ascending order. -/
def clobberBearingBlocks : List ℕ :=
  (List.range ix.mir.blockCount).filter fun b => !(ix.blockClobbers b).isEmpty

/-- The alias verdict of one ledger entry, remembered while the table has room. -/
def defClobbers (mode : MirAliasMode) (loadPtr d : ℕ) (s : ClobberMemo) :
    Option (Bool × ClobberMemo) :=
  if s.interner.any (· ≠ t.id) then none
  else match (s.verdicts mode).lookup (d, loadPtr) with
    | some v => some (v, { s with interner := some t.id, aliasSkips := s.aliasSkips + 1 })
    | none => do
      let v ← mirInstClobbersLoadPtr ix.mir.toMirData t mode (some ix.escape) loadPtr d
      let s := { s with interner := some t.id, aliasTests := s.aliasTests + 1 }
      if (s.verdicts mode).length < cap then
        return (v, { s with
          verdicts := Function.update s.verdicts mode (((d, loadPtr), v) :: s.verdicts mode) })
      else return (v, s)

def anyDefClobbers (mode : MirAliasMode) (loadPtr : ℕ) :
    List MirMemoryDef → ClobberMemo → Option (Bool × ClobberMemo)
  | [], s => some (false, s)
  | d :: ds, s => do
    let (v, s) ← ix.defClobbers cap t mode loadPtr d.inst s
    if v then return (true, s) else anyDefClobbers mode loadPtr ds s

/-- The entries of an ascending list whose index lies in `[lo, hi)`. -/
def defsInRange (lo hi : ℕ) : List MirMemoryDef → List MirMemoryDef
  | [] => []
  | d :: ds =>
    if d.instIdxInBlock < lo then defsInRange lo hi ds
    else if hi ≤ d.instIdxInBlock then []
    else d :: defsInRange lo hi ds

def anyClobberInBlockRange (mode : MirAliasMode) (loadPtr blk lo hi : ℕ) (s : ClobberMemo) :
    Option (Bool × ClobberMemo) :=
  ix.anyDefClobbers cap t mode loadPtr (defsInRange lo hi (ix.blockClobbers blk)) s

/-- The edges of the reachability walks: forward along successors or backward along the
predecessor map. -/
def reachNext (forward : Bool) (b : ℕ) : List ℕ :=
  (if forward then ix.mir.blockSuccessors b else ix.preds.getD b []).filter
    fun x => x ≠ 0 ∧ x < ix.mir.blockCount

/-- The blocks reachable from a block, itself included, remembered. -/
def reach (root : ℕ) (forward : Bool) (s : ClobberMemo) : Option (List ℕ × ClobberMemo) :=
  match (if forward then s.fwdMemo else s.bwdMemo).lookup root with
  | some r => some (r, s)
  | none => do
    let r ← Worklist.run (ix.reachNext forward) (ix.mir.blockCount * 4 + 4) [root] [root]
    if forward then return (r, { s with fwdMemo := (root, r) :: s.fwdMemo })
    else return (r, { s with bwdMemo := (root, r) :: s.bwdMemo })

def anyClobberBetween (mode : MirAliasMode) (loadPtr canonicalBlock useBlock : ℕ)
    (s : ClobberMemo) : Option (Bool × ClobberMemo) :=
  if canonicalBlock = 0 ∨ useBlock = 0 then some (false, s)
  else if ix.mir.blockCount = 0 then some (false, s)
  else do
    let (fwd, s) ← ix.reach canonicalBlock true s
    let (bwd, s) ← ix.reach useBlock false s
    let slots := ix.clobberBearingBlocks.filter fun slot =>
      1 ≤ slot ∧ slot ≠ canonicalBlock ∧ slot ≠ useBlock ∧ slot ∈ fwd ∧ slot ∈ bwd
    ix.anyDefClobbers cap t mode loadPtr (slots.flatMap ix.blockClobbers) s

def anyClobberInBlocks (mode : MirAliasMode) (loadPtr : ℕ) (blocks : List ℕ)
    (s : ClobberMemo) : Option (Bool × ClobberMemo) :=
  ix.anyDefClobbers cap t mode loadPtr (blocks.flatMap ix.blockClobbers) s

/-- Push the successors of one popped block of the self-reachability walk; the flag says that
`blk` was re-reached. -/
def selfPush (blk avoid stamp : ℕ) : List ℕ → List ℕ → List ℕ → Bool × List ℕ × List ℕ
  | [], work, seen => (false, work, seen)
  | x :: xs, work, seen =>
    if x = 0 ∨ ix.mir.blockCount ≤ x then selfPush blk avoid stamp xs work seen
    else if avoid ≠ 0 ∧ x = avoid then selfPush blk avoid stamp xs work seen
    else if x = blk then (true, work, seen)
    else if seen.getD x 0 ≠ stamp then
      selfPush blk avoid stamp xs (x :: work) (seen.set x stamp)
    else selfPush blk avoid stamp xs work seen

/-- The self-reachability walk; `none` is the abort on the step cap. -/
def selfLoop (blk avoid stamp : ℕ) : ℕ → List ℕ → List ℕ → Option (Bool × List ℕ)
  | _, [], seen => some (false, seen)
  | 0, _ :: _, _ => none
  | fuel + 1, b :: work, seen =>
    match ix.selfPush blk avoid stamp (ix.mir.blockSuccessors b) work seen with
    | (true, _, seen) => some (true, seen)
    | (false, work, seen) => selfLoop blk avoid stamp fuel work seen

/-- The stamp array of the next walk and its stamp.  Stamps are 32-bit: after a wrap-around,
and on the first walk, the array is cleared. -/
def nextStamp (s : ClobberMemo) : List ℕ × ℕ :=
  if (s.reachSelfStamp + 1) % 2 ^ 32 = 0 ∨ s.reachSelfSeen.length ≠ ix.mir.blockCount then
    (List.replicate ix.mir.blockCount 0, 1)
  else (s.reachSelfSeen, (s.reachSelfStamp + 1) % 2 ^ 32)

def blockReachesItselfAvoiding (blk avoid : ℕ) (s : ClobberMemo) :
    Option (Bool × ClobberMemo) :=
  if blk = 0 ∨ ix.mir.blockCount ≤ blk then some (false, s)
  else if avoid ≠ 0 ∧ avoid = blk then some (false, s)
  else
    let (seen, stamp) := ix.nextStamp s
    match ix.selfPush blk avoid stamp (ix.mir.blockSuccessors blk) [] seen with
    | (true, _, seen) => some (true, { s with reachSelfSeen := seen, reachSelfStamp := stamp })
    | (false, work, seen) => do
      let (r, seen) ← ix.selfLoop blk avoid stamp (ix.mir.blockCount * 4 + 4) work seen
      return (r, { s with reachSelfSeen := seen, reachSelfStamp := stamp })

/-- **The point-to-point cover.**  May a clobber of `loadPtr` execute between the two program
points?  In one block the range between the points decides.  Otherwise the answer is composed
of (a) the tail of the first block, (b) the blocks strictly between, (c) the head of the second
block, and (d) its tail when it lies on a cycle that avoids the first block. -/
def anyClobberBetweenPoints (mode : MirAliasMode)
    (loadPtr fromBlock fromIdx toBlock toIdx : ℕ) (s : ClobberMemo) :
    Option (Bool × ClobberMemo) :=
  if ix.mir.blockInstCount fromBlock ≤ fromIdx ∨ ix.mir.blockInstCount toBlock ≤ toIdx then none
  else if fromBlock = toBlock then
    if toIdx ≤ fromIdx then none
    else ix.anyClobberInBlockRange cap t mode loadPtr fromBlock (fromIdx + 1) toIdx s
  else do
    let (a, s) ← ix.anyClobberInBlockRange cap t mode loadPtr fromBlock (fromIdx + 1)
      (ix.mir.blockInstCount fromBlock) s
    if a then return (true, s)
    let (b, s) ← ix.anyClobberBetween cap t mode loadPtr fromBlock toBlock s
    if b then return (true, s)
    let (c, s) ← ix.anyClobberInBlockRange cap t mode loadPtr toBlock 0 toIdx s
    if c then return (true, s)
    let (d, s) ← ix.anyClobberInBlockRange cap t mode loadPtr toBlock (toIdx + 1)
      (ix.mir.blockInstCount toBlock) s
    if !d then return (false, s)
    ix.blockReachesItselfAvoiding toBlock fromBlock s

inductive Query where
  | blockRange (mode : MirAliasMode) (loadPtr blk lo hi : ℕ)
  | between (mode : MirAliasMode) (loadPtr canonicalBlock useBlock : ℕ)
  | inBlocks (mode : MirAliasMode) (loadPtr : ℕ) (blocks : List ℕ)
  | betweenPoints (mode : MirAliasMode) (loadPtr fromBlock fromIdx toBlock toIdx : ℕ)
  | reachesItself (blk avoid : ℕ)

def ask : Query → ClobberMemo → Option (Bool × ClobberMemo)
  | .blockRange mode p b lo hi => ix.anyClobberInBlockRange cap t mode p b lo hi
  | .between mode p b u => ix.anyClobberBetween cap t mode p b u
  | .inBlocks mode p bs => ix.anyClobberInBlocks cap t mode p bs
  | .betweenPoints mode p b i b' i' => ix.anyClobberBetweenPoints cap t mode p b i b' i'
  | .reachesItself b a => ix.blockReachesItselfAvoiding b a

def askAll : List Query → ClobberMemo → Option ClobberMemo
  | [], s => some s
  | q :: qs, s => do
    let (_, s) ← ix.ask cap t q s
    askAll qs s

end MirMemoryClobbers

end DssPrime
