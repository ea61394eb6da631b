import DssPrime.Mir.Cfg
import DssPrime.Opt.Escape

/-!
# May two addresses alias, and what clobbers a load

`mirMayAlias` is the alias oracle of the optimiser and `mirInstClobbersLoadPtr` the one
predicate that says which instruction may change what a load through a pointer reads.
`mirAnyClobberOnPathBetweenPoints` is the reference answer to "may a value loaded at one
program point still be reused at another": an exhaustive walk of the graph of program points.
-/

namespace DssPrime

inductive MirAliasResult where
  | no | maybe | yes
  deriving DecidableEq

def mirPointeeType (t : TypeInterner) (ty : ℕ) : ℕ :=
  if ty = 0 then 0
  else if t.kind ty ≠ .ptr ∧ t.kind ty ≠ .ref then 0
  else (t.operands ty).headD 0

/-- The primitive kinds that strict type-based aliasing tells apart. -/
def isPrimitiveNonVoid : TypeKind → Bool
  | .bool | .i8 | .i16 | .i32 | .i64 | .u8 | .u16 | .u32 | .u64 | .f16 | .f32 | .f64 | .f80
  | .f128 | .char | .byte => true
  | _ => false

def isDistinctPrimitivePair (t : TypeInterner) (pointeeA pointeeB : ℕ) : Bool :=
  isPrimitiveNonVoid (t.kind pointeeA) && isPrimitiveNonVoid (t.kind pointeeB) &&
    t.kind pointeeA != t.kind pointeeB

/-- A pointee that may alias everything under the character exemption. -/
def isCharPointee (t : TypeInterner) (pointee : ℕ) : Bool :=
  t.kind pointee == .char || t.kind pointee == .byte

/-- How an alias question is asked: strict type-based aliasing or not, the character
exemption, and the escape analysis to consult, if any. -/
structure MirAliasMode where
  strictTbaa : Bool
  charTypesAliasAll : Bool
  deriving DecidableEq

variable (m : MirData) (t : TypeInterner)

/-- The alias oracle; `none` is the abort on an invalid identifier. -/
def mirMayAlias (mode : MirAliasMode) (escape : Option MirPointerEscape) (ptrA ptrB : ℕ) :
    Option MirAliasResult :=
  if ptrA = 0 ∨ ptrB = 0 then none
  else if ptrA = ptrB then some .yes
  else if m.instOpcode ptrA = .alloca ∧ m.instOpcode ptrB = .alloca then some .no
  else
    let pointeeA := mirPointeeType t (m.instType ptrA)
    let pointeeB := mirPointeeType t (m.instType ptrB)
    if pointeeA = 0 ∨ pointeeB = 0 then some .maybe
    else if escape.any fun e => e.provablyDisjoint m ptrA ptrB then some .no
    else if t.kind pointeeA = .void ∨ t.kind pointeeB = .void then some .maybe
    else if mode.charTypesAliasAll && (isCharPointee t pointeeA || isCharPointee t pointeeB) then
      some .maybe
    else if mode.strictTbaa && isDistinctPrimitivePair t pointeeA pointeeB then some .no
    else some .maybe

/-- The instruction may change what a load through `loadPtr` reads; `none` is an abort (a store
without an address, or an invalid identifier). -/
def mirInstClobbersLoadPtr (mode : MirAliasMode) (escape : Option MirPointerEscape)
    (loadPtr inst : ℕ) : Option Bool :=
  if m.instOpcode inst ≠ .store then some (opcodeClobbersMemory (m.instOpcode inst))
  else match m.instOperands inst with
    | _ :: storePtr :: _ => (mirMayAlias m t mode escape loadPtr storePtr).map (· != .no)
    | _ => none

/-- A program point: `(b, i)` is about to execute instruction `i` of block `b`; with `i` the
number of instructions, the terminator has run and a successor is about to be entered. -/
abbrev Point := ℕ × ℕ

def pointSuccs (barrier p : Point) : List Point :=
  (if p.2 < m.blockInstCount p.1 then [(p.1, p.2 + 1)]
    else ((m.blockSuccessors p.1).filter fun s => s ≠ 0 ∧ s < m.blockCount).map (·, 0)).filter
    (· ≠ barrier)

def pointPreds (preds : List (List ℕ)) (barrier p : Point) : List Point :=
  (if 0 < p.2 then [(p.1, p.2 - 1)]
    else ((preds.getD p.1 []).filter fun q => q ≠ 0 ∧ q < m.blockCount).map
      fun q => (q, m.blockInstCount q)).filter (· ≠ barrier)

/-- The number of program points: a bound on the length of a walk over them. -/
def pointCount : ℕ :=
  ((List.range m.blockCount).map fun b => m.blockInstCount b + 1).sum

/-- **The specification.**  Some instruction that clobbers `loadPtr` executes on a path that
starts just after `(fromBlock, fromIdx)` and ends at an execution of `(toBlock, toIdx)` without
executing the first point again.  `none` is an abort. -/
def mirAnyClobberOnPathBetweenPoints (mode : MirAliasMode) (escape : Option MirPointerEscape)
    (preds : List (List ℕ)) (loadPtr fromBlock fromIdx toBlock toIdx : ℕ) : Option Bool :=
  if preds.length ≠ m.blockCount then none
  else if m.blockInstCount fromBlock ≤ fromIdx ∨ m.blockInstCount toBlock ≤ toIdx then none
  else if fromBlock = toBlock ∧ toIdx ≤ fromIdx then none
  else do
    let barrier : Point := (fromBlock, fromIdx)
    let dest : Point := (toBlock, toIdx)
    let fwd ← Worklist.run (pointSuccs m barrier) (pointCount m)
      [(fromBlock, fromIdx + 1)] [(fromBlock, fromIdx + 1)]
    let bwd ← Worklist.run (pointPreds m preds barrier) (pointCount m) [dest] [dest]
    let hits := fwd.filter fun p =>
      p ≠ dest ∧ p.2 < m.blockInstCount p.1 ∧ (p.1, p.2 + 1) ∈ bwd
    hits.anyM fun p => mirInstClobbersLoadPtr m t mode escape loadPtr (m.blockInstAt p.1 p.2)

end DssPrime
