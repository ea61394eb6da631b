import Mathlib
import DssPrime.Codec.CursorReader
import DssPrime.Mir.Basic

/-!
# The wire format of module summaries

A summary is written as the magic, the version, two strings and four counted sections; integers are
little-endian, a string or a list goes behind its 32-bit length, a boolean is one byte. The decoder
screens every count against the fewest bytes its rows can take before it reserves.
-/

namespace DssPrime.SummaryWire

open Codec Codec.Reader

abbrev Str := List Byte

structure SummaryCallSite where
  calleeName : Str
  direct : Bool
  loopDepth : BitVec 32

structure SummaryFunction where
  name : Str
  symbol : BitVec 32
  binding : SymbolBinding
  visibility : SymbolVisibility
  instCount : BitVec 32
  argExtent : BitVec 32
  blockCount : BitVec 32
  noInline : Bool
  alwaysInline : Bool
  noOptimize : Bool
  hasComputedGoto : Bool
  hasSeh : Bool
  frameBound : Bool
  hasReturn : Bool
  hasIndirectCall : Bool
  isInlineDefinition : Bool
  symbolRefs : List Str
  calls : List SummaryCallSite

structure SummaryGlobal where
  name : Str
  symbol : BitVec 32
  binding : SymbolBinding
  visibility : SymbolVisibility
  isConst : Bool
  isThreadLocal : Bool
  alignmentBytes : BitVec 32
  hasInitFunc : Bool
  initSymbolRefs : List Str

structure SummaryImport where
  mangledName : Str
  libraryPath : Str
  version : Str
  symbol : BitVec 32
  isData : Bool
  isThreadLocal : Bool

structure ModuleSummary where
  moduleDigest : Str
  targetIdentity : Str
  functions : List SummaryFunction
  globals : List SummaryGlobal
  imports : List SummaryImport
  escapedSymbolNames : List Str

def putU32 (v : BitVec 32) : List Byte :=
  [(v &&& 0xFF#32).setWidth 8, ((v >>> 8) &&& 0xFF#32).setWidth 8,
    ((v >>> 16) &&& 0xFF#32).setWidth 8, ((v >>> 24) &&& 0xFF#32).setWidth 8]

def putU8 (v : Byte) : List Byte := [v]

def putBool (v : Bool) : List Byte := [if v then 1#8 else 0#8]

/-- `static_cast<std::uint32_t>(v.size())`, then the elements. -/
def putCounted {α : Type} (put : α → List Byte) (v : List α) : List Byte :=
  putU32 (BitVec.ofNat 32 v.length) ++ v.flatMap put

def putStr (s : Str) : List Byte := putU32 (BitVec.ofNat 32 s.length) ++ s

def putStrs (v : List Str) : List Byte := putCounted putStr v

def bindingByte : SymbolBinding → Byte
  | .local => 0#8
  | .global => 1#8
  | .weak => 2#8

def visibilityByte : SymbolVisibility → Byte
  | .default => 0#8
  | .hidden => 1#8
  | .protected => 2#8
  | .internal => 3#8

def putCallSite (c : SummaryCallSite) : List Byte :=
  putStr c.calleeName ++ (putBool c.direct ++ putU32 c.loopDepth)

def putFunction (f : SummaryFunction) : List Byte :=
  putStr f.name ++ (putU32 f.symbol ++ (putU8 (bindingByte f.binding) ++
    (putU8 (visibilityByte f.visibility) ++ (putU32 f.instCount ++ (putU32 f.argExtent ++
    (putU32 f.blockCount ++ (putBool f.noInline ++ (putBool f.alwaysInline ++
    (putBool f.noOptimize ++ (putBool f.hasComputedGoto ++ (putBool f.hasSeh ++
    (putBool f.frameBound ++ (putBool f.hasReturn ++ (putBool f.hasIndirectCall ++
    (putBool f.isInlineDefinition ++ (putStrs f.symbolRefs ++
    putCounted putCallSite f.calls))))))))))))))))

def putGlobal (g : SummaryGlobal) : List Byte :=
  putStr g.name ++ (putU32 g.symbol ++ (putU8 (bindingByte g.binding) ++
    (putU8 (visibilityByte g.visibility) ++ (putBool g.isConst ++ (putBool g.isThreadLocal ++
    (putU32 g.alignmentBytes ++ (putBool g.hasInitFunc ++ putStrs g.initSymbolRefs)))))))

def putImport (i : SummaryImport) : List Byte :=
  putStr i.mangledName ++ (putStr i.libraryPath ++ (putStr i.version ++ (putU32 i.symbol ++
    (putBool i.isData ++ putBool i.isThreadLocal))))

def kMagic : List Byte := [0x44#8, 0x53#8, 0x53#8, 0x53#8, 0x55#8, 0x4D#8, 0#8]

def kMagicBytes : ℕ := 7

def kSummaryFormatVersion : BitVec 32 := 1#32

def encodeModuleSummary (s : ModuleSummary) : List Byte :=
  kMagic ++ (putU32 kSummaryFormatVersion ++ (putStr s.moduleDigest ++
    (putStr s.targetIdentity ++ (putCounted putFunction s.functions ++
    (putCounted putGlobal s.globals ++ (putCounted putImport s.imports ++
    putStrs s.escapedSymbolNames))))))

def leWord (b₀ b₁ b₂ b₃ : Byte) : BitVec 32 :=
  b₀.setWidth 32 ||| (b₁.setWidth 32 <<< 8) ||| (b₂.setWidth 32 <<< 16) ||| (b₃.setWidth 32 <<< 24)

def u32 : Reader (BitVec 32) := do
  if !(← need 4) then return 0#32
  let b₀ ← peekByte 0
  let b₁ ← peekByte 1
  let b₂ ← peekByte 2
  let b₃ ← peekByte 3
  advance 4
  return leWord b₀ b₁ b₂ b₃

def u8 : Reader Byte := do
  if !(← need 1) then return 0#8
  let x ← peekByte 0
  advance 1
  return x

def boolean : Reader Bool := do
  return (← u8) != 0#8

def strBytes (n : ℕ) : Reader Str := do
  if !(← need n) then return []
  let s ← bytesAt n
  advance n
  return s

def str : Reader Str := do
  let n ← u32
  strBytes n.toNat

/-- The strings of a list whose length has been read; a count that its own prefixes do not fit
sets the flag. -/
def strRows (n : ℕ) : Reader (List Str) := do
  if !(← need (n * 4)) then return []
  reserve n 4
  rows str n

def strs : Reader (List Str) := do
  let n ← u32
  if ← isBad then return []
  strRows n.toNat

def countFits (n minRowBytes : ℕ) : Reader Bool := need (n * minRowBytes)

def countedRows {α : Type} (minRowBytes : ℕ) (row : Reader α) (n : ℕ) : Reader (List α) := do
  if !(← countFits n minRowBytes) then refuse
  reserve n minRowBytes
  rows row n

def counted {α : Type} (minRowBytes : ℕ) (row : Reader α) : Reader (List α) := do
  let n ← u32
  countedRows minRowBytes row n.toNat

def decodeBinding (v : Byte) : Option SymbolBinding :=
  if v = 0#8 then some .local else if v = 1#8 then some .global else if v = 2#8 then some .weak
  else none

def decodeVisibility (v : Byte) : Option SymbolVisibility :=
  if v = 0#8 then some .default else if v = 1#8 then some .hidden
  else if v = 2#8 then some .protected else if v = 3#8 then some .internal else none

def declared {α : Type} : Option α → Reader α
  | some x => return x
  | none => refuse

def enumerator {α : Type} (decode : Byte → Option α) : Reader α := do
  declared (decode (← u8))

def callSite : Reader SummaryCallSite := do
  let calleeName ← str
  let direct ← boolean
  let loopDepth ← u32
  return { calleeName, direct, loopDepth }

def functionRow : Reader SummaryFunction := do
  let name ← str
  let symbol ← u32
  let binding ← enumerator decodeBinding
  let visibility ← enumerator decodeVisibility
  let instCount ← u32
  let argExtent ← u32
  let blockCount ← u32
  let noInline ← boolean
  let alwaysInline ← boolean
  let noOptimize ← boolean
  let hasComputedGoto ← boolean
  let hasSeh ← boolean
  let frameBound ← boolean
  let hasReturn ← boolean
  let hasIndirectCall ← boolean
  let isInlineDefinition ← boolean
  let symbolRefs ← strs
  let calls ← counted 9 callSite
  return { name, symbol, binding, visibility, instCount, argExtent, blockCount, noInline,
           alwaysInline, noOptimize, hasComputedGoto, hasSeh, frameBound, hasReturn,
           hasIndirectCall, isInlineDefinition, symbolRefs, calls }

def globalRow : Reader SummaryGlobal := do
  let name ← str
  let symbol ← u32
  let binding ← enumerator decodeBinding
  let visibility ← enumerator decodeVisibility
  let isConst ← boolean
  let isThreadLocal ← boolean
  let alignmentBytes ← u32
  let hasInitFunc ← boolean
  let initSymbolRefs ← strs
  return { name, symbol, binding, visibility, isConst, isThreadLocal, alignmentBytes, hasInitFunc,
           initSymbolRefs }

def importRow : Reader SummaryImport := do
  let mangledName ← str
  let libraryPath ← str
  let version ← str
  let symbol ← u32
  let isData ← boolean
  let isThreadLocal ← boolean
  return { mangledName, libraryPath, version, symbol, isData, isThreadLocal }

def matchesFrom : List Byte → ℕ → Reader Unit
  | [], _ => return ()
  | m :: ms, i => do
    if (← peekByte i) != m then refuse
    matchesFrom ms (i + 1)

def magic : Reader Unit := do
  if !(← need kMagicBytes) then refuse
  matchesFrom kMagic 0
  advance kMagicBytes

def version : Reader Unit := do
  if (← u32) != kSummaryFormatVersion then refuse

def summary : Reader ModuleSummary := do
  magic
  version
  let moduleDigest ← str
  let targetIdentity ← str
  let functions ← counted 39 functionRow
  let globals ← counted 21 globalRow
  let imports ← counted 18 importRow
  let escapedSymbolNames ← strs
  return { moduleDigest, targetIdentity, functions, globals, imports, escapedSymbolNames }

/-- A buffer that failed anywhere, or that is not used up, is refused. -/
def decodeModuleSummary (bytes : List Byte) : Except Halt ModuleSummary :=
  match summary bytes ⟨0, false⟩ with
  | .error e => .error e
  | .ok (s, c) =>
    if c.bad then .error .refused
    else if c.pos ≠ bytes.length then .error .refused
    else .ok s

end DssPrime.SummaryWire
