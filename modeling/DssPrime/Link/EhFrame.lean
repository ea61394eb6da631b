import Mathlib

/-!
# The decoder of unwind sections

The model of `dwarf_cfi_decode.hpp`: the readers of numbers, the decoder of the frame instructions
(`decodeCfaInstructions`) and the walk over the records of an `.eh_frame` section (`decodeEhFrame`),
with the checks of `cfi.hpp` (`validateCfiFunction`).

The header of a record is read out of the whole section, so the model of the walk (`Dec`) also keeps
which bytes of the section every read takes and which ranges it forms. The instructions of a record
are read out of a range of their own, as in the source, and so from nothing else. Refusals are kept
without their texts.
-/

namespace DssPrime.EhFrame

def byteAt (b : List UInt8) (pos : ℕ) : ℕ := ((b[pos]?).getD 0).toNat

def toInt64 (n : ℕ) : ℤ := (n : ℤ).bmod (2 ^ 64)

/-- The groups of a number from a position on, at most `n` of them; the position after them, or
after the last group that was read. -/
def readULebGroups (b : List UInt8) : ℕ → ℕ → ℕ → ℕ → Option ℕ × ℕ
  | 0, pos, _, _ => (none, pos)
  | n + 1, pos, shift, out =>
    if b.length ≤ pos then (none, pos)
    else
      let out := out ||| ((byteAt b pos &&& 0x7f) <<< shift) % 2 ^ 64
      if byteAt b pos &&& 0x80 = 0 then (some out, pos + 1)
      else readULebGroups b n (pos + 1) (shift + 7) out

def readULeb (b : List UInt8) (pos : ℕ) : Option ℕ × ℕ := readULebGroups b 10 pos 0 0

def readSLebGroups (b : List UInt8) : ℕ → ℕ → ℕ → ℕ → Option ℤ × ℕ
  | 0, pos, _, _ => (none, pos)
  | n + 1, pos, shift, result =>
    if b.length ≤ pos then (none, pos)
    else
      let result := result ||| ((byteAt b pos &&& 0x7f) <<< shift) % 2 ^ 64
      let shift := shift + 7
      if byteAt b pos &&& 0x80 = 0 then
        if shift < 64 ∧ byteAt b pos &&& 0x40 ≠ 0 then
          (some (toInt64 (result ||| (2 ^ 64 - 2 ^ shift))), pos + 1)
        else (some (toInt64 result), pos + 1)
      else readSLebGroups b n (pos + 1) shift result

def readSLeb (b : List UInt8) (pos : ℕ) : Option ℤ × ℕ := readSLebGroups b 10 pos 0 0

def leNumber (b : List UInt8) (pos : ℕ) : ℕ → ℕ
  | 0 => 0
  | n + 1 => byteAt b pos + 256 * leNumber b (pos + 1) n

def readLE (b : List UInt8) (w pos : ℕ) : Option ℕ × ℕ :=
  if b.length < pos + w then (none, pos) else (some (leNumber b pos w), pos + w)

def readU32LE (b : List UInt8) (pos : ℕ) : Option ℕ × ℕ := readLE b 4 pos

inductive CfiRegRef where
  | physical (ordinal : ℕ) | returnAddress

inductive CfiOpKind where
  | defCfa | defCfaRegister | defCfaOffset | adjustCfaOffset | regAtCfaOffset | regValIsCfaOffset
  | regInRegister | regSameValue | regUndefined | regRestoreInitial | rememberState | restoreState

/-- An unwind operation and where it takes effect. -/
structure CfiOp where
  pcOffset : ℕ
  kind : CfiOpKind
  reg : CfiRegRef
  srcReg : CfiRegRef
  offset : ℤ

structure CfiInitialState where
  cfaRegister : ℕ
  cfaOffset : ℤ
  returnAddressAtCfaOffset : Option ℤ
  returnAddressRegister : Option ℕ

def CfiInitialState.none : CfiInitialState := ⟨0, 0, Option.none, Option.none⟩

structure CfiFunction where
  codeLength : ℕ
  initial : CfiInitialState
  ops : List CfiOp

inductive Refusal where
  | sharedDwarfNumber (n : ℕ)
  | truncatedLength (recStart : ℕ) | longForm (recStart : ℕ)
  | recordPastEnd (recStart length : ℕ) | truncatedRecord (recStart : ℕ)
  | truncatedVersion | unknownVersion (recStart version : ℕ) | unterminatedAugmentation
  | truncatedCodeAlignment | zeroCodeAlignment | truncatedDataAlignment | zeroDataAlignment
  | truncatedReturnColumn | truncatedAddressSize | truncatedAugmentationLength
  | augmentationPastRecord | missingEncoding | personality (recStart : ℕ) | lsda (recStart : ℕ)
  | signalFrame (recStart : ℕ) | unknownAugmentation (recStart : ℕ) (c : UInt8)
  | augmentationWithoutLength (recStart : ℕ) | unknownEncoding (recStart encoding : ℕ)
  | cieBeforeSection (recStart : ℕ) | noCie (recStart cieStart : ℕ) | truncatedInitialLocation
  | truncatedAddressRange | longAddressRange (recStart range : ℕ)
  | fdeAugmentation (recStart augLen : ℕ) | fdePastRecord | malformedRules (recStart op : ℕ)
  | unknownRegister (n : ℕ) | truncatedOperand (opcode : ℕ) | expression (opcode : ℕ)
  | vendorOpcode (opcode : ℕ) | unknownOpcode (opcode : ℕ)
  | entryAdvances | entryBaseIsReturnAddress | entryRegisterRule | entryNoReturnRegister
  | entryRule (kind : CfiOpKind) | entryStateStack | noEntryCfa

structure TargetRegisterInfo where
  dwarfNumber : Option ℕ
  hwEncoding : ℕ
  widthBytes : ℕ

/-- The numbers that DWARF gives the registers. -/
structure DwarfRegisterMapping where
  registers : List TargetRegisterInfo
  returnAddressColumn : Option ℕ

structure DwarfRegisterReverseMap where
  regs : DwarfRegisterMapping
  rows : List (ℕ × ℕ)

namespace DwarfRegisterReverseMap

def row (regs : DwarfRegisterMapping) (ord : ℕ) : TargetRegisterInfo :=
  regs.registers.getD ord ⟨none, 0, 0⟩

def add (regs : DwarfRegisterMapping) (rows : List (ℕ × ℕ)) (ord : ℕ) :
    Except Refusal (List (ℕ × ℕ)) :=
  match (row regs ord).dwarfNumber with
  | none => .ok rows
  | some n =>
    match rows.lookup n with
    | none => .ok (rows ++ [(n, ord)])
    | some haveOrd =>
      if (row regs haveOrd).hwEncoding ≠ (row regs ord).hwEncoding then
        .error (.sharedDwarfNumber n)
      else if (row regs ord).widthBytes < (row regs haveOrd).widthBytes then
        .ok (rows.map fun r => if r.1 = n then (n, ord) else r)
      else .ok rows

def build (regs : DwarfRegisterMapping) : Except Refusal DwarfRegisterReverseMap := do
  let rows ← (List.range regs.registers.length).foldlM (add regs) []
  pure ⟨regs, rows⟩

def resolve (m : DwarfRegisterReverseMap) (n : ℕ) : Except Refusal CfiRegRef :=
  if m.regs.returnAddressColumn = some n then .ok .returnAddress
  else
    match m.rows.lookup n with
    | some ord => .ok (.physical ord)
    | none => .error (.unknownRegister n)

def physicalOnly (m : DwarfRegisterReverseMap) (n : ℕ) : Option ℕ := m.rows.lookup n

end DwarfRegisterReverseMap

/-- What a function's record needs of its common record. -/
structure DecodedCie where
  codeAlignmentFactor : ℕ
  dataAlignmentFactor : ℤ
  returnAddressColumn : ℕ
  fdePointerEncoding : ℕ
  hasZAugmentation : Bool
  initial : CfiInitialState

inductive CfaInsn where
  | nop
  | advance (delta : ℕ)
  | saved (kind : CfiOpKind) (reg : ℕ) (offset : ℤ)
  | rule (kind : CfiOpKind) (reg : ℕ)
  | restore (reg : ℕ)
  | register (reg src : ℕ)
  | state (kind : CfiOpKind)
  | cfa (reg : ℕ) (offset : ℤ)
  | cfaRegister (reg : ℕ)
  | cfaOffset (offset : ℤ)

structure CfaState where
  pos : ℕ
  pc : ℕ
  sawDefCfa : Bool
  initial : CfiInitialState
  ops : List CfiOp

def operand {α : Type} (opcode : ℕ) (r : Option α × ℕ) : Except Refusal (α × ℕ) :=
  match r.1 with
  | some a => .ok (a, r.2)
  | none => .error (.truncatedOperand opcode)

def mulInt64 (a b : ℤ) : ℤ := (a * b).bmod (2 ^ 64)

/-- An offset in units of the data alignment factor, with or without a sign. -/
def readOffset (body : List UInt8) (opcode : ℕ) (signedForm : Bool) (pos : ℕ) :
    Except Refusal (ℤ × ℕ) :=
  if signedForm then operand opcode (readSLeb body pos)
  else do
    let r ← operand opcode (readULeb body pos)
    pure (toInt64 r.1, r.2)

def readCfaInsn (body : List UInt8) (cie : DecodedCie) (op pos : ℕ) :
    Except Refusal (CfaInsn × ℕ) := do
  if op &&& 0xc0 = 0x40 then
    pure (.advance (op &&& 0x3f), pos)
  else if op &&& 0xc0 = 0x80 then
    let r ← operand op (readULeb body pos)
    pure (.saved .regAtCfaOffset (op &&& 0x3f) (mulInt64 (toInt64 r.1) cie.dataAlignmentFactor),
      r.2)
  else if op &&& 0xc0 = 0xc0 then
    pure (.restore (op &&& 0x3f), pos)
  else if op = 0x00 then
    pure (.nop, pos)
  else if op = 0x02 ∨ op = 0x03 ∨ op = 0x04 then
    let r ← operand op (readLE body (if op = 0x02 then 1 else if op = 0x03 then 2 else 4) pos)
    pure (.advance r.1, r.2)
  else if op = 0x05 ∨ op = 0x11 ∨ op = 0x14 ∨ op = 0x15 then
    let r ← operand op (readULeb body pos)
    let o ← readOffset body op (op = 0x11 ∨ op = 0x15) r.2
    pure (.saved (if op = 0x14 ∨ op = 0x15 then .regValIsCfaOffset else .regAtCfaOffset) r.1
      (mulInt64 o.1 cie.dataAlignmentFactor), o.2)
  else if op = 0x06 ∨ op = 0x07 ∨ op = 0x08 then
    let r ← operand op (readULeb body pos)
    pure (if op = 0x06 then .restore r.1
      else .rule (if op = 0x07 then .regUndefined else .regSameValue) r.1, r.2)
  else if op = 0x09 then
    let r ← operand op (readULeb body pos)
    let s ← operand op (readULeb body r.2)
    pure (.register r.1 s.1, s.2)
  else if op = 0x0a ∨ op = 0x0b then
    pure (.state (if op = 0x0a then .rememberState else .restoreState), pos)
  else if op = 0x0c ∨ op = 0x12 then
    let r ← operand op (readULeb body pos)
    let o ← readOffset body op (op = 0x12) r.2
    pure (.cfa r.1 (if op = 0x12 then mulInt64 o.1 cie.dataAlignmentFactor else o.1), o.2)
  else if op = 0x0d then
    let r ← operand op (readULeb body pos)
    pure (.cfaRegister r.1, r.2)
  else if op = 0x0e ∨ op = 0x13 then
    let o ← readOffset body op (op = 0x13) pos
    pure (.cfaOffset (if op = 0x13 then mulInt64 o.1 cie.dataAlignmentFactor else o.1), o.2)
  else if op = 0x0f ∨ op = 0x10 ∨ op = 0x16 then .error (.expression op)
  else if 0x1c ≤ op then .error (.vendorOpcode op)
  else .error (.unknownOpcode op)

def foldEntry (cie : DecodedCie) (rev : DwarfRegisterReverseMap) (st : CfaState) (op : CfiOp) :
    Except Refusal CfaState :=
  if st.pc ≠ 0 then .error .entryAdvances
  else
    match op.kind, op.reg with
    | .defCfa, .returnAddress | .defCfaRegister, .returnAddress => .error .entryBaseIsReturnAddress
    | .defCfa, .physical r =>
      .ok { st with
        sawDefCfa := true
        initial := { st.initial with cfaRegister := r, cfaOffset := op.offset } }
    | .defCfaRegister, .physical r =>
      .ok { st with sawDefCfa := true, initial := { st.initial with cfaRegister := r } }
    | .defCfaOffset, _ => .ok { st with initial := { st.initial with cfaOffset := op.offset } }
    | .regAtCfaOffset, .physical _ => .error .entryRegisterRule
    | .regAtCfaOffset, .returnAddress =>
      .ok { st with initial := { st.initial with
        returnAddressAtCfaOffset := some op.offset, returnAddressRegister := none } }
    | .regInRegister, .physical _ | .regSameValue, .physical _ => .error .entryRegisterRule
    | .regInRegister, .returnAddress | .regSameValue, .returnAddress =>
      match op.srcReg with
      | .physical r =>
        .ok { st with initial := { st.initial with
          returnAddressAtCfaOffset := none, returnAddressRegister := some r } }
      | .returnAddress =>
        match rev.physicalOnly cie.returnAddressColumn with
        | none => .error .entryNoReturnRegister
        | some r =>
          .ok { st with initial := { st.initial with
            returnAddressAtCfaOffset := none, returnAddressRegister := some r } }
    | kind, _ => .error (.entryRule kind)

def push (cie : DecodedCie) (rev : DwarfRegisterReverseMap) (initialPass : Bool) (st : CfaState)
    (kind : CfiOpKind) (reg src : CfiRegRef) (offset : ℤ) : Except Refusal CfaState :=
  if initialPass then foldEntry cie rev st ⟨st.pc, kind, reg, src, offset⟩
  else .ok { st with ops := st.ops ++ [⟨st.pc, kind, reg, src, offset⟩] }

def applyCfaInsn (cie : DecodedCie) (rev : DwarfRegisterReverseMap) (initialPass : Bool)
    (st : CfaState) : CfaInsn → Except Refusal CfaState
  | .nop => .ok st
  | .advance delta =>
    .ok { st with pc := (st.pc + delta * cie.codeAlignmentFactor % 2 ^ 64) % 2 ^ 32 }
  | .saved kind reg offset => do
    push cie rev initialPass st kind (← rev.resolve reg) (.physical 0) offset
  | .rule kind reg => do
    let r ← rev.resolve reg
    push cie rev initialPass st kind r r 0
  | .restore reg => do
    push cie rev initialPass st .regRestoreInitial (← rev.resolve reg) (.physical 0) 0
  | .register reg src => do
    let r ← rev.resolve reg
    push cie rev initialPass st .regInRegister r (← rev.resolve src) 0
  | .state kind =>
    if initialPass then .error .entryStateStack
    else .ok { st with ops := st.ops ++ [⟨st.pc, kind, .physical 0, .physical 0, 0⟩] }
  | .cfa reg offset => do
    push cie rev initialPass st .defCfa (← rev.resolve reg) (.physical 0) offset
  | .cfaRegister reg => do
    push cie rev initialPass st .defCfaRegister (← rev.resolve reg) (.physical 0) 0
  | .cfaOffset offset =>
    push cie rev initialPass st .defCfaOffset (.physical 0) (.physical 0) offset

def cfaStep (body : List UInt8) (cie : DecodedCie) (rev : DwarfRegisterReverseMap)
    (initialPass : Bool) (st : CfaState) : Except Refusal CfaState := do
  let insn ← readCfaInsn body cie (byteAt body st.pos) (st.pos + 1)
  let st ← applyCfaInsn cie rev initialPass st insn.1
  pure { st with pos := insn.2 }

/-- The instructions of a range; nothing if they do not end in `turns` turns. -/
def cfaLoop (body : List UInt8) (cie : DecodedCie) (rev : DwarfRegisterReverseMap)
    (initialPass : Bool) : ℕ → CfaState → Option (Except Refusal CfaState)
  | 0, st => if body.length ≤ st.pos then some (.ok st) else none
  | turns + 1, st =>
    if body.length ≤ st.pos then some (.ok st)
    else
      match cfaStep body cie rev initialPass st with
      | .error e => some (.error e)
      | .ok st => cfaLoop body cie rev initialPass turns st

def decodeCfaInstructions (body : List UInt8) (cie : DecodedCie) (rev : DwarfRegisterReverseMap)
    (initialPass : Bool) : Option (Except Refusal CfaState) :=
  (cfaLoop body cie rev initialPass body.length ⟨0, 0, false, cie.initial, []⟩).map fun r => do
    let st ← r
    if initialPass && !st.sawDefCfa then .error .noEntryCfa else pure st

def validateCfiFunction (codeLength : ℕ) : ℕ → ℕ → ℕ → List CfiOp → Option ℕ
  | _, _, _, [] => none
  | i, last, depth, op :: ops =>
    if op.pcOffset < last ∨ codeLength < op.pcOffset then some i
    else
      match op.kind, op.reg with
      | .restoreState, _ =>
        if depth = 0 then some i
        else validateCfiFunction codeLength (i + 1) op.pcOffset (depth - 1) ops
      | .rememberState, _ => validateCfiFunction codeLength (i + 1) op.pcOffset (depth + 1) ops
      | .defCfa, .returnAddress | .defCfaRegister, .returnAddress => some i
      | _, _ => validateCfiFunction codeLength (i + 1) op.pcOffset depth ops

inductive Stop where
  | refused (r : Refusal)
  | badRange
  | outOfTurns

/-- A part of the decoder that reads from a position of the section: it returns a value or stops,
with the position after it and the ranges of bytes that it read or formed. -/
def Dec (α : Type) : Type := ℕ → (Except Stop α × ℕ) × List (ℕ × ℕ)

namespace Dec

def andThen {α β : Type} (x : Dec α) (f : α → Dec β) : Dec β := fun pos =>
  match x pos with
  | ((.ok a, pos'), uses) => ((f a pos').1, uses ++ (f a pos').2)
  | ((.error e, pos'), uses) => ((.error e, pos'), uses)

instance : Monad Dec where
  pure a := fun pos => ((.ok a, pos), [])
  bind := andThen

def stop {α : Type} (e : Stop) : Dec α := fun pos => ((.error e, pos), [])

def refuse {α : Type} (r : Refusal) : Dec α := stop (.refused r)

def getPos : Dec ℕ := fun pos => ((.ok pos, pos), [])

def setPos (pos : ℕ) : Dec Unit := fun _ => ((.ok (), pos), [])

def range (lo hi : ℕ) : Dec Unit := fun pos => ((.ok (), pos), [(lo, hi)])

def read {α : Type} (reader : ℕ → Option α × ℕ) : Dec (Option α) := fun pos =>
  ((.ok (reader pos).1, (reader pos).2), [(pos, (reader pos).2)])

def byte (b : List UInt8) : Dec ℕ := fun pos => ((.ok (byteAt b pos), pos + 1), [(pos, pos + 1)])

end Dec

open Dec

/-- The characters up to the next zero byte before `recEnd`, and where it stands. -/
def augmentationChars (b : List UInt8) (recEnd : ℕ) : ℕ → ℕ → List UInt8 × ℕ
  | 0, pos => ([], pos)
  | n + 1, pos =>
    if pos < recEnd ∧ byteAt b pos ≠ 0 then
      let r := augmentationChars b recEnd n (pos + 1)
      ((b[pos]?).getD 0 :: r.1, r.2)
    else ([], pos)

def augmentationString (b : List UInt8) (recEnd : ℕ) : Dec (List UInt8) := do
  let pos ← getPos
  let r := augmentationChars b recEnd (recEnd - pos) pos
  range pos (min recEnd (r.2 + 1))
  setPos r.2
  if recEnd ≤ r.2 then refuse .unterminatedAugmentation
  else do
    setPos (r.2 + 1)
    pure r.1

/-- The numbers of a common record: the two factors and the column of the return address. -/
def cieNumbers (b : List UInt8) (recEnd version : ℕ) : Dec (ℕ × ℤ × ℕ) := do
  match ← read (readULeb b) with
  | none => refuse .truncatedCodeAlignment
  | some caf =>
    if caf = 0 then refuse .zeroCodeAlignment
    else
      match ← read (readSLeb b) with
      | none => refuse .truncatedDataAlignment
      | some daf =>
        if daf = 0 then refuse .zeroDataAlignment
        else if version = 1 then do
          if recEnd ≤ (← getPos) then refuse .truncatedReturnColumn
          else do
            let ra ← byte b
            pure (caf, daf, ra)
        else
          match ← read (readULeb b) with
          | none => refuse .truncatedReturnColumn
          | some ra => pure (caf, daf, ra)

def addressSizes (recEnd version : ℕ) : Dec Unit := do
  if version = 4 then
    let pos ← getPos
    if recEnd < pos + 2 then refuse .truncatedAddressSize
    else do
      range pos (pos + 2)
      setPos (pos + 2)
  else pure ()

def augmentationFields (b : List UInt8) (recStart augEnd : ℕ) : List UInt8 → ℕ → Dec ℕ
  | [], encoding => pure encoding
  | c :: cs, _ => do
    if c = 82 then
      if augEnd ≤ (← getPos) then refuse .missingEncoding
      else do
        augmentationFields b recStart augEnd cs (← byte b)
    else if c = 80 then refuse (.personality recStart)
    else if c = 76 then refuse (.lsda recStart)
    else if c = 83 then refuse (.signalFrame recStart)
    else refuse (.unknownAugmentation recStart c)

/-- The augmentation data of a common record: the encoding of addresses. -/
def cieAugmentation (b : List UInt8) (recStart recEnd : ℕ) (aug : List UInt8) : Dec (ℕ × Bool) :=
  match aug with
  | [] => pure (0xff, false)
  | c :: cs =>
    if c = 122 then do
      match ← read (readULeb b) with
      | none => refuse .truncatedAugmentationLength
      | some augLen =>
        let pos ← getPos
        let augEnd := (pos + augLen) % 2 ^ 64
        if recEnd < augEnd then refuse .augmentationPastRecord
        else do
          range pos augEnd
          let encoding ← augmentationFields b recStart augEnd cs 0xff
          setPos augEnd
          pure (encoding, true)
    else refuse (.augmentationWithoutLength recStart)

def dwEhPeIsEightByteField (encoding : ℕ) : Bool := encoding = 0x00 || encoding = 0x10

def recordInstructions (b : List UInt8) (recEnd : ℕ) (cie : DecodedCie)
    (rev : DwarfRegisterReverseMap) (initialPass : Bool) : Dec CfaState := do
  let pos ← getPos
  range pos recEnd
  if recEnd < pos then stop .badRange
  else
    match decodeCfaInstructions ((b.take recEnd).drop pos) cie rev initialPass with
    | none => stop .outOfTurns
    | some (.error e) => refuse e
    | some (.ok st) => do
      setPos (pos + st.pos)
      pure st

def readCie (b : List UInt8) (rev : DwarfRegisterReverseMap) (recStart recEnd : ℕ) :
    Dec DecodedCie := do
  if recEnd ≤ (← getPos) then refuse .truncatedVersion
  else
    let version ← byte b
    if version ≠ 1 ∧ version ≠ 3 ∧ version ≠ 4 then refuse (.unknownVersion recStart version)
    else
      let aug ← augmentationString b recEnd
      let numbers ← cieNumbers b recEnd version
      addressSizes recEnd version
      let data ← cieAugmentation b recStart recEnd aug
      -- without an encoding, addresses are absolute
      let encoding := if data.1 = 0xff then 0x00 else data.1
      if encoding ≠ 0x1b ∧ dwEhPeIsEightByteField encoding = false then
        refuse (.unknownEncoding recStart encoding)
      else
        let cie : DecodedCie :=
          ⟨numbers.1, numbers.2.1, numbers.2.2, encoding, data.2, CfiInitialState.none⟩
        let st ← recordInstructions b recEnd cie rev true
        -- a return address without a rule is still in the register of its column, if it has one
        if st.initial.returnAddressAtCfaOffset = none ∧ st.initial.returnAddressRegister = none then
          pure { cie with initial :=
            { st.initial with returnAddressRegister := rev.physicalOnly numbers.2.2 } }
        else pure { cie with initial := st.initial }

structure DecodedFde where
  initialLocationFieldOffset : ℕ
  storedInitialLocation : ℤ
  pointerEncoding : ℕ
  cfi : CfiFunction

def fdeAddresses (b : List UInt8) (encoding : ℕ) : Dec (ℤ × ℕ) := do
  let w := if dwEhPeIsEightByteField encoding then 8 else 4
  match ← read (readLE b w) with
  | none => refuse .truncatedInitialLocation
  | some location =>
    match ← read (readLE b w) with
    | none => refuse .truncatedAddressRange
    | some range => pure ((location : ℤ).bmod (2 ^ (8 * w)), range)

/-- The length of a function's augmentation data, which must be zero. -/
def fdeAugmentation (b : List UInt8) (recStart : ℕ) (cie : DecodedCie) : Dec Unit := do
  if cie.hasZAugmentation then
    match ← read (readULeb b) with
    | none => refuse .truncatedAugmentationLength
    | some augLen => if augLen ≠ 0 then refuse (.fdeAugmentation recStart augLen) else pure ()
  else pure ()

def readFde (b : List UInt8) (rev : DwarfRegisterReverseMap) (cies : List (ℕ × DecodedCie))
    (recStart recEnd ciePtr : ℕ) : Dec DecodedFde := do
  if recStart + 4 < ciePtr then refuse (.cieBeforeSection recStart)
  else
    match cies.lookup (recStart + 4 - ciePtr) with
    | none => refuse (.noCie recStart (recStart + 4 - ciePtr))
    | some cie =>
      let fieldOffset ← getPos
      let addresses ← fdeAddresses b cie.fdePointerEncoding
      if 0xffffffff < addresses.2 then refuse (.longAddressRange recStart addresses.2)
      else
        fdeAugmentation b recStart cie
        if recEnd < (← getPos) then refuse .fdePastRecord
        else
          let st ← recordInstructions b recEnd cie rev false
          match validateCfiFunction addresses.2 0 0 0 st.ops with
          | some i => refuse (.malformedRules recStart i)
          | none =>
            pure ⟨fieldOffset % 2 ^ 32, addresses.1, cie.fdePointerEncoding,
              ⟨addresses.2, cie.initial, st.ops⟩⟩

structure Found where
  cies : List (ℕ × DecodedCie)
  fdes : List DecodedFde

def readRecord (b : List UInt8) (rev : DwarfRegisterReverseMap) (found : Found)
    (recStart recEnd : ℕ) : Dec Found := do
  match ← read (readU32LE b) with
  | none => refuse (.truncatedRecord recStart)
  | some idOrCiePtr =>
    if idOrCiePtr = 0 then do
      let cie ← readCie b rev recStart recEnd
      pure { found with cies := found.cies ++ [(recStart, cie)] }
    else do
      let fde ← readFde b rev found.cies recStart recEnd idOrCiePtr
      pure { found with fdes := found.fdes ++ [fde] }

/-- A record that the walk came to: what was found before it, its place, and how its decoding ended,
with the position after it and the ranges that were read or formed. -/
structure Visit where
  found : Found
  recStart : ℕ
  recEnd : ℕ
  result : (Except Stop Found × ℕ) × List (ℕ × ℕ)

/-- How the decoding of a section ends. -/
inductive Outcome where
  | accepted (found : Found) | stopped (e : Stop) | outOfTurns

def walkRecords (b : List UInt8) (rev : DwarfRegisterReverseMap) :
    ℕ → ℕ → Found → List Visit × Outcome
  | 0, _, _ => ([], .outOfTurns)
  | turns + 1, pos, found =>
    if b.length < pos + 4 then ([], .accepted found)
    else
      let length := leNumber b pos 4
      if length = 0 then ([], .accepted found)
      else if length = 0xffffffff then ([], .stopped (.refused (.longForm pos)))
      else if b.length < pos + 4 + length then
        ([], .stopped (.refused (.recordPastEnd pos length)))
      else
        let visit : Visit := ⟨found, pos, pos + 4 + length,
          readRecord b rev found pos (pos + 4 + length) (pos + 4)⟩
        match visit.result.1.1 with
        | .error e => ([visit], .stopped e)
        | .ok found =>
          let r := walkRecords b rev turns (pos + 4 + length) found
          (visit :: r.1, r.2)

/-- The unwind section: the records the walk came to, and what was decoded. -/
def decodeEhFrame (b : List UInt8) (regs : DwarfRegisterMapping) : List Visit × Outcome :=
  match DwarfRegisterReverseMap.build regs with
  | .error e => ([], .stopped (.refused e))
  | .ok rev => walkRecords b rev (b.length + 1) 0 ⟨[], []⟩

end DssPrime.EhFrame
