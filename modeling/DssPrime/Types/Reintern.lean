import DssPrime.Run.Outcome
import DssPrime.Types.CompositeIdentity
import DssPrime.Types.StructLayout

/-!
# Interning types again in a host

The model of `reinternType` (`type_reintern.cpp`) and of what it uses of the host's interner
(`type_lattice.cpp`): types that are no composites are found by their content or added, composites
are minted without fields under their kind, name and key and completed once their fields are known.
A composite that is completed again must be completed alike, or the program stops.

The walk goes through the composites of a unit, which may refer to each other, so it takes fuel.
`TypeArena.Interned` says that an arena is as its own builders left it: every type is what its
builder makes of its own parts.
-/

namespace DssPrime

inductive ReinternFatal where
  | noBuilder
  /-- A type without an operand or a number that its kind has. -/
  | malformed
  /-- Fields stated in part, or in two ways that exclude each other. -/
  | channels
  | conflictingFields
  | outOfFuel
  deriving DecidableEq

structure HostType (K : Type) where
  record : TypeRecord
  declSiteKey : Option K
  deriving DecidableEq

structure Host (K : Type) where
  types : List (HostType K)

variable {K : Type} [DecidableEq K]

def Host.get? (h : Host K) (id : ℕ) : Option (HostType K) :=
  if id = 0 then none else h.types[id - 1]?

/-- A type that is no composite, from its parts.  Whether it is variadic, its qualifiers and its
alignment are read off the numbers. -/
def contentRecord (kind : TypeKind) (extensionKind : UInt32) (operands : List ℕ)
    (scalars : List UInt64) (name : List UInt8) : TypeRecord where
  kind := kind
  name := name
  extensionKind := extensionKind
  operands := operands
  scalars := scalars
  isVariadic := decide (kind = .fnSig ∧ scalars.getD 1 0 ≠ 0)
  qualifierBits := if kind = .volatileQual then (scalars.getD 0 0).toUInt8 else 0
  alignOverride := if kind = .volatileQual then (scalars.getD 1 0).toUInt32 else 0
  composite := default

def Host.internContent (h : Host K) (r : TypeRecord) : Except ReinternFatal (ℕ × Host K) :=
  if decide (r.kind = .extension) ≠ decide (r.extensionKind ≠ 0) then .error .malformed
  else
    match h.types.findIdx? fun t => decide (t = ⟨r, none⟩) with
    | some i => .ok (i + 1, h)
    | none => .ok (h.types.length + 1, ⟨h.types ++ [⟨r, none⟩]⟩)

def materialId (kindOf : ℕ → Option TypeRecord) : ℕ → ℕ → ℕ
  | 0, id => id
  | fuel + 1, id =>
    match kindOf id with
    | none => id
    | some r =>
      if r.kind = .volatileQual then materialId kindOf fuel (r.operands.headD 0) else id

def Host.record? (h : Host K) (id : ℕ) : Option TypeRecord := (h.get? id).map HostType.record

/-- A qualified type: the qualifiers join those that are there, the alignment replaces the one that
is there. -/
def Host.qualified (h : Host K) (inner : ℕ) (addBits : UInt8) (addAlign : UInt32) :
    Except ReinternFatal (ℕ × Host K) :=
  if inner = 0 then .ok (0, h)
  else
    let here := (h.record? inner).getD default
    let merged := (if here.kind = .volatileQual then here.qualifierBits else 0) ||| addBits
    let mergedAlign :=
      if addAlign ≠ 0 then addAlign
      else if here.kind = .volatileQual then here.alignOverride else 0
    let base := materialId h.record? inner inner
    if merged = 0 ∧ mergedAlign = 0 then .ok (base, h)
    else
      h.internContent (contentRecord .volatileQual 0 [base]
        (merged.toUInt64 :: if mergedAlign = 0 then [] else [mergedAlign.toUInt64]) [])

/-- What the builder of a kind makes of the parts of a type and other operands.  An enumeration is
built over the type under the qualifiers of its operand, which must have the kind it states. -/
def rebuilt (kindOf : ℕ → Option TypeRecord) (r : TypeRecord) (ops : List ℕ) :
    Except ReinternFatal TypeRecord :=
  match r.kind with
  | .ptr | .ref | .nullable | .optional | .slice | .complex =>
    match ops with
    | op :: _ => .ok (contentRecord r.kind 0 [op] [] [])
    | [] => .error .malformed
  | .vector | .array =>
    match ops, r.scalars with
    | op :: _, n :: _ => .ok (contentRecord r.kind 0 [op] [n] [])
    | _, _ => .error .malformed
  | .matrix =>
    match ops, r.scalars with
    | op :: _, rows :: cols :: _ => .ok (contentRecord .matrix 0 [op] [rows, cols] [])
    | _, _ => .error .malformed
  | .bitInt =>
    match r.scalars with
    | width :: rest =>
      .ok (contentRecord .bitInt 0 [] [width, if rest.headD 0 ≠ 0 then 1 else 0] [])
    | [] => .error .malformed
  | .tuple => .ok (contentRecord .tuple 0 ops [] [])
  | .enum =>
    match r.scalars with
    | [] => .error .malformed
    | underlying :: rest =>
      match ops with
      | [] => .ok (contentRecord .enum 0 [] [underlying] r.name)
      | op :: _ =>
        if op = 0 then .ok (contentRecord .enum 0 [] [underlying] r.name)
        else
          let declared := materialId kindOf op op
          match kindOf declared with
          | none => .error .malformed
          | some d =>
            if d.kind.ctorIdx.toUInt64 ≠ underlying then .error .malformed
            else
              -- a type that was chosen, not declared, is marked by a second number
              .ok (contentRecord .enum 0 [declared]
                (if rest = [1] then [underlying, 1] else [underlying]) r.name)
  | .fnSig =>
    match ops, r.scalars with
    | result :: params, cc :: _ =>
      .ok (contentRecord .fnSig 0 (result :: params) (if r.isVariadic then [cc, 1] else [cc]) [])
    | _, _ => .error .malformed
  | .extension => .ok (contentRecord .extension r.extensionKind ops r.scalars r.name)
  | .struct | .union | .volatileQual | .fnPtr | .param | .bind => .error .noBuilder
  | .bool | .i8 | .i16 | .i32 | .i64 | .i128 | .u8 | .u16 | .u32 | .u64 | .u128 | .f16 | .f32
  | .f64 | .f80 | .f128 | .char | .byte | .void | .nullptrT =>
    if ops = [] then .ok (contentRecord r.kind 0 [] [] r.name) else .error .malformed

def Host.forwardComposite (h : Host K) (kind : TypeKind) (name : List UInt8) (key : K) :
    ℕ × Host K :=
  match h.types.findIdx? fun t =>
      decide (t.record.kind = kind ∧ t.record.name = name ∧ t.declSiteKey = some key) with
  | some i => (i + 1, h)
  | none =>
    (h.types.length + 1, ⟨h.types ++ [⟨contentRecord kind 0 [] [] name, some key⟩]⟩)

/-- What completes a composite. -/
structure CompositeShape where
  fields : List ℕ
  packed : Bool
  fieldBitWidths : List (Option UInt64)
  fieldOffsets : List UInt64
  fieldAligns : List UInt32
  explicitAlign : UInt32
  maxFieldAlign : UInt32
  fieldPacked : List Bool

/-- The widths as numbers: one more than the width, and `0` for a field that is no bit-field.  There
are none if no field is a bit-field. -/
def encodeFieldBitWidths (fieldCount : ℕ) (widths : List (Option UInt64)) : List UInt64 :=
  if widths.any Option.isSome then
    (List.range fieldCount).map fun i => ((widths.getD i none).map (· + 1)).getD 0
  else []

def decodeBitWidth (enc : UInt64) : Option UInt64 :=
  if 0 < enc.toBitVec.toInt then some (enc - 1) else none

def stated {A : Type} (l : List A) : Option (List A) :=
  match l with
  | [] => none
  | a :: l => some (a :: l)

def representableCompositeAlign (a : UInt32) : Bool :=
  a = 0 || (Layout.Alignment.fromBytes a.toNat).isSome

/-- The lists cover all fields or none, offsets exclude the rest, and the alignments can be asked
for. -/
def CompositeShape.Admissible (c : CompositeShape) : Prop :=
  (c.fieldOffsets = [] ∨ c.fieldOffsets.length = c.fields.length) ∧
  (c.fieldAligns = [] ∨ c.fieldAligns.length = c.fields.length) ∧
  (c.fieldAligns = [] ∨ c.fieldOffsets = []) ∧
  (c.packed = false ∨ c.fieldOffsets = []) ∧
  (c.fieldPacked = [] ∨ c.fieldPacked.length = c.fields.length) ∧
  (c.fieldPacked = [] ∨ c.fieldOffsets = []) ∧
  representableCompositeAlign c.explicitAlign = true ∧
  representableCompositeAlign c.maxFieldAlign = true

instance (c : CompositeShape) : Decidable c.Admissible := by
  unfold CompositeShape.Admissible
  infer_instance

def TypeRecord.completed (r : TypeRecord) (c : CompositeShape) : TypeRecord :=
  { r with
    operands := c.fields
    scalars := encodeFieldBitWidths c.fields.length c.fieldBitWidths
    composite := {
      complete := true
      packed := c.packed
      explicitAlign := c.explicitAlign
      maxFieldAlign := c.maxFieldAlign
      fieldOffsets := stated c.fieldOffsets
      fieldAligns := stated c.fieldAligns
      fieldPacked := stated c.fieldPacked } }

def Host.completeComposite (h : Host K) (id : ℕ) (c : CompositeShape) :
    Except ReinternFatal (Host K) :=
  match h.get? id with
  | none => .error .malformed
  | some t =>
    if ¬ t.record.IsComposite ∨ t.declSiteKey = none then .error .malformed
    else if ¬ c.Admissible then .error .channels
    else if t.record.composite.complete then
      if t.record = t.record.completed c then .ok h else .error .conflictingFields
    else .ok ⟨h.types.set (id - 1) ⟨t.record.completed c, t.declSiteKey⟩⟩

def shapeOf (r : TypeRecord) (fields : List ℕ) : CompositeShape where
  fields := fields
  packed := r.composite.packed
  fieldBitWidths := r.scalars.map decodeBitWidth
  fieldOffsets :=
    match r.composite.fieldOffsets with
    | none => []
    | some os => (List.range r.operands.length).map fun i => os.getD i 0
  fieldAligns :=
    match r.composite.fieldAligns with
    | none => []
    | some as => (List.range r.operands.length).map fun i => as.getD i 0
  explicitAlign := r.composite.explicitAlign
  maxFieldAlign := r.composite.maxFieldAlign
  fieldPacked :=
    match r.composite.fieldPacked with
    | none => []
    | some ps => (List.range r.operands.length).map fun i => ps.getD i false

/-- The host and the images of the types. -/
structure ReinternState (K : Type) where
  host : Host K
  remap : ℕ → ℕ → Option ℕ

/-- A type of a unit has a number in the host; the first one stays. -/
def ReinternState.emplace (st : ReinternState K) (owner id result : ℕ) : ReinternState K :=
  { st with remap := fun o i =>
      if o = owner ∧ i = id ∧ st.remap o i = none then some result else st.remap o i }

def reinternList (f : ℕ → ReinternState K → Except ReinternFatal (ℕ × ReinternState K)) :
    List ℕ → ReinternState K → Except ReinternFatal (List ℕ × ReinternState K)
  | [], st => .ok ([], st)
  | id :: ids, st => do
    let (h, st) ← f id st
    let (hs, st) ← reinternList f ids st
    .ok (h :: hs, st)

def reinternWalk (key : TypeArena × ℕ → K) (a : TypeArena) :
    ℕ → ℕ → ReinternState K → Except ReinternFatal (ℕ × ReinternState K)
  | 0, _, _ => .error .outOfFuel
  | fuel + 1, id, st =>
    match a.get? id with
    | none => .ok (0, st)
    | some r =>
      match st.remap a.owner id with
      | some h => .ok (h, st)
      | none =>
        if r.IsComposite then
          let (fwd, host) :=
            st.host.forwardComposite r.kind (anonNameWithoutDeclSite r.name) (key (a, id))
          -- known before its fields are walked, so that a cycle ends here
          let st := { st with host := host }.emplace a.owner id fwd
          if r.composite.complete = false then .ok (fwd, st)
          else do
            let (fields, st) ← reinternList (reinternWalk key a fuel) r.operands st
            let host ← st.host.completeComposite fwd (shapeOf r fields)
            .ok (fwd, { st with host := host })
        else if r.kind = .volatileQual then do
          let (inner, st) ← reinternWalk key a fuel (r.operands.headD 0) st
          let (result, host) ← st.host.qualified inner r.qualifierBits r.alignOverride
          .ok (result, { st with host := host }.emplace a.owner id result)
        else do
          let (ops, st) ← reinternList (reinternWalk key a fuel) r.operands st
          let made ← rebuilt st.host.record? r ops
          let (result, host) ← st.host.internContent made
          .ok (result, { st with host := host }.emplace a.owner id result)

/-- A type of a unit interned in the host, with enough fuel. -/
def reinternType (key : TypeArena × ℕ → K) (x : TypeArena × ℕ) (st : ReinternState K) :
    Except ReinternFatal (ℕ × ReinternState K) :=
  reinternWalk key x.1 ((x.1.types.length + 1) * (x.1.types.length + 2)) x.2 st

def reinternAll (key : TypeArena × ℕ → K) (requests : List (TypeArena × ℕ)) :
    Except ReinternFatal (ReinternState K) :=
  requests.foldlM (fun st x => do
    let (_, st) ← reinternType key x st
    .ok st) ⟨⟨[]⟩, fun _ _ => none⟩

def TypeArena.Built (a : TypeArena) (r : TypeRecord) : Prop :=
  if r.IsComposite then
    r.composite.complete = true →
      (shapeOf r r.operands).Admissible ∧ r.completed (shapeOf r r.operands) = r
  else if r.kind = .volatileQual then
    ∃ base b, r.operands = [base] ∧ a.get? base = some b ∧ b.kind ≠ .volatileQual ∧
      ¬ (r.qualifierBits = 0 ∧ r.alignOverride = 0) ∧
      r = contentRecord .volatileQual 0 [base]
        (r.qualifierBits.toUInt64 ::
          if r.alignOverride = 0 then [] else [r.alignOverride.toUInt64]) []
  else
    rebuilt a.get? r r.operands = .ok r ∧
      (r.kind = .extension ↔ r.extensionKind ≠ 0)

def TypeArena.Interned (a : TypeArena) : Prop :=
  ∀ r ∈ a.types, a.Built r ∧ r.operands.length < 2 ^ 64 ∧ r.scalars.length < 2 ^ 64

end DssPrime
