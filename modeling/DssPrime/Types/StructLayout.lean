import Mathlib

/-!
# The layout of a struct

The model of the struct arm of `layoutOneMaterial` (`core/types/type_lattice/type_layout.cpp`) with
its three ways of placing fields: the plain one, the GNU bit-field packer and the Microsoft one, all
under the same clamp (`packed`, `#pragma pack(N)`) and the same overrides (`alignas`, `aligned`).

The layouts of the field types are read from the memo of the level below, so a field carries the
layout its type has, or none.  The source computes in 64 bits.  Every function here takes the
rounding `wr` of its sums: `u64` is the source's arithmetic, `id` the unbounded one the layout is
meant in.  The parallel arrays `fieldOffsets` and `bitFields` are one list of places.
-/

namespace DssPrime.Layout

def u64 (x : ℕ) : ℕ := x % 2 ^ 64

structure Alignment where
  log2 : ℕ
  log2_le : log2 ≤ 31
  deriving DecidableEq

namespace Alignment

def bytes (a : Alignment) : ℕ := 2 ^ a.log2

def one : Alignment := ⟨0, by decide⟩

def fromBytes (n : ℕ) : Option Alignment :=
  if h : n = 2 ^ n.log2 ∧ n.log2 ≤ 31 then some ⟨n.log2, h.2⟩ else none

def alignUp (wr : ℕ → ℕ) (a : Alignment) (n : ℕ) : ℕ := wr (n + a.bytes - 1) / a.bytes * a.bytes

def max (a b : Alignment) : Alignment := if b.log2 ≤ a.log2 then a else b

end Alignment

/-- What the level below knows of a field's type. -/
structure ChildLayout where
  size : ℕ
  align : Alignment
  size_lt : size < 2 ^ 64

/-- A field and what it asks for. -/
structure Field where
  /-- The layout of its type; of an array without a length, of the element. -/
  layout : Option ChildLayout
  incomplete : Bool := false
  bitWidth : Option ℕ := none
  packed : Bool := false
  alignas : ℕ := 0
  explicitOffset : Option ℕ := none

def Field.typeLayout (f : Field) : Option ChildLayout := if f.incomplete then none else f.layout

/-- The fields of a struct and what it asks for. -/
structure Composite where
  fields : List Field
  packed : Bool := false
  packCap : ℕ := 0
  alignRequest : ℕ := 0
  hasExplicitOffsets : Bool := false

/-- How bit-fields are packed. -/
inductive BitFieldStrategy where
  | none
  | gnuPacked
  | msvcStraddle
  deriving DecidableEq

/-- What an unnamed bit-field does to the alignment. -/
inductive UnnamedBitFieldAlignment where
  | none
  | contributes
  | ignored
  deriving DecidableEq

/-- What a platform declares about aggregates. -/
structure LayoutParams where
  bitFieldStrategy : BitFieldStrategy
  unnamedBitFieldAlignment : UnnamedBitFieldAlignment

structure FieldPlace where
  offset : ℕ
  unitBytes : ℕ := 0
  bitOffset : ℕ := 0
  bitWidth : ℕ := 0
  deriving DecidableEq

structure StructLayout where
  size : ℕ := 0
  align : Alignment
  places : List FieldPlace := []
  hasFlexibleArrayMember : Bool := false
  deriving DecidableEq

def compositeSeedAlign (c : Composite) : Option Alignment :=
  if c.alignRequest = 0 then some .one else Alignment.fromBytes c.alignRequest

def clampedBaselineAlign (packed : Bool) (packCap : ℕ) (natural : Alignment) : Option Alignment :=
  if packed then some .one
  else if packCap = 0 ∨ packCap ≥ natural.bytes then some natural
  else Alignment.fromBytes packCap

def fieldPackedBaseline (c : Composite) (f : Field) : Bool := c.packed || f.packed

def effectiveAlign (c : Composite) (f : Field) (natural : Alignment) : Option Alignment := do
  let baseline ← clampedBaselineAlign (fieldPackedBaseline c f) c.packCap natural
  if f.alignas = 0 then some baseline
  else do
    let a ← Alignment.fromBytes f.alignas
    some (baseline.max a)

/-- What the loops keep: where the next field may begin, and what has been placed. -/
structure Cursor where
  /-- The next free position: in bytes, or in bits for the GNU packer. -/
  pos : ℕ
  out : StructLayout

def StructLayout.place (out : StructLayout) (a : Alignment) (p : FieldPlace) (fam : Bool) :
    StructLayout :=
  { out with align := out.align.max a, places := out.places ++ [p],
             hasFlexibleArrayMember := out.hasFlexibleArrayMember || fam }

/-- An ordinary field placed at the next byte that suits it.  An array without a length takes no
room, and must come last. -/
def placeOrdinary (wr : ℕ → ℕ) (c : Composite) (f : Field) (last : Bool) (pos : ℕ)
    (out : StructLayout) : Option Cursor := do
  let fl ← f.layout
  if f.incomplete && !last then none
  else do
    let ea ← effectiveAlign c f fl.align
    let fo := ea.alignUp wr pos
    some ⟨if f.incomplete then fo else wr (fo + fl.size),
      out.place ea { offset := fo } f.incomplete⟩

def plainFields (wr : ℕ → ℕ) (c : Composite) : List Field → Cursor → Option Cursor
  | [], st => some st
  | f :: fs, st => do
    let st ← placeOrdinary wr c f fs.isEmpty st.pos st.out
    plainFields wr c fs st

def roundUp (wr : ℕ → ℕ) (n unit : ℕ) : ℕ := wr (n + unit - 1) / unit * unit

/-- The bit a bit-field begins at: the next unit if it would straddle one, unless it is packed or
capped. -/
def gnuBitPos (wr : ℕ → ℕ) (c : Composite) (f : Field) (w unitBits pos : ℕ) : ℕ :=
  if !fieldPackedBaseline c f && c.packCap == 0 &&
      pos / unitBits != wr (pos + w - 1) / unitBits then
    roundUp wr pos unitBits
  else pos

def gnuBitField (wr : ℕ → ℕ) (params : LayoutParams) (c : Composite) (f : Field) (w : ℕ)
    (st : Cursor) : Option Cursor := do
  let fl ← f.layout
  if f.incomplete ∨ fl.size = 0 then none
  else do
    let unitAlign ← clampedBaselineAlign (fieldPackedBaseline c f) c.packCap fl.align
    let unitBits := wr (fl.size * 8)
    if w = 0 then
      -- The break goes to the unit of the declared type, whatever caps it.
      let pos := roundUp wr st.pos unitBits
      match params.unnamedBitFieldAlignment with
      | .contributes => some ⟨pos, st.out.place fl.align { offset := pos / 8 } false⟩
      | .ignored => some ⟨pos, st.out.place .one { offset := pos / 8 } false⟩
      | .none => none
    else if w > unitBits then none
    else
      let pos := gnuBitPos wr c f w unitBits st.pos
      -- Without the bump a field may cross its unit, which no place can say.
      if pos % unitBits + w > unitBits then none
      else
        some ⟨wr (pos + w), st.out.place unitAlign
          { offset := wr (pos / unitBits * fl.size), unitBytes := fl.size % 2 ^ 32,
            bitOffset := pos % unitBits % 2 ^ 32, bitWidth := w } false⟩

def gnuStep (wr : ℕ → ℕ) (params : LayoutParams) (c : Composite) (f : Field) (last : Bool)
    (st : Cursor) : Option Cursor :=
  match f.bitWidth with
  | none => do
    let next ← placeOrdinary wr c f last (wr (st.pos + 7) / 8) st.out
    some ⟨wr (next.pos * 8), next.out⟩
  | some w => gnuBitField wr params c f w st

def gnuFields (wr : ℕ → ℕ) (params : LayoutParams) (c : Composite) :
    List Field → Cursor → Option Cursor
  | [], st => some st
  | f :: fs, st => do
    let st ← gnuStep wr params c f fs.isEmpty st
    gnuFields wr params c fs st

/-- The state of the second packer. -/
structure MsvcState where
  highWaterByte : ℕ := 0
  unitTypeSize : ℕ := 0
  unitStartByte : ℕ := 0
  unitBitsUsed : ℕ := 0
  out : StructLayout

def msvcBitField (wr : ℕ → ℕ) (c : Composite) (f : Field) (w : ℕ) (st : MsvcState) :
    Option MsvcState := do
  let fl ← f.layout
  if f.incomplete ∨ fl.size = 0 then none
  else do
    let unitAlign ← clampedBaselineAlign (fieldPackedBaseline c f) c.packCap fl.align
    let unitBits := wr (fl.size * 8)
    if w = 0 then
      -- A break closes an open unit, and is nothing where none is open.
      if st.unitTypeSize ≠ 0 then
        let high := unitAlign.alignUp wr st.highWaterByte
        some { st with highWaterByte := high, unitTypeSize := 0,
                       out := st.out.place unitAlign { offset := high } false }
      else some { st with out := st.out.place .one { offset := st.highWaterByte } false }
    else if w > unitBits then none
    else
      let continues := st.unitTypeSize == fl.size && decide (wr (st.unitBitsUsed + w) ≤ unitBits)
      let start := if continues then st.unitStartByte else unitAlign.alignUp wr st.highWaterByte
      let used := if continues then st.unitBitsUsed else 0
      some { highWaterByte := max st.highWaterByte (wr (start + fl.size)), unitTypeSize := fl.size,
             unitStartByte := start, unitBitsUsed := wr (used + w),
             out := st.out.place unitAlign
               { offset := start, unitBytes := fl.size % 2 ^ 32, bitOffset := used % 2 ^ 32,
                 bitWidth := w } false }

def msvcStep (wr : ℕ → ℕ) (c : Composite) (f : Field) (last : Bool) (st : MsvcState) :
    Option MsvcState :=
  match f.bitWidth with
  | none => do
    let next ← placeOrdinary wr c f last st.highWaterByte st.out
    some { st with highWaterByte := next.pos, unitTypeSize := 0, out := next.out }
  | some w => msvcBitField wr c f w st

/-- The fields of a struct packed by Microsoft's rule. -/
def msvcFields (wr : ℕ → ℕ) (c : Composite) : List Field → MsvcState → Option MsvcState
  | [], st => some st
  | f :: fs, st => do
    let st ← msvcStep wr c f fs.isEmpty st
    msvcFields wr c fs st

def layoutExplicit (wr : ℕ → ℕ) (c : Composite) (out : StructLayout) : Option StructLayout := do
  let st ← c.fields.foldlM (fun st f => do
    let off ← f.explicitOffset
    let fl ← f.typeLayout
    some (⟨max st.pos (wr (off + fl.size)), st.out.place fl.align { offset := off } false⟩ :
      Cursor))
    ⟨0, out⟩
  some { st.out with size := st.out.align.alignUp wr st.pos }

def Composite.anyBitfield (c : Composite) : Bool := c.fields.any fun f => f.bitWidth.isSome

def layoutStruct (wr : ℕ → ℕ) (params : LayoutParams) (c : Composite) : Option StructLayout := do
  let seed ← compositeSeedAlign c
  if c.hasExplicitOffsets then
    if c.anyBitfield then none else layoutExplicit wr c { align := seed }
  else if !c.anyBitfield then do
    let st ← plainFields wr c c.fields ⟨0, { align := seed }⟩
    some { st.out with size := st.out.align.alignUp wr st.pos }
  else
    match params.bitFieldStrategy with
    | .gnuPacked => do
      let st ← gnuFields wr params c c.fields ⟨0, { align := seed }⟩
      some { st.out with size := st.out.align.alignUp wr (wr (st.pos + 7) / 8) }
    | .msvcStraddle => do
      let st ← msvcFields wr c c.fields { out := { align := seed } }
      some { st.out with size := st.out.align.alignUp wr st.highWaterByte }
    | .none => none

end DssPrime.Layout
