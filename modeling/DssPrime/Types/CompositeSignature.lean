import DssPrime.Mir.Basic
import DssPrime.Graph.Refine

/-!
# Signatures of composites

The acyclic half of the identity of structs and unions, after `spine_` and `localSignature_` of
`type_reintern.cpp`: the type of every field is spelled out down to the composites it reaches, and
those become references.  What is spelled is a list of tokens, and `Mixer` digests it; `fnv` is the
mixer of the source.

A type is a number in the arena of its unit, `0` for no type.  All types but composites are interned
after their operands, so spelling out ends; `spine_fuel` says that the fuel of the model is never
spent.
-/

namespace DssPrime

inductive Token where
  | text (bytes : List UInt8)
  | word (value : UInt64)
  deriving DecidableEq

/-- How tokens and digests are mixed. -/
structure Mixer (K : Type) where
  digest : List Token → K
  /-- The digest of a node from its own digest and those of its references. -/
  combine : K → List K → K
  blank : K

def kFnvOffset : UInt64 := 1469598103934665603

def kFnvPrime : UInt64 := 1099511628211

def fnvByte (h : UInt64) (b : UInt8) : UInt64 := (h ^^^ b.toUInt64) * kFnvPrime

/-- One token: a text ends with a byte that no text has, a number is eight bytes from the low one
up. -/
def fnvMix (h : UInt64) : Token → UInt64
  | .text bytes => fnvByte (bytes.foldl fnvByte h) 0xFF
  | .word v =>
    (List.range 8).foldl (fun h i => fnvByte h ((v >>> (8 * i).toUInt64) &&& 0xFF).toUInt8) h

def fnv : Mixer UInt64 where
  digest tokens := tokens.foldl fnvMix kFnvOffset
  combine own refs := (own :: refs).foldl (fun h d => fnvMix h (.word d)) kFnvOffset
  blank := 0

/-- What a composite states besides its fields. -/
structure CompositeData where
  complete : Bool
  packed : Bool
  explicitAlign : UInt32
  maxFieldAlign : UInt32
  fieldOffsets : Option (List UInt64)
  fieldAligns : Option (List UInt32)
  fieldPacked : Option (List Bool)
  deriving DecidableEq, Inhabited

/-- A type of a unit. -/
structure TypeRecord where
  kind : TypeKind
  name : List UInt8
  extensionKind : UInt32
  operands : List ℕ
  /-- The numbers: the bit widths of the fields of a composite. -/
  scalars : List UInt64
  isVariadic : Bool
  qualifierBits : UInt8
  alignOverride : UInt32
  composite : CompositeData
  deriving DecidableEq, Inhabited

def TypeRecord.IsComposite (r : TypeRecord) : Prop := r.kind = .struct ∨ r.kind = .union

instance (r : TypeRecord) : Decidable r.IsComposite := by
  unfold TypeRecord.IsComposite
  infer_instance

/-- The interner of a unit; the types are numbered from `1`.  All types but composites stand after
their operands. -/
structure TypeArena where
  owner : ℕ
  types : List TypeRecord
  inside : ∀ r ∈ types, ∀ op ∈ r.operands, op ≤ types.length
  ordered : ∀ (i : ℕ) (r : TypeRecord), types[i]? = some r → ¬ r.IsComposite →
    ∀ op ∈ r.operands, op ≤ i

def TypeArena.get? (a : TypeArena) (id : ℕ) : Option TypeRecord :=
  if id = 0 then none else a.types[id - 1]?

def kAnonMemberNamePrefix : List UInt8 := [60, 97, 110, 111, 110, 58]

def isSyntheticAnonymousName (name : List UInt8) : Bool :=
  decide (name.take kAnonMemberNamePrefix.length = kAnonMemberNamePrefix)

/-- The name without the place of its declaration: what stands before the second colon. -/
def anonNameWithoutDeclSite (name : List UInt8) : List UInt8 :=
  if isSyntheticAnonymousName name then
    match (name.drop kAnonMemberNamePrefix.length).findIdx? (· = 58) with
    | none => name
    | some i => name.take (kAnonMemberNamePrefix.length + i)
  else name

def noTypeText : List UInt8 := [33]

def compositeText : List UInt8 := [60, 99, 111, 109, 112, 111, 115, 105, 116, 101, 62]

def kindWord (k : TypeKind) : Token := .word k.ctorIdx.toUInt64

/-- The tokens of a type and the composites it reaches, in order.  The fuel is more than its
number. -/
def spine (a : TypeArena) : ℕ → ℕ → List Token × List ℕ
  | 0, _ => ([], [])
  | fuel + 1, id =>
    match a.get? id with
    | none => ([.text noTypeText], [])
    | some r =>
      if r.IsComposite then ([kindWord r.kind, .text compositeText], [id])
      else
        let parts := r.operands.map (spine a fuel)
        if r.kind = .volatileQual then
          (kindWord r.kind :: .word r.qualifierBits.toUInt64 :: .word r.alignOverride.toUInt64 ::
            (parts.map Prod.fst).flatten, (parts.map Prod.snd).flatten)
        else
          (kindWord r.kind :: .text r.name :: .word r.extensionKind.toUInt64 ::
            (if r.kind = .fnSig then [.word (if r.isVariadic then 1 else 0)] else []) ++
            .word r.scalars.length.toUInt64 :: r.scalars.map Token.word ++
            .word r.operands.length.toUInt64 :: (parts.map Prod.fst).flatten,
            (parts.map Prod.snd).flatten)

/-- The tokens of one field after its type: its width, and its offset, alignment and packing if the
composite states them. -/
def fieldTokens (r : TypeRecord) (i : ℕ) : List Token :=
  .word (r.scalars.getD i 0) ::
    ((r.composite.fieldOffsets.map fun os => Token.word (os.getD i 0)).toList ++
      (r.composite.fieldAligns.map fun as => Token.word (as.getD i 0).toUInt64).toList ++
      (r.composite.fieldPacked.map fun ps =>
        Token.word (if ps.getD i false then 1 else 0)).toList)

/-- The signature of a composite: everything it is made of but the composites it reaches, and
these. -/
def localSignature (a : TypeArena) (r : TypeRecord) : List Token × List ℕ :=
  let fields := r.operands.map fun f => spine a (f + 1) f
  (kindWord r.kind :: .text (anonNameWithoutDeclSite r.name) ::
      .word (if r.composite.packed then 1 else 0) :: .word r.composite.explicitAlign.toUInt64 ::
      .word r.composite.maxFieldAlign.toUInt64 :: .word r.operands.length.toUInt64 ::
      (fields.zipIdx.map fun x => x.1.1 ++ fieldTokens r x.2).flatten,
    (fields.map Prod.snd).flatten)

theorem TypeArena.get?_eq_some {a : TypeArena} {id : ℕ} {r : TypeRecord}
    (h : a.get? id = some r) : 0 < id ∧ a.types[id - 1]? = some r := by
  unfold TypeArena.get? at h
  split at h
  · cases h
  · next h0 => exact ⟨Nat.pos_of_ne_zero h0, h⟩

theorem TypeArena.operand_lt {a : TypeArena} {id : ℕ} {r : TypeRecord} (h : a.get? id = some r)
    (hr : ¬ r.IsComposite) {op : ℕ} (hop : op ∈ r.operands) : op < id := by
  obtain ⟨hpos, hr'⟩ := TypeArena.get?_eq_some h
  have := a.ordered (id - 1) r hr' hr op hop
  omega

theorem spine_fuel (a : TypeArena) {n m id : ℕ} (hn : id < n) (hm : id < m) :
    spine a n id = spine a m id := by
  induction n generalizing m id with
  | zero => omega
  | succ n ih =>
    obtain ⟨m, rfl⟩ := Nat.exists_eq_add_of_lt (Nat.zero_lt_of_lt hm)
    rw [Nat.zero_add] at hm ⊢
    unfold spine
    cases hr : a.get? id with
    | none => rfl
    | some r =>
      dsimp only
      by_cases hcomp : r.IsComposite
      · rw [if_pos hcomp, if_pos hcomp]
      · have hparts : r.operands.map (spine a n) = r.operands.map (spine a m) := by
          refine List.map_congr_left fun op hop => ?_
          have hlt := TypeArena.operand_lt hr hcomp hop
          exact ih (by omega) (by omega)
        rw [if_neg hcomp, if_neg hcomp, hparts]

theorem mem_spine_refs {a : TypeArena} {n id ref : ℕ} (h : ref ∈ (spine a n id).2) :
    ∃ r, a.get? ref = some r ∧ r.IsComposite := by
  induction n generalizing id with
  | zero => simp [spine] at h
  | succ n ih =>
    unfold spine at h
    cases hr : a.get? id with
    | none => simp [hr] at h
    | some r =>
      rw [hr] at h
      dsimp only at h
      by_cases hcomp : r.IsComposite
      · rw [if_pos hcomp, List.mem_singleton] at h
        exact ⟨r, h ▸ hr, hcomp⟩
      · rw [if_neg hcomp] at h
        have hmem : ref ∈ ((r.operands.map (spine a n)).map Prod.snd).flatten := by
          split at h <;> exact h
        rw [List.mem_flatten] at hmem
        obtain ⟨l, hl, href⟩ := hmem
        rw [List.map_map, List.mem_map] at hl
        obtain ⟨op, -, rfl⟩ := hl
        exact ih href

theorem mem_localSignature_refs {a : TypeArena} {r : TypeRecord} {ref : ℕ}
    (h : ref ∈ (localSignature a r).2) : ∃ r', a.get? ref = some r' ∧ r'.IsComposite := by
  unfold localSignature at h
  dsimp only at h
  rw [List.mem_flatten] at h
  obtain ⟨l, hl, href⟩ := h
  rw [List.map_map, List.mem_map] at hl
  obtain ⟨f, -, rfl⟩ := hl
  exact mem_spine_refs href

end DssPrime
