import DssPrime.Graph.ThreeColour
import DssPrime.Types.FieldOverlap
import DssPrime.Types.ReinternIdentity
import Mathlib

/-!
# The layout of every type

The model of `computeLayout` (`type_layout.cpp`): the layout of a type is made of the layouts of the
types it holds by value, and the types are walked by the three-coloured work stack of
`Graph.ThreeColour`. A type that holds itself by value has no layout, and neither has one that holds
such a type.

The layout of one type (`layoutOne`) is the struct and union arm of `Types.StructLayout` and
`Types.FieldOverlap`, with the arms of the other kinds around them.
-/

namespace DssPrime

open Layout (StructLayout ChildLayout Field Composite LayoutParams CompositeKind u64
  layoutComposite)

inductive DataModel where
  | lp64 | llp64 | ilp32

/-- The rules of a target's aggregates. -/
structure AggregateLayoutParams extends LayoutParams where
  maxAlignment : Layout.Alignment

def kIncompleteArrayLength : UInt64 := -1

namespace TypeArena

variable (a : TypeArena)

def material (id : ℕ) : Option TypeRecord := a.get? (materialId a.get? id id)

def operandsOf (id : ℕ) : List ℕ := ((a.material id).map (·.operands)).getD []

def isIncompleteArray (id : ℕ) : Bool :=
  (a.material id).any fun r => r.kind = .array ∧ r.scalars.head? = some kIncompleteArrayLength

def typeAlignOverride (id : ℕ) : UInt32 :=
  match a.get? id with
  | none => 0
  | some r => if r.kind = .volatileQual then r.alignOverride else 0

def layoutRootFrom : ℕ → ℕ → ℕ
  | 0, id => id
  | fuel + 1, id =>
    match a.get? id with
    | none => id
    | some r =>
      if r.kind = .volatileQual ∧ a.typeAlignOverride id = 0 then
        layoutRootFrom fuel (r.operands.headD 0)
      else id

/-- The type under the qualifiers that carry no alignment.  What a qualifier stands on has a smaller
number, so the number of the type is enough fuel. -/
def layoutRoot (id : ℕ) : ℕ := a.layoutRootFrom id id

end TypeArena

def pointerBytes : DataModel → ℕ
  | .lp64 | .llp64 => 8
  | .ilp32 => 4

def scalarAlign (size : ℕ) (params : AggregateLayoutParams) : Layout.Alignment :=
  (Layout.Alignment.fromBytes
    (min (if size = 0 then 1 else size) params.maxAlignment.bytes)).getD .one

def scalarByteSize (kind : TypeKind) (dm : DataModel) : Option ℕ :=
  match kind with
  | .bool | .i8 | .u8 | .char | .byte => some 1
  | .i16 | .u16 | .f16 => some 2
  | .i32 | .u32 | .f32 => some 4
  | .i64 | .u64 | .f64 => some 8
  | .i128 | .u128 | .f80 | .f128 => some 16
  | .ptr | .ref | .fnPtr | .nullptrT => some (pointerBytes dm)
  | _ => none

def bitIntSize (n : ℕ) : ℕ × ℕ :=
  if n ≤ 8 then (1, 1)
  else if n ≤ 16 then (2, 2)
  else if n ≤ 32 then (4, 4)
  else if n ≤ 64 then (8, 8)
  else ((n + 63) / 64 * 8, 8)

abbrev LayoutMemo := ℕ → Option (Option StructLayout)

section OneType

variable (a : TypeArena) (params : AggregateLayoutParams) (dm : DataModel) (memo : LayoutMemo)

def childLayout (id : ℕ) : Option StructLayout := (memo (a.layoutRoot id)).join

def asChild (l : StructLayout) : ChildLayout :=
  ⟨u64 l.size, l.align, Nat.mod_lt _ (Nat.two_pow_pos 64)⟩

/-- A field of a composite with the layout of its type; of an array without a length, of its
element. -/
def fieldOf (r : TypeRecord) (f i : ℕ) : Field where
  layout :=
    (if a.isIncompleteArray f then (a.operandsOf f).head?.bind (childLayout a memo)
      else childLayout a memo f).map asChild
  incomplete := a.isIncompleteArray f
  bitWidth := ((r.scalars[i]?).bind decodeBitWidth).map fun w => w.toNat % 2 ^ 32
  packed := (r.composite.fieldPacked.bind (·[i]?)).getD false
  alignas := ((r.composite.fieldAligns.bind (·[i]?)).getD 0).toNat
  explicitOffset := (r.composite.fieldOffsets.bind (·[i]?)).map UInt64.toNat

def compositeOf (r : TypeRecord) : Composite where
  fields := r.operands.zipIdx.map fun x => fieldOf a memo r x.1 x.2
  packed := r.composite.packed
  packCap := r.composite.maxFieldAlign.toNat
  alignRequest := r.composite.explicitAlign.toNat
  hasExplicitOffsets := r.composite.fieldOffsets.isSome

/-- The layout of a type without the alignment that it carries itself. -/
def layoutOneMaterial (id : ℕ) : Option StructLayout :=
  match a.material id with
  | none => none
  | some r =>
    if r.IsComposite ∧ r.composite.complete = false then none
    else
      match scalarByteSize r.kind dm with
      | some sz => some { size := sz, align := scalarAlign sz params }
      | none =>
        match r.kind with
        | .enum => do
          let under ← r.scalars.head?
          let sz ← scalarByteSize (TypeKind.ofNat (under.toNat % 2 ^ 16)) dm
          some { size := sz, align := scalarAlign sz params }
        | .bitInt => do
          let n ← r.scalars.head?
          if n.toBitVec.toInt ≤ 0 then none
          else
            let (size, alignBytes) := bitIntSize n.toNat
            some { size := size, align := scalarAlign alignBytes params }
        | .complex => do
          let op ← r.operands.head?
          let elem ← childLayout a memo op
          some { size := u64 (elem.size * 2), align := elem.align }
        | .array =>
          if a.isIncompleteArray id then none
          else do
            let op ← r.operands.head?
            let len ← r.scalars.head?
            if len.toBitVec.toInt < 0 then none
            else do
              let elem ← childLayout a memo op
              some { size := u64 (elem.align.alignUp u64 elem.size * len.toNat),
                     align := elem.align }
        | .struct => layoutComposite u64 params.toLayoutParams .struct (compositeOf a memo r)
        | .union => layoutComposite u64 params.toLayoutParams .union (compositeOf a memo r)
        | _ => none

def layoutOne (id : ℕ) : Option StructLayout := do
  let out ← layoutOneMaterial a params dm memo id
  if a.typeAlignOverride id = 0 then some out
  else do
    let align ← Layout.Alignment.fromBytes (a.typeAlignOverride id).toNat
    some { out with align := align }

end OneType

def TypeRecord.Holds (r : TypeRecord) : Prop :=
  r.kind = .complex ∨ r.kind = .array ∨ r.kind = .struct ∨ r.kind = .union

instance (r : TypeRecord) : Decidable r.Holds := by
  unfold TypeRecord.Holds
  infer_instance

/-- The types whose layouts a type may ask for: what it holds, and of an array without a length its
element too. -/
def forEachLayoutDependency (a : TypeArena) (id : ℕ) : List ℕ :=
  match a.material id with
  | none => []
  | some r =>
    if r.Holds then
      r.operands.flatMap fun c => a.layoutRoot c ::
        if a.isIncompleteArray c then ((a.operandsOf c).head?.map a.layoutRoot).toList else []
    else []

def hasLayoutDependencies (a : TypeArena) (id : ℕ) : Bool :=
  (a.material id).any fun r => r.Holds ∧ r.operands ≠ []

def layoutBody (a : TypeArena) (params : AggregateLayoutParams) (dm : DataModel) (id : ℕ)
    (memo : LayoutMemo) : Option StructLayout :=
  layoutOne a params dm memo id

def computeLayout (a : TypeArena) (params : AggregateLayoutParams) (dm : DataModel)
    (dependencies : ℕ → List ℕ) (turns id : ℕ) : Option (Option StructLayout) :=
  let root := a.layoutRoot id
  if hasLayoutDependencies a root then
    ThreeColour.answer dependencies (layoutBody a params dm) turns root
  else some (layoutOne a params dm (fun _ => none) root)

def layoutRecursive (a : TypeArena) (params : AggregateLayoutParams) (dm : DataModel) (id : ℕ) :
    Option StructLayout :=
  ThreeColour.recursive (layoutBody a params dm) (a.types.length + 1) id

namespace Layout

section Fields

variable {wr : ℕ → ℕ} {params : LayoutParams} {c : Composite} {f : Field} {fs : List Field}

theorem placeOrdinary_layout {last : Bool} {pos : ℕ} {out : StructLayout} {st : Cursor}
    (h : placeOrdinary wr c f last pos out = some st) : f.layout ≠ none := by
  obtain ⟨fl, -, hfl, -⟩ := placeOrdinary_eq_some h
  simp [hfl]

theorem gnuStep_layout {last : Bool} {st st' : Cursor}
    (h : gnuStep wr params c f last st = some st') : f.layout ≠ none := by
  rw [gnuStep] at h
  cases hf : f.bitWidth with
  | none =>
    simp only [hf] at h
    obtain ⟨next, hnext, -⟩ := Option.bind_eq_some_iff.1 h
    exact placeOrdinary_layout hnext
  | some w =>
    simp only [hf] at h
    obtain ⟨fl, hfl, -⟩ := Option.bind_eq_some_iff.1 h
    simp [hfl]

theorem msvcStep_layout {last : Bool} {st st' : MsvcState}
    (h : msvcStep wr c f last st = some st') : f.layout ≠ none := by
  rw [msvcStep] at h
  cases hf : f.bitWidth with
  | none =>
    simp only [hf] at h
    obtain ⟨next, hnext, -⟩ := Option.bind_eq_some_iff.1 h
    exact placeOrdinary_layout hnext
  | some w =>
    simp only [hf] at h
    obtain ⟨fl, hfl, -⟩ := Option.bind_eq_some_iff.1 h
    simp [hfl]

theorem typeLayout_layout {fl : ChildLayout} (h : f.typeLayout = some fl) : f.layout ≠ none := by
  rw [Field.typeLayout] at h
  split_ifs at h
  simp [h]

theorem plainFields_layout {st st' : Cursor} (h : plainFields wr c fs st = some st') :
    ∀ f ∈ fs, f.layout ≠ none := by
  induction fs generalizing st with
  | nil => simp
  | cons f fs ih =>
    obtain ⟨mid, hmid, hrest⟩ := Option.bind_eq_some_iff.1 h
    exact List.forall_mem_cons.2 ⟨placeOrdinary_layout hmid, ih hrest⟩

theorem gnuFields_layout {st st' : Cursor} (h : gnuFields wr params c fs st = some st') :
    ∀ f ∈ fs, f.layout ≠ none := by
  induction fs generalizing st with
  | nil => simp
  | cons f fs ih =>
    obtain ⟨mid, hmid, hrest⟩ := Option.bind_eq_some_iff.1 h
    exact List.forall_mem_cons.2 ⟨gnuStep_layout hmid, ih hrest⟩

theorem msvcFields_layout {st st' : MsvcState} (h : msvcFields wr c fs st = some st') :
    ∀ f ∈ fs, f.layout ≠ none := by
  induction fs generalizing st with
  | nil => simp
  | cons f fs ih =>
    obtain ⟨mid, hmid, hrest⟩ := Option.bind_eq_some_iff.1 h
    exact List.forall_mem_cons.2 ⟨msvcStep_layout hmid, ih hrest⟩

theorem foldlM_layout {step : Cursor → Field → Option Cursor} {st st' : Cursor}
    (hstep : ∀ f st st', step st f = some st' → f.layout ≠ none)
    (h : fs.foldlM step st = some st') : ∀ f ∈ fs, f.layout ≠ none := by
  induction fs generalizing st with
  | nil => simp
  | cons f fs ih =>
    obtain ⟨mid, hmid, hrest⟩ := Option.bind_eq_some_iff.1 h
    exact List.forall_mem_cons.2 ⟨hstep f _ _ hmid, ih hrest⟩

theorem layoutComposite_layout {kind : CompositeKind} {lay : StructLayout}
    (h : layoutComposite wr params kind c = some lay) : ∀ f ∈ c.fields, f.layout ≠ none := by
  cases kind with
  | union =>
    obtain ⟨seed, -, h⟩ := Option.bind_eq_some_iff.1 h
    split_ifs at h
    obtain ⟨st, hst, -⟩ := Option.bind_eq_some_iff.1 h
    refine foldlM_layout (fun f st st' hstep => ?_) hst
    obtain ⟨fl, hfl, -⟩ := Option.bind_eq_some_iff.1 hstep
    exact typeLayout_layout hfl
  | struct =>
    obtain ⟨seed, -, h⟩ := Option.bind_eq_some_iff.1 h
    by_cases hexp : c.hasExplicitOffsets = true
    · rw [if_pos hexp] at h
      by_cases hany : c.anyBitfield = true
      · rw [if_pos hany] at h
        cases h
      rw [if_neg hany] at h
      obtain ⟨st, hst, -⟩ := Option.bind_eq_some_iff.1 h
      refine foldlM_layout (fun f st st' hstep => ?_) hst
      obtain ⟨off, -, hstep⟩ := Option.bind_eq_some_iff.1 hstep
      obtain ⟨fl, hfl, -⟩ := Option.bind_eq_some_iff.1 hstep
      exact typeLayout_layout hfl
    rw [if_neg hexp] at h
    by_cases hany : c.anyBitfield = true
    · rw [if_neg (by simp [hany])] at h
      cases hk : params.bitFieldStrategy with
      | none =>
        simp only [hk] at h
        cases h
      | gnuPacked =>
        simp only [hk] at h
        obtain ⟨st, hst, -⟩ := Option.bind_eq_some_iff.1 h
        exact gnuFields_layout hst
      | msvcStraddle =>
        simp only [hk] at h
        obtain ⟨st, hst, -⟩ := Option.bind_eq_some_iff.1 h
        exact msvcFields_layout hst
    · rw [if_pos (by simp [hany])] at h
      obtain ⟨st, hst, -⟩ := Option.bind_eq_some_iff.1 h
      exact plainFields_layout hst

end Fields

end Layout

namespace TypeArena

variable {a : TypeArena} {id : ℕ} {r : TypeRecord}

theorem headD_le (h : a.get? id = some r) : r.operands.headD 0 ≤ a.types.length := by
  cases hops : r.operands with
  | nil => exact Nat.zero_le _
  | cons op ops =>
    have hop : op ∈ r.operands := by simp [hops]
    exact a.inside r (mem_types h) op hop

theorem layoutRootFrom_le (n : ℕ) (h : id ≤ a.types.length) :
    a.layoutRootFrom n id ≤ a.types.length := by
  induction n generalizing id with
  | zero => exact h
  | succ n ih =>
    rw [layoutRootFrom]
    cases hr : a.get? id with
    | none => exact h
    | some r =>
      simp only
      split_ifs
      · exact ih (headD_le hr)
      · exact h

theorem layoutRoot_le (h : id ≤ a.types.length) : a.layoutRoot id ≤ a.types.length :=
  layoutRootFrom_le id h

theorem headD_lt (h : a.get? id = some r) (hk : r.kind = .volatileQual) :
    r.operands.headD 0 < id := by
  have hc : ¬ r.IsComposite := by simp [TypeRecord.IsComposite, hk]
  cases hops : r.operands with
  | nil =>
    rcases Nat.eq_zero_or_pos id with rfl | hpos
    · simp [get?] at h
    · exact hpos
  | cons op ops =>
    have hop : op ∈ r.operands := by simp [hops]
    exact operand_lt h hc hop

theorem materialId_stable {n : ℕ} (h : id ≤ n) :
    materialId a.get? n id = materialId a.get? id id := by
  induction id using Nat.strong_induction_on generalizing n with
  | _ id ih =>
    cases n with
    | zero =>
      obtain rfl := Nat.le_zero.1 h
      rfl
    | succ n =>
      cases id with
      | zero => simp [materialId, get?]
      | succ id =>
        rw [materialId, materialId]
        cases hr : a.get? (id + 1) with
        | none => rfl
        | some r =>
          simp only
          split_ifs with hk
          · have hlt := headD_lt hr hk
            rw [ih _ hlt (n := n) (by omega), ih _ hlt (n := id) (by omega)]
          · rfl

theorem material_qualified (h : a.get? id = some r) (hk : r.kind = .volatileQual) :
    a.material id = a.material (r.operands.headD 0) := by
  have hlt := headD_lt h hk
  obtain ⟨k, rfl⟩ : ∃ k, id = k + 1 := ⟨id - 1, by omega⟩
  rw [material, material, materialId, h]
  simp only [if_pos hk]
  rw [materialId_stable (by omega)]

theorem material_layoutRootFrom (n : ℕ) : a.material (a.layoutRootFrom n id) = a.material id := by
  induction n generalizing id with
  | zero => rfl
  | succ n ih =>
    rw [layoutRootFrom]
    cases hr : a.get? id with
    | none => rfl
    | some r =>
      simp only
      split_ifs with hk
      · rw [ih, material_qualified hr hk.1]
      · rfl

theorem material_layoutRoot : a.material (a.layoutRoot id) = a.material id :=
  material_layoutRootFrom id

theorem isIncompleteArray_layoutRoot :
    a.isIncompleteArray (a.layoutRoot id) = a.isIncompleteArray id := by
  rw [isIncompleteArray, material_layoutRoot, isIncompleteArray]

theorem material_mem (h : a.material id = some r) : r ∈ a.types := mem_types h

theorem operandsOf_le {c : ℕ} (h : c ∈ a.operandsOf id) : c ≤ a.types.length := by
  rw [operandsOf] at h
  cases hr : a.material id with
  | none => simp [hr] at h
  | some r =>
    rw [hr] at h
    exact a.inside r (material_mem hr) c h

theorem Interned.operand (hint : a.Interned) (h : a.material id = some r)
    (hk : r.kind = .complex ∨ r.kind = .array) : ∃ op, r.operands = [op] := by
  have hbuilt := (hint r (material_mem h)).1
  rw [Built, if_neg (by rcases hk with hk | hk <;> simp [TypeRecord.IsComposite, hk]),
    if_neg (by rcases hk with hk | hk <;> simp [hk])] at hbuilt
  have hmade := hbuilt.1
  rcases hk with hk | hk
  · simp only [rebuilt, hk] at hmade
    split at hmade
    · obtain ⟨op, hop⟩ : ∃ op, r.operands = [op] :=
        ⟨_, (congrArg TypeRecord.operands (Except.ok.inj hmade)).symm⟩
      exact ⟨op, hop⟩
    · cases hmade
  · simp only [rebuilt, hk] at hmade
    split at hmade
    · obtain ⟨op, hop⟩ : ∃ op, r.operands = [op] :=
        ⟨_, (congrArg TypeRecord.operands (Except.ok.inj hmade)).symm⟩
      exact ⟨op, hop⟩
    · cases hmade

end TypeArena

section Dependencies

variable {a : TypeArena} {params : AggregateLayoutParams} {dm : DataModel} {v d : ℕ}
  {r : TypeRecord} {memo memo' : LayoutMemo}

theorem mem_dependency : d ∈ forEachLayoutDependency a v ↔
    ∃ r, a.material v = some r ∧ r.Holds ∧ ∃ c ∈ r.operands, d = a.layoutRoot c ∨
      a.isIncompleteArray c = true ∧ ∃ e, (a.operandsOf c).head? = some e ∧ d = a.layoutRoot e := by
  rw [forEachLayoutDependency]
  cases hr : a.material v with
  | none => simp
  | some r =>
    simp only [Option.some.injEq, exists_eq_left']
    by_cases hh : r.Holds
    · rw [if_pos hh]
      simp only [hh, true_and, List.mem_flatMap, List.mem_cons]
      refine exists_congr fun c => and_congr_right fun _ => or_congr_right ?_
      by_cases hinc : a.isIncompleteArray c = true
      · simp [hinc, eq_comm]
      · simp [hinc]
    · simp [hh]

theorem dependency_le (h : d ∈ forEachLayoutDependency a v) : d ≤ a.types.length := by
  obtain ⟨r, hr, -, c, hc, rfl | ⟨-, e, he, rfl⟩⟩ := mem_dependency.1 h
  · exact TypeArena.layoutRoot_le (a.inside r (TypeArena.material_mem hr) c hc)
  · exact TypeArena.layoutRoot_le (TypeArena.operandsOf_le (List.mem_of_mem_head? he))

theorem material_of_incomplete {c : ℕ} (hinc : a.isIncompleteArray c = true) :
    ∃ r, a.material c = some r ∧ r.kind = .array := by
  rw [TypeArena.isIncompleteArray] at hinc
  cases hr : a.material c with
  | none => simp [hr] at hinc
  | some r =>
    simp only [hr, Option.any_some, decide_eq_true_eq] at hinc
    exact ⟨r, rfl, hinc.1⟩

theorem element_dependency {c e : ℕ} (hinc : a.isIncompleteArray c = true)
    (he : (a.operandsOf c).head? = some e) :
    a.layoutRoot e ∈ forEachLayoutDependency a (a.layoutRoot c) := by
  obtain ⟨r, hr, hk⟩ := material_of_incomplete hinc
  refine mem_dependency.2 ⟨r, ?_, .inr (.inl hk), e, ?_, .inl rfl⟩
  · rw [TypeArena.material_layoutRoot, hr]
  · rw [TypeArena.operandsOf, hr] at he
    exact List.mem_of_mem_head? he

theorem dependency_of_incomplete (hint : a.Interned) {c e : ℕ}
    (hinc : a.isIncompleteArray c = true) (he : (a.operandsOf c).head? = some e)
    (h : d ∈ forEachLayoutDependency a (a.layoutRoot c)) : d = a.layoutRoot e ∨
      d ∈ forEachLayoutDependency a (a.layoutRoot e) := by
  obtain ⟨r, hr, -, op, hop, hd⟩ := mem_dependency.1 h
  obtain ⟨r', hr', hk⟩ := material_of_incomplete hinc
  rw [TypeArena.material_layoutRoot, hr'] at hr
  obtain rfl := Option.some.inj hr
  obtain ⟨op', hops⟩ := TypeArena.Interned.operand hint hr' (.inr hk)
  rw [TypeArena.operandsOf, hr'] at he
  obtain rfl : op' = e := by simpa [hops] using he
  obtain rfl : op = op' := by simpa [hops] using hop
  rcases hd with hd | ⟨hinc', e', he', rfl⟩
  · exact .inl hd
  · exact .inr (element_dependency hinc' he')

/-- What is asked for a field: its type, or of an array without a length its element. -/
def heldLayout (a : TypeArena) (memo : LayoutMemo) (c : ℕ) : Option StructLayout :=
  if a.isIncompleteArray c then (a.operandsOf c).head?.bind (childLayout a memo)
  else childLayout a memo c

theorem layoutOne_looks (h : ∀ d ∈ forEachLayoutDependency a v, memo d = memo' d) :
    layoutOne a params dm memo v = layoutOne a params dm memo' v := by
  have hmat : layoutOneMaterial a params dm memo v = layoutOneMaterial a params dm memo' v := by
    rw [layoutOneMaterial, layoutOneMaterial]
    cases hr : a.material v with
    | none => rfl
    | some r =>
      by_cases hh : r.Holds
      · have hchild : ∀ c ∈ r.operands, childLayout a memo c = childLayout a memo' c := by
          intro c hc
          rw [childLayout, childLayout, h _ (mem_dependency.2 ⟨r, hr, hh, c, hc, .inl rfl⟩)]
        have hheld : ∀ c ∈ r.operands, heldLayout a memo c = heldLayout a memo' c := by
          intro c hc
          rw [heldLayout, heldLayout]
          split_ifs with hinc
          · cases he : (a.operandsOf c).head? with
            | none => rfl
            | some e =>
              have hdep := mem_dependency.2 ⟨r, hr, hh, c, hc, .inr ⟨hinc, e, he, rfl⟩⟩
              rw [Option.bind_some, Option.bind_some, childLayout, childLayout, h _ hdep]
          · exact hchild c hc
        have hcomp : compositeOf a memo r = compositeOf a memo' r := by
          rw [compositeOf, compositeOf]
          congr 1
          refine List.map_congr_left fun x hx => ?_
          have hxc := hheld x.1 (List.fst_mem_of_mem_zipIdx hx)
          rw [heldLayout, heldLayout] at hxc
          rw [fieldOf, fieldOf, hxc]
        have hhead : ∀ {B : Type} (k : StructLayout → Option B),
            (r.operands.head?.bind fun op => (childLayout a memo op).bind k) =
              r.operands.head?.bind fun op => (childLayout a memo' op).bind k := by
          intro B k
          cases hop : r.operands.head? with
          | none => rfl
          | some op =>
            rw [Option.bind_some, Option.bind_some, hchild op (List.mem_of_mem_head? hop)]
        rcases hh with hk | hk | hk | hk
        · simp only [hk, scalarByteSize, Option.bind_eq_bind, hhead]
        · simp only [hk, scalarByteSize, Option.bind_eq_bind]
          cases hop : r.operands.head? with
          | none => rfl
          | some op => simp only [Option.bind_some, hchild op (List.mem_of_mem_head? hop)]
        · simp only [hk, scalarByteSize, hcomp]
        · simp only [hk, scalarByteSize, hcomp]
      · -- the other kinds ask for nothing
        dsimp only
        cases hk : r.kind <;> first | rfl | exact absurd (by simp [TypeRecord.Holds, hk]) hh
  rw [layoutOne, layoutOne, hmat]

theorem layoutOne_eq_none (hint : a.Interned) (hr : a.material v = some r) (hh : r.Holds) {c : ℕ}
    (hc : c ∈ r.operands) (hheld : heldLayout a memo c = none)
    (hchild : childLayout a memo c = none) : layoutOne a params dm memo v = none := by
  have hmat : layoutOneMaterial a params dm memo v = none := by
    rw [layoutOneMaterial, hr]
    simp only
    have hcomp : ∀ kind, layoutComposite u64 params.toLayoutParams kind (compositeOf a memo r)
        = none := by
      intro kind
      by_contra hne
      obtain ⟨lay, hlay⟩ := Option.ne_none_iff_exists'.1 hne
      obtain ⟨i, hi, rfl⟩ := List.getElem_of_mem hc
      have hmem : (r.operands[i], i) ∈ r.operands.zipIdx := by
        simp [List.mk_mem_zipIdx_iff_getElem?, hi]
      refine Layout.layoutComposite_layout hlay _ (List.mem_map.2 ⟨_, hmem, rfl⟩) ?_
      rw [heldLayout] at hheld
      rw [fieldOf, hheld]
      rfl
    rcases hh with hk | hk | hk | hk
    · obtain ⟨op, hops⟩ := TypeArena.Interned.operand hint hr (.inl hk)
      obtain rfl : c = op := by simpa [hops] using hc
      simp [hk, scalarByteSize, hops, hchild]
    · obtain ⟨op, hops⟩ := TypeArena.Interned.operand hint hr (.inr hk)
      obtain rfl : c = op := by simpa [hops] using hc
      simp [hk, scalarByteSize, hops, hchild]
    · simp [hk, scalarByteSize, hcomp]
    · simp [hk, scalarByteSize, hcomp]
  rw [layoutOne, hmat]
  rfl

end Dependencies

section Recursion

variable {a : TypeArena} {params : AggregateLayoutParams} {dm : DataModel} {v : ℕ}

theorem layoutBody_regular (hint : a.Interned) :
    ThreeColour.Regular (forEachLayoutDependency a) (layoutBody a params dm) where
  looks v m m' h := layoutOne_looks h
  refuses v m hcyc hm := by
    obtain ⟨d, hd, hdc⟩ := ThreeColour.reachesCycle_iff.1 hcyc
    obtain ⟨r, hr, hh, c, hc, hdep⟩ := mem_dependency.1 hd
    have hnone : ∀ c, a.layoutRoot c ∈ forEachLayoutDependency a v →
        ThreeColour.ReachesCycle (forEachLayoutDependency a) (a.layoutRoot c) →
        childLayout a m c = none := by
      intro c hdep hcyc
      rw [childLayout, hm _ hdep hcyc]
      rfl
    have hheld : a.layoutRoot c ∈ forEachLayoutDependency a v :=
      mem_dependency.2 ⟨r, hr, hh, c, hc, .inl rfl⟩
    -- what the type holds reaches the cycle, be it through the element of an array
    have hroot : ThreeColour.ReachesCycle (forEachLayoutDependency a) (a.layoutRoot c) := by
      rcases hdep with rfl | ⟨hinc, e, he, rfl⟩
      · exact hdc
      · exact hdc.head (.single (element_dependency hinc he))
    refine layoutOne_eq_none hint hr hh hc ?_ (hnone c hheld hroot)
    rw [heldLayout]
    split_ifs with hinc
    · cases he : (a.operandsOf c).head? with
      | none => rfl
      | some e =>
        obtain ⟨d', hd', hdc'⟩ := ThreeColour.reachesCycle_iff.1 hroot
        have helem : ThreeColour.ReachesCycle (forEachLayoutDependency a) (a.layoutRoot e) := by
          rcases dependency_of_incomplete hint hinc he hd' with rfl | hd'
          · exact hdc'
          · exact hdc'.head (.single hd')
        exact hnone e (mem_dependency.2 ⟨r, hr, hh, c, hc, .inr ⟨hinc, e, he, rfl⟩⟩) helem
    · exact hnone c hheld hroot

theorem dependency_mem_range {d : ℕ} (h : d ∈ forEachLayoutDependency a v) :
    d ∈ Finset.range (a.types.length + 1) :=
  Finset.mem_range.2 (Nat.lt_succ_of_le (dependency_le h))

theorem layoutRecursive_eq (hint : a.Interned) (hv : v ≤ a.types.length) :
    layoutRecursive a params dm v =
      layoutOne a params dm (fun d => some (layoutRecursive a params dm d)) v := by
  have hreg : ThreeColour.Regular _ (layoutBody a params dm) := layoutBody_regular hint
  have h := ThreeColour.recursive_eq hreg (S := Finset.range (a.types.length + 1))
    (fun _ _ _ => dependency_mem_range) (Finset.mem_range.2 (Nat.lt_succ_of_le hv))
  rwa [Finset.card_range] at h

theorem layoutOne_incomplete {memo : LayoutMemo} {c : ℕ} (h : a.isIncompleteArray c = true) :
    layoutOne a params dm memo (a.layoutRoot c) = none := by
  obtain ⟨r, hr, hk⟩ := material_of_incomplete h
  have hc : ¬ (r.IsComposite ∧ r.composite.complete = false) := by
    simp [TypeRecord.IsComposite, hk]
  have hmat : layoutOneMaterial a params dm memo (a.layoutRoot c) = none := by
    rw [layoutOneMaterial, TypeArena.material_layoutRoot, hr]
    simp only [if_neg hc, hk, scalarByteSize, TypeArena.isIncompleteArray_layoutRoot, h, if_true]
  rw [layoutOne, hmat]
  rfl

theorem layoutRecursive_eq_none (hint : a.Interned) (hv : v ≤ a.types.length) {d : ℕ}
    (hd : d ∈ forEachLayoutDependency a v) (hinc : a.isIncompleteArray d = false)
    (h : layoutRecursive a params dm d = none) : layoutRecursive a params dm v = none := by
  rw [layoutRecursive_eq hint hv]
  obtain ⟨r, hr, hh, c, hc, rfl | ⟨hinc', e, he, rfl⟩⟩ := mem_dependency.1 hd
  · rw [TypeArena.isIncompleteArray_layoutRoot] at hinc
    have hchild : childLayout a (fun d => some (layoutRecursive a params dm d)) c = none := h
    refine layoutOne_eq_none hint hr hh hc ?_ hchild
    rw [heldLayout, if_neg (Bool.eq_false_iff.1 hinc)]
    exact hchild
  · refine layoutOne_eq_none hint hr hh hc ?_ ?_
    · rw [heldLayout, if_pos hinc', he]
      exact h
    · have hle := a.inside r (TypeArena.material_mem hr) c hc
      exact (layoutRecursive_eq hint (TypeArena.layoutRoot_le hle)).trans
        (layoutOne_incomplete hinc')

def NeverMisses (a : TypeArena) (s : ThreeColour.Walk ℕ StructLayout) : Prop :=
  ∀ v rest, s.work = (v, .resolve) :: rest → v ∉ s.cyclic →
    ∀ d ∈ forEachLayoutDependency a v, (s.memo d).isSome

/-- **The layout of every type.** From every root and for every order of the dependencies the walk
ends, with what the recursion gives, and never misses the memo. -/
theorem computeLayout_recursive (a : TypeArena) (hint : a.Interned)
    (params : AggregateLayoutParams) (dm : DataModel) :
    (∀ dependencies : ℕ → List ℕ,
      (∀ v d, d ∈ forEachLayoutDependency a v ↔ d ∈ dependencies v) → ∀ id ≤ a.types.length,
        (∃ m, ∀ n ≥ m, computeLayout a params dm dependencies n id =
          some (layoutRecursive a params dm (a.layoutRoot id))) ∧
        ∀ n, NeverMisses a
          (ThreeColour.after dependencies (layoutBody a params dm) (a.layoutRoot id) n)) ∧
    ∀ v ≤ a.types.length,
      (ThreeColour.ReachesCycle (forEachLayoutDependency a) v →
        layoutRecursive a params dm v = none) ∧
      layoutRecursive a params dm v =
        layoutOne a params dm (fun d => some (layoutRecursive a params dm d)) v ∧
      ∀ d ∈ forEachLayoutDependency a v, a.isIncompleteArray d = false →
        layoutRecursive a params dm d = none → layoutRecursive a params dm v = none := by
  refine ⟨fun dependencies hsame id hid => ?_, fun v hv => ⟨fun hcyc => ?_, ?_, ?_⟩⟩
  · have hreg : ThreeColour.Regular dependencies (layoutBody a params dm) :=
      (layoutBody_regular hint).congr hsame
    have hS : ∀ v ∈ Finset.range (a.types.length + 1), ∀ d ∈ dependencies v,
        d ∈ Finset.range (a.types.length + 1) :=
      fun v _ d hd => dependency_mem_range ((hsame v d).2 hd)
    have hroot : a.layoutRoot id ∈ Finset.range (a.types.length + 1) :=
      Finset.mem_range.2 (Nat.lt_succ_of_le (TypeArena.layoutRoot_le hid))
    constructor
    · rw [layoutRecursive]
      simp only [computeLayout]
      split_ifs with hdeps
      · obtain ⟨m, hm⟩ := ThreeColour.answer_eq hreg hS hroot
        rw [Finset.card_range] at hm
        exact ⟨m, hm⟩
      · -- nothing is asked for, so any memo will do
        have hnil : forEachLayoutDependency a (a.layoutRoot id) = [] := by
          refine List.eq_nil_iff_forall_not_mem.2 fun d hd => hdeps ?_
          obtain ⟨r, hr, hh, c, hc, -⟩ := mem_dependency.1 hd
          simp [hasLayoutDependencies, hr, hh, List.ne_nil_of_mem hc]
        refine ⟨0, fun n _ => congrArg some ?_⟩
        refine Eq.trans ?_ (layoutRecursive_eq hint (TypeArena.layoutRoot_le hid)).symm
        exact layoutOne_looks fun d hd => by simp [hnil] at hd
    · intro n v rest hwork hv d hd
      exact ThreeColour.known_of_resolve (ThreeColour.inv_after hreg hS hroot n) hwork hv d
        ((hsame v d).1 hd)
  · exact ThreeColour.recursive_eq_none (layoutBody_regular hint) _ hcyc
  · exact layoutRecursive_eq hint hv
  · exact fun d hd => layoutRecursive_eq_none hint hv hd

end Recursion

def gnuAggregateParams : AggregateLayoutParams := ⟨Layout.gnuParams, ⟨4, by decide⟩⟩

theorem computeLayout_recursive_channelUnit :
    ∃ m, ∀ n ≥ m, computeLayout (channelUnit 1 (some [1, 0]) none) gnuAggregateParams .lp64
      (forEachLayoutDependency (channelUnit 1 (some [1, 0]) none)) n 3 =
        some (some ⟨8, ⟨2, by decide⟩, [⟨0, 0, 0, 0⟩, ⟨4, 0, 0, 0⟩], false⟩) :=
  (((computeLayout_recursive _ (channelUnit_interned 1) gnuAggregateParams .lp64).1
    (forEachLayoutDependency (channelUnit 1 (some [1, 0]) none)) (fun _ _ => Iff.rfl) 3
    (by decide)).1)

def flexibleUnit : TypeArena where
  owner := 1
  types := [contentRecord .i32 0 [] [] [], contentRecord .array 0 [1] [kIncompleteArrayLength] [],
    { contentRecord .struct 0 [1, 2] [] [83] with
      composite := ⟨true, false, 0, 0, none, none, none⟩ },
    contentRecord .void 0 [] [] []]
  inside := by simp [contentRecord]
  ordered := by
    rintro (_ | _ | _ | _ | i) r h hr op hop
    · obtain rfl := Option.some_inj.mp h
      cases hop
    · obtain rfl := Option.some_inj.mp h
      have hop1 : op = 1 := by simpa [contentRecord] using hop
      omega
    · obtain rfl := Option.some_inj.mp h
      exact absurd (.inl rfl) hr
    · obtain rfl := Option.some_inj.mp h
      cases hop
    · simp at h

/-- The struct has a layout although the array in it has none, and `void` has none although it holds
nothing. -/
theorem flexibleUnit_layouts :
    2 ∈ forEachLayoutDependency flexibleUnit 3 ∧
      computeLayout flexibleUnit gnuAggregateParams .lp64 (forEachLayoutDependency flexibleUnit)
        10 2 = some none ∧
      (∃ l, computeLayout flexibleUnit gnuAggregateParams .lp64
        (forEachLayoutDependency flexibleUnit) 10 3 = some (some l)) ∧
      forEachLayoutDependency flexibleUnit 4 = [] ∧
      computeLayout flexibleUnit gnuAggregateParams .lp64 (forEachLayoutDependency flexibleUnit)
        10 4 = some none :=
  ⟨by decide, by decide, ⟨_, rfl⟩, by decide, by decide⟩

end DssPrime
