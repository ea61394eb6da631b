import DssPrime.Types.Representation
import Mathlib

/-!
# The representation of a type is found

The two passes of `representationType` end with the answer of the type, for every host that the
builders of the interner make.
-/

namespace DssPrime

open ThreeColour (Phase)

variable {K : Type}

namespace Host

section Level

variable {h h' : Host K} {u v id : ℕ} {r : TypeRecord} {childOf : ℕ → ℕ}
  {projected : ℕ → Option ℕ}

theorem pos_of_record (hr : h.record? id = some r) : 0 < id := by
  rcases Nat.eq_zero_or_pos id with rfl | hpos
  · simp [record?, Host.get?] at hr
  · exact hpos

theorem materialId_plain (hr : h.record? id = some r) (hk : r.kind ≠ .volatileQual) :
    materialId h.record? id id = id := by
  cases id with
  | zero => rfl
  | succ n =>
    rw [materialId, hr]
    simp only [if_neg hk]

theorem materialId_skin (hf : h.Formed) (hr : h.record? id = some r) (hk : r.kind = .volatileQual) :
    ∃ base b, r.operands = [base] ∧ h.record? base = some b ∧ b.kind ≠ .volatileQual ∧
      materialId h.record? id id = base := by
  obtain ⟨base, b, hshape, hb, hbk, -⟩ := (hf.shaped id r hr).qualified hk
  have hops : r.operands = [base] := congrArg TypeRecord.operands hshape
  refine ⟨base, b, hops, hb, hbk, ?_⟩
  have hpos := pos_of_record hr
  obtain ⟨n, rfl⟩ : ∃ n, id = n + 1 := ⟨id - 1, by omega⟩
  rw [materialId, hr]
  simp only [if_pos hk, hops, List.headD_cons]
  cases n with
  | zero => rfl
  | succ n =>
    rw [materialId, hb]
    simp only [if_neg hbk]

theorem material_plain (hr : h.record? id = some r) (hk : r.kind ≠ .volatileQual) :
    h.material id = some r := by
  rw [material, materialId_plain hr hk, hr]

theorem qualifierBits_plain (hr : h.record? id = some r) (hk : r.kind ≠ .volatileQual) :
    h.qualifierBits id = 0 := by
  rw [qualifierBits, hr]
  simp only [if_neg hk]

theorem qualifierBits_skin (hr : h.record? id = some r) (hk : r.kind = .volatileQual) :
    h.qualifierBits id = r.qualifierBits := by
  rw [qualifierBits, hr]
  simp only [if_pos hk]

theorem Shaped.content_eq (hs : h.Shaped r) (hc : Composer r.kind) (hk : r.kind ≠ .volatileQual)
    (ops : List ℕ) :
    { r with operands := ops } = contentRecord r.kind 0 ops r.scalars [] ∧
      r.extensionKind = 0 := by
  have hparts : ∃ k ops sc, r = contentRecord k 0 ops sc [] := by
    rcases hc with hc | hc | hc | hc
    · exact absurd hc hk
    · obtain ⟨op, hr⟩ := hs.pointer hc
      exact ⟨_, _, _, hr⟩
    · obtain ⟨op, n, hr⟩ := hs.array hc
      exact ⟨_, _, _, hr⟩
    · obtain ⟨ops, cc, -, hr⟩ := hs.signature hc
      exact ⟨_, _, _, hr⟩
  obtain ⟨k, ops, sc, rfl⟩ := hparts
  exact ⟨rfl, rfl⟩

theorem Shaped.representationOperands (hs : h.Shaped r) (hk : r.kind ≠ .volatileQual) :
    Host.representationOperands r = if Composer r.kind then r.operands else [] := by
  by_cases hc : Composer r.kind
  · rw [if_pos hc]
    rcases hc with hc | hc | hc | hc
    · exact absurd hc hk
    · obtain ⟨op, hr⟩ := hs.pointer hc
      rw [hr]
      rfl
    · obtain ⟨op, n, hr⟩ := hs.array hc
      rw [hr]
      rfl
    · rw [Host.representationOperands, hc]
  · rw [if_neg hc, Host.representationOperands]
    cases hkind : r.kind <;> first | rfl | exact absurd (by simp [Composer, hkind]) hc

theorem nullBelow_plain (hf : h.Formed) (hr : h.record? u = some r) (hk : r.kind ≠ .volatileQual) :
    NullBelow h u ↔
      r.kind = .nullptrT ∨ ∃ c ∈ representationOperands r, NullBelow h c := by
  rw [(hf.shaped u r hr).representationOperands hk]
  constructor
  · intro hn
    rcases hn.cases_record hr with hnull | ⟨hc, v, hv, hnv⟩
    · exact .inl hnull
    · rw [if_pos hc]
      exact .inr ⟨v, hv, hnv⟩
  · rintro (hnull | ⟨v, hv, hnv⟩)
    · exact .leaf hr hnull
    · split_ifs at hv with hc
      · exact .step hr hc hv hnv
      · cases hv

theorem nullBelow_skin {base : ℕ} (hr : h.record? u = some r) (hk : r.kind = .volatileQual)
    (hops : r.operands = [base]) : NullBelow h u ↔ NullBelow h base := by
  constructor
  · intro hn
    rcases hn.cases_record hr with hnull | ⟨-, v, hv, hnv⟩
    · rw [hk] at hnull
      cases hnull
    · rw [hops] at hv
      rwa [← List.mem_singleton.1 hv]
  · exact fun hn => .step hr (.inl hk) (by simp [hops]) hn

theorem operands_lt (hf : h.Formed) (hr : h.record? u = some r) (hk : r.kind ≠ .volatileQual)
    {c : ℕ} (hc : c ∈ representationOperands r) : c < u ∧ (h.record? c).isSome := by
  rw [(hf.shaped u r hr).representationOperands hk] at hc
  split_ifs at hc with hcomp
  · exact ⟨hf.below u r hr hcomp c hc, (hf.shaped u r hr).operands hcomp c hc⟩
  · cases hc

theorem children_lt (hf : h.Formed) (hr : h.record? u = some r) {c : ℕ}
    (hc : c ∈ h.representationChildren u) : c < u ∧ (h.record? c).isSome := by
  rw [representationChildren, if_neg (pos_of_record hr).ne'] at hc
  by_cases hk : r.kind = .volatileQual
  · obtain ⟨base, b, hops, hb, hbk, hbase⟩ := materialId_skin hf hr hk
    have hlt : base < u := hf.below u r hr (.inl hk) base (by simp [hops])
    split_ifs at hc with hbits
    · rw [hbase] at hc
      rw [List.mem_singleton.1 hc, hb]
      exact ⟨hlt, rfl⟩
    · rw [material, hbase, hb] at hc
      obtain ⟨hcb, hcr⟩ := operands_lt hf hb hbk hc
      exact ⟨hcb.trans hlt, hcr⟩
  · rw [qualifierBits_plain hr hk, if_neg (by simp), material_plain hr hk] at hc
    exact operands_lt hf hr hk hc

theorem nullBelow_iff (hf : h.Formed) (hr : h.record? u = some r) :
    NullBelow h u ↔ (h.material u).map (·.kind) = some .nullptrT ∨
      ∃ c ∈ h.representationChildren u, NullBelow h c := by
  rw [representationChildren, if_neg (pos_of_record hr).ne']
  by_cases hk : r.kind = .volatileQual
  · obtain ⟨base, b, hops, hb, hbk, hbase⟩ := materialId_skin hf hr hk
    rw [nullBelow_skin hr hk hops, material, hbase, hb, Option.map_some, Option.some.injEq]
    split_ifs with hbits
    · simp only [List.mem_singleton, exists_eq_left]
      exact ⟨.inr, fun hn => hn.elim (fun hnull => .leaf hb hnull) id⟩
    · exact nullBelow_plain hf hb hbk
  · rw [qualifierBits_plain hr hk, if_neg (by simp), material_plain hr hk, Option.map_some,
      Option.some.injEq]
    exact nullBelow_plain hf hr hk

theorem Formed.recompose [DecidableEq K] (hf : h.Formed) (hr : h.record? u = some r)
    (hc : Composer r.kind) (hk : r.kind ≠ .volatileQual) (hn : NullBelow h u)
    (hchild : ∀ c ∈ r.operands, Answer h c (childOf c)) :
    ∃ p h', h.internContent { r with operands := r.operands.map childOf } = .ok (p, h') ∧
      h.Extends h' ∧ h'.Formed ∧ Answer h' u p := by
  have hs := hf.shaped u r hr
  obtain ⟨hcontent, hzero⟩ := hs.content_eq hc hk (r.operands.map childOf)
  have hnew : Shaped h { r with operands := r.operands.map childOf } := by
    refine ⟨fun _ op hop => ?_, fun hq => absurd hq hk, fun hp => ?_, fun ha => ?_, fun hsig => ?_⟩
    · obtain ⟨c, hcm, rfl⟩ := List.mem_map.1 hop
      exact (hchild c hcm).record
    · obtain ⟨op, hop⟩ := hs.pointer hp
      refine ⟨childOf op, ?_⟩
      rw [hop]
      rfl
    · obtain ⟨op, n, hop⟩ := hs.array ha
      refine ⟨childOf op, n, ?_⟩
      rw [hop]
      rfl
    · obtain ⟨ops, cc, hne, hop⟩ := hs.signature hsig
      have hops : r.operands = ops := congrArg TypeRecord.operands hop
      have hsc : r.scalars = if r.isVariadic then [cc, 1] else [cc] :=
        congrArg TypeRecord.scalars hop
      refine ⟨r.operands.map childOf, cc, by simpa [hops] using hne, ?_⟩
      rw [← hsc, ← hsig]
      exact hcontent
  have hext : r.kind = .extension ↔ r.extensionKind ≠ 0 := by
    rcases hc with hc | hc | hc | hc <;> simp [hc, hzero]
  obtain ⟨p, h', hp, hg, hf', hr'⟩ :=
    hf.intern (r := { r with operands := r.operands.map childOf }) hext hnew
  refine ⟨p, h', hp, hg, hf', .compose
    (hg.record? hf (not_isComposite (.inr (.inr hc))) hr) hc hk (hn.grows hf hg) (by simp) ?_ hr'⟩
  intro i v v' hv hv'
  rw [List.getElem?_map, hv] at hv'
  obtain rfl := Option.some.inj hv'
  exact (hchild v (List.mem_of_getElem? hv)).grows hf hg

theorem projectMaterial_spec [DecidableEq K] (hf : h.Formed) (hr : h.record? u = some r)
    (hk : r.kind ≠ .volatileQual)
    (hchild : ∀ c ∈ representationOperands r, Answer h c (childOf c)) (id : ℕ) :
    (¬ NullBelow h u ∧ h.projectMaterial childOf id r = .ok (id, h)) ∨
      (NullBelow h u ∧ ∃ p h', h.projectMaterial childOf id r = .ok (p, h') ∧ h.Extends h' ∧
        h'.Formed ∧ Answer h' u p) := by
  have hs := hf.shaped u r hr
  have hops := hs.representationOperands hk
  by_cases hc : Composer r.kind
  · rw [if_pos hc] at hops
    rw [hops] at hchild
    have hself : r.operands.map childOf = r.operands ↔ ∀ c ∈ r.operands, childOf c = c := by
      conv_lhs => rhs; rw [← List.map_id r.operands]
      exact List.map_inj_left
    have hnull : NullBelow h u ↔ r.operands.map childOf ≠ r.operands := by
      rw [nullBelow_plain hf hr hk, hops, or_iff_right fun hnull => not_composer_null hnull hc]
      constructor
      · rintro ⟨c, hcm, hn⟩ heq
        have := hself.1 heq c hcm
        exact ((hchild c hcm).eq_iff).1 this hn
      · intro hne
        by_contra hno
        refine hne (hself.2 fun c hcm => ((hchild c hcm).eq_iff).2 fun hn => ?_)
        exact hno ⟨c, hcm, hn⟩
    have hbranch : h.projectMaterial childOf id r =
        if r.operands.map childOf = r.operands then .ok (id, h)
        else h.internContent { r with operands := r.operands.map childOf } := by
      rcases hc with hc | hc | hc | hc
      · exact absurd hc hk
      · obtain ⟨op, hop⟩ := hs.pointer hc
        rw [hop]
        simp [projectMaterial, contentRecord]
      · obtain ⟨op, n, hop⟩ := hs.array hc
        rw [hop]
        simp [projectMaterial, contentRecord]
      · obtain ⟨ops, cc, -, hop⟩ := hs.signature hc
        have hsc : r.scalars = if r.isVariadic then [cc, 1] else [cc] :=
          congrArg TypeRecord.scalars hop
        obtain ⟨rest, hrest⟩ : ∃ rest, r.scalars = cc :: rest := by
          rw [hsc]
          split <;> exact ⟨_, rfl⟩
        rw [(hs.content_eq (.inr (.inr (.inr hc))) hk (r.operands.map childOf)).1, projectMaterial,
          hc]
        simp only [hrest]
        rw [← hrest, hsc]
    rw [hbranch]
    by_cases hsame : r.operands.map childOf = r.operands
    · rw [if_pos hsame]
      exact .inl ⟨fun hn => hnull.1 hn hsame, rfl⟩
    · rw [if_neg hsame]
      exact .inr ⟨hnull.2 hsame, hf.recompose hr hc hk (hnull.2 hsame) hchild⟩
  · rw [if_neg hc] at hops
    by_cases hnull : r.kind = .nullptrT
    · right
      refine ⟨.leaf hr hnull, ?_⟩
      obtain ⟨v, h₁, hv, hg₁, hf₁, hrv⟩ := hf.intern
        (r := contentRecord .void 0 [] [] []) (by decide) (shaped_of_plain (by decide))
      have hptr : Shaped h₁ (contentRecord .ptr 0 [v] [] []) := by
        refine ⟨fun _ op hop => ?_, fun hk' => ?_, fun _ => ⟨v, rfl⟩, fun hk' => ?_, fun hk' => ?_⟩
        · rw [List.mem_singleton.1 hop, hrv]
          rfl
        · exact absurd hk' (by simp [contentRecord])
        · exact absurd hk' (by simp [contentRecord])
        · exact absurd hk' (by simp [contentRecord])
      obtain ⟨p, h₂, hp, hg₂, hf₂, hrp⟩ := hf₁.intern
        (by simp [contentRecord]) hptr
      refine ⟨p, h₂, ?_, hg₁.trans hg₂, hf₂,
        .null ((hg₁.trans hg₂).record? hf (not_isComposite (.inl hnull)) hr) hnull hrp
          (hg₂.record? hf₁ (not_isComposite (.inr (.inl rfl))) hrv)⟩
      rw [projectMaterial, hnull]
      simp only [hv]
      exact hp
    · left
      have hn : ¬ NullBelow h u := by
        rw [nullBelow_plain hf hr hk, hops]
        simp [hnull]
      refine ⟨hn, ?_⟩
      rw [projectMaterial]
      cases hkind : r.kind <;>
        first | rfl | exact absurd hkind hnull | exact absurd (by simp [Composer, hkind]) hc

theorem level_spec [DecidableEq K] (hf : h.Formed) (hr : h.record? id = some r)
    (hproj : ∀ c c', projected c = some c' → Answer h c c')
    (hall : ∀ c ∈ h.representationChildren id, (projected c).isSome) :
    ∃ p h', h.projectRepresentationLevel projected id = .ok (p, h') ∧ h.Extends h' ∧ h'.Formed ∧
      Answer h' id p := by
  have hchild : ∀ c ∈ h.representationChildren id, Answer h c ((projected c).getD c) := by
    intro c hc
    obtain ⟨c', hc'⟩ := Option.isSome_iff_exists.1 (hall c hc)
    rw [hc']
    exact hproj c c' hc'
  rw [representationChildren, if_neg (pos_of_record hr).ne'] at hchild
  simp only [projectRepresentationLevel, if_neg (pos_of_record hr).ne']
  by_cases hk : r.kind = .volatileQual
  · obtain ⟨base, b, hops, hb, hbk, hbase⟩ := materialId_skin hf hr hk
    have hplain := not_isComposite (.inr (.inr (.inl hk)))
    rw [qualifierBits_skin hr hk] at hchild ⊢
    by_cases hbits : r.qualifierBits = 0
    · rw [if_neg (not_not.2 hbits), material, hbase, hb] at hchild
      rw [if_neg (not_not.2 hbits), material, hbase, hb]
      rcases projectMaterial_spec hf hb hbk hchild id with ⟨hn, hok⟩ | ⟨hn, p, h', hok, hg, hf', ha⟩
      · exact ⟨id, h, hok, .refl h, hf, .same hr fun hn' => hn ((nullBelow_skin hr hk hops).1 hn')⟩
      · exact ⟨p, h', hok, hg, hf', .bare (hg.record? hf hplain hr) hk hbits hops
          (hn.grows hf hg) ha⟩
    · rw [if_pos hbits, hbase] at hchild
      have ha := hchild base List.mem_cons_self
      rw [if_pos hbits, hbase]
      by_cases hsame : (projected base).getD base = base
      · rw [if_pos hsame]
        refine ⟨id, h, rfl, .refl h, hf, .same hr fun hn => ?_⟩
        exact (ha.eq_iff).1 hsame ((nullBelow_skin hr hk hops).1 hn)
      · rw [if_neg hsame]
        have hn : NullBelow h base := by
          by_contra hno
          exact hsame ((ha.eq_iff).2 hno)
        generalize (projected base).getD base = base' at ha hsame ⊢
        obtain ⟨b', hb'⟩ := Option.isSome_iff_exists.1 ha.record
        have hbk' := ha.not_skin hb hbk hb'
        have hshape : Shaped h
            (contentRecord .volatileQual 0 [base'] [r.qualifierBits.toUInt64] []) := by
          refine ⟨fun _ op hop => ?_, fun _ => ⟨base', b', ?_, hb', hbk', ?_⟩, fun hk' => ?_,
            fun hk' => ?_, fun hk' => ?_⟩
          · rw [List.mem_singleton.1 hop, hb']
            rfl
          · simp [contentRecord]
          · simp [contentRecord, hbits]
          · exact absurd hk' (by simp [contentRecord])
          · exact absurd hk' (by simp [contentRecord])
          · exact absurd hk' (by simp [contentRecord])
        obtain ⟨p, h', hp, hg, hf', hr'⟩ := hf.intern
          (by simp [contentRecord]) hshape
        refine ⟨p, h', ?_, hg, hf', .skin (hg.record? hf hplain hr) hk hbits hops
          (hn.grows hf hg) (ha.grows hf hg) hr'⟩
        rw [Host.qualified, if_neg (pos_of_record hb').ne', hb']
        simp only [Option.getD_some, if_neg hbk', materialId_plain hb' hbk']
        simpa [hbits] using hp
  · rw [qualifierBits_plain hr hk, if_neg (by simp), material_plain hr hk] at hchild
    rw [qualifierBits_plain hr hk, if_neg (by simp), material_plain hr hk]
    rcases projectMaterial_spec hf hr hk hchild id with ⟨hn, hok⟩ | ⟨hn, p, h', hok, hg, hf', ha⟩
    · exact ⟨id, h, hok, .refl h, hf, .same hr hn⟩
    · exact ⟨p, h', hok, hg, hf', ha⟩

end Level

section Building

variable [DecidableEq K] {h h' : Host K} {id i : ℕ} {r : TypeRecord}

/-- The builders: of types that the projection does not go through, of those that it does, and of
composites. -/
inductive Built : Host K → Prop
  | empty : Built ⟨[]⟩
  | plain {h h' : Host K} {i : ℕ} {r : TypeRecord} (hb : Built h) (hk : ¬ Composer r.kind)
    (hi : h.internContent r = .ok (i, h')) : Built h'
  | qualified {h h' : Host K} {inner i : ℕ} {bits : UInt8} {align : UInt32} (hb : Built h)
    (hin : (h.record? inner).isSome) (hi : h.qualified inner bits align = .ok (i, h')) : Built h'
  | pointer {h h' : Host K} {op i : ℕ} (hb : Built h) (hop : (h.record? op).isSome)
    (hi : h.internContent (contentRecord .ptr 0 [op] [] []) = .ok (i, h')) : Built h'
  | array {h h' : Host K} {op i : ℕ} {n : UInt64} (hb : Built h) (hop : (h.record? op).isSome)
    (hi : h.internContent (contentRecord .array 0 [op] [n] []) = .ok (i, h')) : Built h'
  | signature {h h' : Host K} {result i : ℕ} {params : List ℕ} {cc : UInt64} {isVariadic : Bool}
    (hb : Built h) (hop : ∀ op ∈ result :: params, (h.record? op).isSome)
    (hi : h.internContent (contentRecord .fnSig 0 (result :: params)
      (if isVariadic then [cc, 1] else [cc]) []) = .ok (i, h')) : Built h'
  | forward {h : Host K} {kind : TypeKind} (hb : Built h) (hk : kind = .struct ∨ kind = .union)
    (name : List UInt8) (key : K) : Built (h.forwardComposite kind name key).2
  | complete {h h' : Host K} {id : ℕ} {c : CompositeShape} (hb : Built h)
    (hc : h.completeComposite id c = .ok h') : Built h'

theorem Formed.of_qualified (hf : h.Formed) {inner : ℕ} (hin : (h.record? inner).isSome)
    {bits : UInt8} {align : UInt32} (hi : h.qualified inner bits align = .ok (i, h')) :
    h'.Formed := by
  obtain ⟨r, hr⟩ := Option.isSome_iff_exists.1 hin
  rw [Host.qualified, if_neg (pos_of_record hr).ne', hr] at hi
  obtain ⟨base, b, hb, hbk, hbase⟩ : ∃ base b, h.record? base = some b ∧
      b.kind ≠ .volatileQual ∧ materialId h.record? inner inner = base := by
    by_cases hk : r.kind = .volatileQual
    · obtain ⟨base, b, -, hb, hbk, hbase⟩ := materialId_skin hf hr hk
      exact ⟨base, b, hb, hbk, hbase⟩
    · exact ⟨inner, r, hr, hk, materialId_plain hr hk⟩
  simp only [Option.getD_some, hbase] at hi
  generalize (if r.kind = .volatileQual then r.qualifierBits else 0) ||| bits = merged at hi
  generalize (if align ≠ 0 then align
    else if r.kind = .volatileQual then r.alignOverride else 0) = mergedAlign at hi
  by_cases hnone : merged = 0 ∧ mergedAlign = 0
  · rw [if_pos hnone] at hi
    obtain ⟨-, rfl⟩ := Prod.mk.inj (Except.ok.inj hi)
    exact hf
  · rw [if_neg hnone] at hi
    refine hf.of_internContent ⟨fun _ op hop => ?_, fun _ => ⟨base, b, ?_, hb, hbk, ?_⟩,
      fun hk => ?_, fun hk => ?_, fun hk => ?_⟩ hi
    · rw [List.mem_singleton.1 hop, hb]
      rfl
    · by_cases hal : mergedAlign = 0 <;> simp [contentRecord, hal]
    · by_cases hal : mergedAlign = 0
      · simpa [contentRecord, hal] using hnone
      · simp [contentRecord, hal]
    · exact absurd hk (by simp [contentRecord])
    · exact absurd hk (by simp [contentRecord])
    · exact absurd hk (by simp [contentRecord])

theorem Formed.of_forwardComposite (hf : h.Formed) {kind : TypeKind}
    (hk : kind = .struct ∨ kind = .union) (name : List UInt8) (key : K) :
    (h.forwardComposite kind name key).2.Formed := by
  have hd := (forwardComposite_spec hf.distinct kind name key).1
  unfold forwardComposite at hd ⊢
  split at hd
  · exact hf
  · refine hf.snoc hd (fun hc => absurd ?_ hc) (shaped_of_plain ?_)
    · exact hk
    · rcases hk with rfl | rfl <;> simp [Composer, contentRecord]

omit [DecidableEq K] in
theorem Formed.of_completeComposite (hf : h.Formed) {c : CompositeShape}
    (hok : h.completeComposite id c = .ok h') : h'.Formed := by
  cases ht : h.get? id with
  | none =>
    rw [completeComposite, ht] at hok
    cases hok
  | some t =>
    have hok' := hok
    rw [completeComposite, ht] at hok'
    dsimp only at hok'
    split_ifs at hok' with hbad hadm hdone hsame
    · obtain rfl := Except.ok.inj hok'
      exact hf
    · push Not at hbad
      obtain ⟨k, hkey⟩ := Option.ne_none_iff_exists'.1 hbad.2
      obtain ⟨h₁, hok₁, hd, hg, hget, hsame⟩ := completeComposite_of_incomplete ht hbad.1 hkey hadm
        hf.distinct (by simpa using hdone)
      rw [hok] at hok₁
      obtain rfl := Except.ok.inj hok₁
      have hcomp : ¬ Composer (t.record.completed c).kind := by
        intro hk
        exact not_isComposite (.inr (.inr hk)) hbad.1
      have hother : ∀ j r, h'.record? j = some r →
          r = t.record.completed c ∨ h.record? j = some r := by
        intro j r hr
        by_cases hj : j = id
        · rw [hj, Host.record?, hget] at hr
          exact .inl (Option.some.inj hr).symm
        · rw [Host.record?, hsame j hj] at hr
          exact .inr hr
      refine ⟨hd, fun j s hs hc => ?_, fun j r hr hk => ?_, fun j r hr => ?_⟩
      · by_cases hj : j = id
        · rw [hj, hget] at hs
          rw [← Option.some.inj hs] at hc
          exact absurd hbad.1 hc
        · rw [hsame j hj] at hs
          exact hf.content j s hs hc
      · rcases hother j r hr with rfl | hr
        · exact absurd hk hcomp
        · exact hf.below j r hr hk
      · rcases hother j r hr with rfl | hr
        · exact shaped_of_plain hcomp
        · exact (hf.shaped j r hr).grows hg

theorem Built.formed (hb : Built h) : h.Formed := by
  induction hb with
  | empty =>
    have hget : ∀ id, (⟨[]⟩ : Host K).get? id = none := by simp [Host.get?]
    refine ⟨⟨fun i j r hi => ?_, fun i j t t' k hi => ?_⟩, fun id t ht => ?_, fun id r hr => ?_,
      fun id r hr => ?_⟩
    · cases (hget i).symm.trans hi
    · cases (hget i).symm.trans hi
    · cases (hget id).symm.trans ht
    · simp [Host.record?, hget] at hr
    · simp [Host.record?, hget] at hr
  | plain _ hk hi ih => exact ih.of_internContent (shaped_of_plain hk) hi
  | qualified _ hin hi ih => exact ih.of_qualified hin hi
  | @pointer h h' op i _ hop hi ih =>
    refine ih.of_internContent ⟨fun _ c hc => ?_, fun hk => ?_, fun _ => ⟨op, rfl⟩, fun hk => ?_,
      fun hk => ?_⟩ hi
    · rwa [List.mem_singleton.1 hc]
    all_goals exact absurd hk (by simp [contentRecord])
  | @array h h' op i n _ hop hi ih =>
    refine ih.of_internContent ⟨fun _ c hc => ?_, fun hk => ?_, fun hk => ?_, fun _ => ⟨op, n, rfl⟩,
      fun hk => ?_⟩ hi
    · rwa [List.mem_singleton.1 hc]
    all_goals exact absurd hk (by simp [contentRecord])
  | @signature h h' result i params cc isVariadic _ hop hi ih =>
    refine ih.of_internContent ⟨fun _ => hop, fun hk => ?_, fun hk => ?_, fun hk => ?_, fun _ =>
      ⟨result :: params, cc, by simp, ?_⟩⟩ hi
    · exact absurd hk (by simp [contentRecord])
    · exact absurd hk (by simp [contentRecord])
    · exact absurd hk (by simp [contentRecord])
    · cases isVariadic <;> simp [contentRecord]
  | forward _ hk name key ih => exact ih.of_forwardComposite hk name key
  | complete _ hc ih => exact ih.of_completeComposite hc

end Building

section Scan

variable {h : Host K} {id : ℕ} {seen : Finset ℕ} {branched : Bool} {l : List ℕ}

def ScansOff (h : Host K) (l : List ℕ) (seen : Finset ℕ) (branched : Bool) : Prop :=
  ((∃ c ∈ l, NullBelow h c) ∧
    ∀ pending, ∃ k, ∀ n, h.scan (k + n) (l ++ pending) seen branched = some true) ∨
  ((∀ c ∈ l, ¬ NullBelow h c) ∧ ∀ pending, ∃ k seen' branched',
    (∀ n, h.scan (k + n) (l ++ pending) seen branched = h.scan n pending seen' branched') ∧
      ∀ s ∈ seen', s ∈ seen ∨ ¬ NullBelow h s)

theorem scansOff_list {b : ℕ}
    (hone : ∀ c < b, (h.record? c).isSome → ∀ seen branched,
      (∀ s ∈ seen, s ≤ c → ¬ NullBelow h s) → h.ScansOff [c] seen branched)
    (hl : ∀ c ∈ l, c < b ∧ (h.record? c).isSome) (hseen : ∀ s ∈ seen, s < b → ¬ NullBelow h s) :
    h.ScansOff l seen branched := by
  induction l generalizing seen branched with
  | nil => exact .inr ⟨by simp, fun pending => ⟨0, seen, branched, by simp, fun s hs => .inl hs⟩⟩
  | cons c l ih =>
    obtain ⟨hcb, hc⟩ := hl c List.mem_cons_self
    have hfirst := hone c hcb hc seen branched fun s hs hsc => hseen s hs (by omega)
    rcases hfirst with ⟨⟨c', hc', hn⟩, hfind⟩ | ⟨hn, hpass⟩
    · rw [List.mem_singleton] at hc'
      subst hc'
      exact .inl ⟨⟨c', List.mem_cons_self, hn⟩, fun pending => hfind (l ++ pending)⟩
    · have hn := hn c List.mem_cons_self
      -- what the rest finds does not depend on what is pending below it
      obtain ⟨k₀, seen₀, br₀, -, hseen₀⟩ := hpass []
      by_cases hrest : ∃ c' ∈ l, NullBelow h c'
      · refine .inl ⟨?_, fun pending => ?_⟩
        · obtain ⟨c', hc', hn'⟩ := hrest
          exact ⟨c', List.mem_cons_of_mem c hc', hn'⟩
        · obtain ⟨k, seen', br', hk, hseen'⟩ := hpass (l ++ pending)
          have hnext : h.ScansOff l seen' br' := ih (fun d hd => hl d (List.mem_cons_of_mem c hd))
            fun s hs hsb => (hseen' s hs).elim (fun hs' => hseen s hs' hsb) fun hns => hns
          rcases hnext with ⟨-, hfind⟩ | ⟨hno, -⟩
          · obtain ⟨k', hk'⟩ := hfind pending
            refine ⟨k + k', fun n => ?_⟩
            rw [Nat.add_assoc]
            exact (hk (k' + n)).trans (hk' n)
          · obtain ⟨c', hc', hn'⟩ := hrest
            exact absurd hn' (hno c' hc')
      · refine .inr ⟨fun c' hc' => ?_, fun pending => ?_⟩
        · rcases List.mem_cons.1 hc' with rfl | hc'
          · exact hn
          · exact fun hn' => hrest ⟨c', hc', hn'⟩
        · obtain ⟨k, seen', br', hk, hseen'⟩ := hpass (l ++ pending)
          have hnext : h.ScansOff l seen' br' := ih (fun d hd => hl d (List.mem_cons_of_mem c hd))
            fun s hs hsb => (hseen' s hs).elim (fun hs' => hseen s hs' hsb) fun hns => hns
          rcases hnext with ⟨hyes, -⟩ | ⟨-, hpass'⟩
          · exact absurd hyes hrest
          · obtain ⟨k', seen'', br'', hk', hseen''⟩ := hpass' pending
            refine ⟨k + k', seen'', br'', fun n => ?_, fun s hs => ?_⟩
            · rw [Nat.add_assoc]
              exact (hk (k' + n)).trans (hk' n)
            · exact (hseen'' s hs).elim (hseen' s) .inr

theorem scansOff_one (hf : h.Formed) (hid : (h.record? id).isSome)
    (hseen : ∀ s ∈ seen, s ≤ id → ¬ NullBelow h s) : h.ScansOff [id] seen branched := by
  induction id using Nat.strong_induction_on generalizing seen branched with
  | _ id ih =>
    obtain ⟨r, hr⟩ := Option.isSome_iff_exists.1 hid
    have hpos := (pos_of_record hr).ne'
    have hiff := nullBelow_iff hf hr
    by_cases hskip : branched = true ∧ id ∈ seen
    · refine .inr ⟨?_, fun pending => ⟨1, seen, branched, fun n => ?_, fun s hs => .inl hs⟩⟩
      · simpa using hseen id hskip.2 le_rfl
      · rw [Nat.add_comm, List.singleton_append, scan, if_neg hpos, if_pos hskip]
    · by_cases hnull : (h.material id).map (·.kind) = some .nullptrT
      · refine .inl ⟨⟨id, by simp, hiff.2 (.inl hnull)⟩, fun pending => ⟨1, fun n => ?_⟩⟩
        rw [Nat.add_comm, List.singleton_append, scan, if_neg hpos, if_neg hskip]
        exact if_pos hnull
      · have hturn : ∀ n pending, h.representationChildren id = [] →
            h.scan (n + 1) (id :: pending) seen branched =
              h.scan n pending (if branched then insert id seen else seen) branched := by
          intro n pending hch
          rw [scan, if_neg hpos, if_neg hskip]
          simp only [if_neg hnull, hch]
        have hturn' : ∀ n pending c cs, h.representationChildren id = c :: cs →
            h.scan (n + 1) (id :: pending) seen branched = h.scan n (c :: (cs.reverse ++ pending))
              (if branched then insert id seen else seen) (branched || decide (cs ≠ [])) := by
          intro n pending c cs hch
          rw [scan, if_neg hpos, if_neg hskip]
          simp only [if_neg hnull, hch]
        have hmem : ∀ s ∈ (if branched then insert id seen else seen), s = id ∨ s ∈ seen := by
          intro s hs
          split_ifs at hs
          · exact Finset.mem_insert.1 hs
          · exact .inr hs
        have hlt : ∀ s ∈ (if branched then insert id seen else seen), s < id → ¬ NullBelow h s := by
          intro s hs hsid
          rcases hmem s hs with rfl | hs
          · omega
          · exact hseen s hs hsid.le
        have hbelow : ∀ c ∈ h.representationChildren id, c < id ∧ (h.record? c).isSome :=
          fun c hc => children_lt hf hr hc
        cases hch : h.representationChildren id with
        | nil =>
          have hn : ¬ NullBelow h id := by
            rw [hiff, hch]
            simpa using hnull
          refine .inr ⟨by simpa using hn, fun pending =>
            ⟨1, if branched then insert id seen else seen, branched, fun n => ?_, fun s hs => ?_⟩⟩
          · rw [Nat.add_comm, List.singleton_append, hturn _ _ hch]
          · exact (hmem s hs).elim (fun heq => .inr (heq ▸ hn)) .inl
        | cons c cs =>
          have hsame : ∀ d, d ∈ c :: cs.reverse ↔ d ∈ h.representationChildren id := by
            intro d
            simp [hch]
          have hoff : h.ScansOff (c :: cs.reverse) (if branched then insert id seen else seen)
              (branched || decide (cs ≠ [])) :=
            scansOff_list (fun d hd hdr seen br hs => ih d hd hdr hs)
              (fun d hd => hbelow d ((hsame d).1 hd)) hlt
          simp only [ScansOff, hsame] at hoff
          rcases hoff with ⟨hyes, hfind⟩ | ⟨hno, hpass⟩
          · refine .inl ⟨⟨id, by simp, hiff.2 (.inr hyes)⟩, fun pending => ?_⟩
            obtain ⟨k, hk⟩ := hfind pending
            refine ⟨k + 1, fun n => ?_⟩
            rw [Nat.add_right_comm, List.singleton_append, hturn' _ _ _ _ hch]
            exact hk n
          · have hn : ¬ NullBelow h id := fun hn => (hiff.1 hn).elim hnull fun hyes =>
              hyes.elim fun d hd => hno d hd.1 hd.2
            refine .inr ⟨by simpa using hn, fun pending => ?_⟩
            obtain ⟨k, seen', br', hk, hseen'⟩ := hpass pending
            refine ⟨k + 1, seen', br', fun n => ?_, fun s hs => ?_⟩
            · rw [Nat.add_right_comm, List.singleton_append, hturn' _ _ _ _ hch]
              exact hk n
            · rcases hseen' s hs with hs' | hns
              · exact (hmem s hs').elim (fun heq => .inr (heq ▸ hn)) .inl
              · exact .inr hns

theorem scan_spec (hf : h.Formed) (hid : (h.record? id).isSome) :
    ∃ k, ∀ n ≥ k, ∃ found, h.scan n [id] ∅ false = some found ∧
      (found = true ↔ NullBelow h id) := by
  have hoff : h.ScansOff [id] ∅ false := scansOff_one hf hid (by simp)
  rcases hoff with ⟨hyes, hfind⟩ | ⟨hno, hpass⟩
  · obtain ⟨k, hk⟩ := hfind []
    refine ⟨k, fun n hn => ⟨true, ?_, by simpa using hyes⟩⟩
    have := hk (n - k)
    rwa [Nat.add_sub_cancel' hn] at this
  · obtain ⟨k, seen', br', hk, -⟩ := hpass []
    refine ⟨k, fun n hn => ⟨false, ?_, by simpa using hno⟩⟩
    have := hk (n - k)
    rw [Nat.add_sub_cancel' hn] at this
    rw [← List.append_nil [id], this, scan]

end Scan

section Rebuilding

variable [DecidableEq K] {h h' : Host K} {s s' s'' : Rebuild K} {id : ℕ} {r : TypeRecord}
  {l : List ℕ} {rest : List (ℕ × Phase)}

omit [DecidableEq K] in
theorem representationOperands_grows (hf : h.Formed) (hf' : h'.Formed) (hg : h.Extends h')
    (hr : h.record? id = some r) {r' : TypeRecord} (hr' : h'.record? id = some r')
    (hk : r.kind ≠ .volatileQual) : representationOperands r' = representationOperands r := by
  have hkind := hg.kind_eq hr hr'
  rw [(hf.shaped id r hr).representationOperands hk,
    (hf'.shaped id r' hr').representationOperands (by rwa [hkind]), hkind]
  split_ifs with hc
  · rw [hg.record? hf (not_isComposite (.inr (.inr hc))) hr] at hr'
    rw [Option.some.inj hr']
  · rfl

omit [DecidableEq K] in
theorem representationChildren_grows (hf : h.Formed) (hf' : h'.Formed) (hg : h.Extends h')
    (hr : h.record? id = some r) : h'.representationChildren id = h.representationChildren id := by
  obtain ⟨r', hr'⟩ := Option.isSome_iff_exists.1 (hg.isSome (Option.isSome_iff_exists.2 ⟨r, hr⟩))
  have hkind := hg.kind_eq hr hr'
  by_cases hk : r.kind = .volatileQual
  · obtain rfl : r = r' :=
      Option.some.inj ((hg.record? hf (not_isComposite (.inr (.inr (.inl hk)))) hr).symm.trans hr')
    obtain ⟨base, b, hops, hb, hbk, hbase⟩ := materialId_skin hf hr hk
    obtain ⟨base', b', hops', hb', -, hbase'⟩ := materialId_skin hf' hr' hk
    rw [hops] at hops'
    obtain rfl := (List.cons.inj hops').1
    simp only [representationChildren, qualifierBits_skin hr hk, qualifierBits_skin hr' hk,
      material, hbase, hbase', hb, hb', representationOperands_grows hf hf' hg hb hb' hbk]
  · have hk' : r'.kind ≠ .volatileQual := by rwa [hkind]
    simp only [representationChildren, qualifierBits_plain hr hk, qualifierBits_plain hr' hk',
      material_plain hr hk, material_plain hr' hk', materialId_plain hr hk,
      materialId_plain hr' hk', representationOperands_grows hf hf' hg hr hr' hk]

/-- The second pass goes from one state to another. -/
def RunsTo (s s' : Rebuild K) : Prop := ∃ k, ∀ n, rebuild (k + n) s = rebuild n s'

theorem RunsTo.refl (s : Rebuild K) : RunsTo s s := ⟨0, fun n => by rw [Nat.zero_add]⟩

theorem RunsTo.trans (h₁ : RunsTo s s') (h₂ : RunsTo s' s'') : RunsTo s s'' := by
  obtain ⟨k, hk⟩ := h₁
  obtain ⟨k', hk'⟩ := h₂
  exact ⟨k + k', fun n => by rw [Nat.add_assoc, hk, hk']⟩

theorem RunsTo.of_step (hw : s.work ≠ []) (hs : s.step = .ok s') : RunsTo s s' := by
  refine ⟨1, fun n => ?_⟩
  rw [Nat.add_comm, rebuild, if_neg (by simpa using hw), hs]
  rfl

/-- The invariant of the projection. -/
structure Rebuild.Good (s : Rebuild K) : Prop where
  formed : s.host.Formed
  answers : ∀ c c', s.projected c = some c' → Answer s.host c c'

structure Rebuild.Leaves (s s' : Rebuild K) (rest : List (ℕ × Phase)) : Prop where
  run : RunsTo s s'
  good : s'.Good
  grows : s.host.Extends s'.host
  keeps : ∀ c, (s.projected c).isSome → (s'.projected c).isSome
  gray : s'.gray = s.gray
  work : s'.work = rest

theorem emplaceProjected_isSome {projected : ℕ → Option ℕ} {p c : ℕ}
    (hc : (projected c).isSome ∨ c = id) : (emplaceProjected projected id p c).isSome := by
  unfold emplaceProjected
  split_ifs with hid
  · rcases hc with hc | rfl
    · exact hc
    · exact hid
  · by_cases heq : c = id
    · rw [heq, Function.update_self]
      rfl
    · rw [Function.update_of_ne heq]
      exact hc.resolve_right heq

theorem emplaceProjected_eq {projected : ℕ → Option ℕ} {p c c' : ℕ}
    (hc : emplaceProjected projected id p c = some c') :
    projected c = some c' ∨ c = id ∧ c' = p := by
  unfold emplaceProjected at hc
  split_ifs at hc
  · exact .inl hc
  · by_cases heq : c = id
    · rw [heq, Function.update_self] at hc
      exact .inr ⟨heq, (Option.some.inj hc).symm⟩
    · rw [Function.update_of_ne heq] at hc
      exact .inl hc

theorem expand_list {b : ℕ}
    (hone : ∀ c < b, ∀ (s : Rebuild K) rest, s.Good → (s.host.record? c).isSome →
      (∀ g ∈ s.gray, c < g) → s.work = (c, .expand) :: rest →
      ∃ s', s.Leaves s' rest ∧ (s'.projected c).isSome)
    (hs : s.Good) (hl : ∀ c ∈ l, c < b ∧ (s.host.record? c).isSome) (hgray : ∀ g ∈ s.gray, b ≤ g)
    (hw : s.work = l.map (fun c => (c, Phase.expand)) ++ rest) :
    ∃ s', s.Leaves s' rest ∧ ∀ c ∈ l, (s'.projected c).isSome := by
  induction l generalizing s with
  | nil => exact ⟨s, ⟨.refl s, hs, .refl _, fun _ hc => hc, rfl, hw⟩, by simp⟩
  | cons c l ih =>
    obtain ⟨hcb, hc⟩ := hl c List.mem_cons_self
    obtain ⟨s₁, hleaves, hdone⟩ :=
      hone c hcb s _ hs hc (fun g hg => lt_of_lt_of_le hcb (hgray g hg)) hw
    have hl₁ : ∀ d ∈ l, d < b ∧ (s₁.host.record? d).isSome := by
      intro d hd
      obtain ⟨hdb, hdr⟩ := hl d (List.mem_cons_of_mem c hd)
      exact ⟨hdb, hleaves.grows.isSome hdr⟩
    obtain ⟨s₂, hleaves', hdone'⟩ :=
      ih hleaves.good hl₁ (by rwa [hleaves.gray]) hleaves.work
    refine ⟨s₂, ⟨hleaves.run.trans hleaves'.run, hleaves'.good, hleaves.grows.trans hleaves'.grows,
      fun d hd => hleaves'.keeps d (hleaves.keeps d hd), hleaves'.gray.trans hleaves.gray,
      hleaves'.work⟩, fun d hd => ?_⟩
    rcases List.mem_cons.1 hd with rfl | hd
    · exact hleaves'.keeps _ hdone
    · exact hdone' d hd

theorem expand_one (hs : s.Good) (hid : (s.host.record? id).isSome) (hgray : ∀ g ∈ s.gray, id < g)
    (hw : s.work = (id, .expand) :: rest) :
    ∃ s', s.Leaves s' rest ∧ (s'.projected id).isSome := by
  induction id using Nat.strong_induction_on generalizing s rest with
  | _ id ih =>
    have hne : s.work ≠ [] := by simp [hw]
    by_cases hdone : (s.projected id).isSome
    · refine ⟨{ s with work := rest }, ⟨.of_step hne ?_, ⟨hs.formed, hs.answers⟩, .refl _,
        fun _ hc => hc, rfl, rfl⟩, hdone⟩
      simp only [Rebuild.step, hw, if_pos hdone]
    · have hnot : id ∉ s.gray := fun hmem => (hgray id hmem).false
      obtain ⟨r, hr⟩ := Option.isSome_iff_exists.1 hid
      -- the frames of the types below, the last one on top
      let children := (s.host.representationChildren id).reverse
      let below : Rebuild K :=
        ⟨s.host, s.projected, insert id s.gray,
          children.map (fun c => (c, Phase.expand)) ++ (id, .resolve) :: rest⟩
      have hexpand : RunsTo s below := by
        refine .of_step hne ?_
        simp only [Rebuild.step, hw, if_neg hdone, if_neg hnot, below, children, List.map_reverse]
      have hchildren : ∀ c ∈ children, c < id ∧ (below.host.record? c).isSome :=
        fun c hc => children_lt hs.formed hr (List.mem_reverse.1 hc)
      have habove : ∀ g ∈ below.gray, id ≤ g := by
        intro g hg
        rcases Finset.mem_insert.1 hg with rfl | hg
        · exact le_rfl
        · exact (hgray g hg).le
      obtain ⟨s₁, hleaves, hall⟩ := expand_list
        (fun c hc s rest hs hcr hg hw => ih c hc hs hcr hg hw) (s := below) ⟨hs.formed, hs.answers⟩
        hchildren habove rfl
      obtain ⟨r₁, hr₁⟩ := Option.isSome_iff_exists.1 (hleaves.grows.isSome hid)
      have hgrown := representationChildren_grows hs.formed hleaves.good.formed hleaves.grows hr
      obtain ⟨p, h₂, hlevel, hg, hf, ha⟩ := level_spec hleaves.good.formed hr₁
        hleaves.good.answers fun c hc => hall c (List.mem_reverse.2 (hgrown ▸ hc))
      refine ⟨⟨h₂, emplaceProjected s₁.projected id p, s₁.gray.erase id, rest⟩,
        ⟨(hexpand.trans hleaves.run).trans (.of_step (by simp [hleaves.work]) ?_), ⟨hf, ?_⟩,
          hleaves.grows.trans hg, fun c hc => ?_, ?_, rfl⟩, emplaceProjected_isSome (.inr rfl)⟩
      · simp only [Rebuild.step, hleaves.work, hlevel]
        rfl
      · intro c c' hc
        rcases emplaceProjected_eq hc with hc | ⟨rfl, rfl⟩
        · exact (hleaves.good.answers c c' hc).grows hleaves.good.formed hg
        · exact ha
      · exact emplaceProjected_isSome (.inl (hleaves.keeps c hc))
      · rw [hleaves.gray]
        exact Finset.erase_insert hnot

theorem representationType_same (hf : h.Formed) (hid : (h.record? id).isSome)
    (hn : ¬ NullBelow h id) : ∃ n, ∀ m ≥ n, h.representationType m id = .ok (id, h) := by
  obtain ⟨r, hr⟩ := Option.isSome_iff_exists.1 hid
  obtain ⟨k, hk⟩ := scan_spec hf hid
  refine ⟨k, fun m hm => ?_⟩
  obtain ⟨found, hscan, hfound⟩ := hk m hm
  obtain rfl : found = false := by
    rw [← Bool.not_eq_true]
    exact fun htrue => hn (hfound.1 htrue)
  rw [representationType, if_neg (pos_of_record hr).ne', hscan]

theorem representationType_spec (hf : h.Formed) (hid : (h.record? id).isSome) :
    ∃ n p h', (∀ m ≥ n, h.representationType m id = .ok (p, h')) ∧ h.Extends h' ∧ h'.Formed ∧
      Answer h' id p := by
  obtain ⟨r, hr⟩ := Option.isSome_iff_exists.1 hid
  obtain ⟨k, hk⟩ := scan_spec hf hid
  by_cases hn : NullBelow h id
  · obtain ⟨s', hleaves, hdone⟩ := expand_one (s := ⟨h, fun _ => none, ∅, [(id, .expand)]⟩)
      ⟨hf, by simp⟩ hid (by simp) rfl
    obtain ⟨p, hp⟩ := Option.isSome_iff_exists.1 hdone
    obtain ⟨k', hk'⟩ := hleaves.run
    refine ⟨max k k', p, s'.host, fun m hm => ?_, hleaves.grows, hleaves.good.formed,
      hleaves.good.answers id p hp⟩
    obtain ⟨found, hscan, hfound⟩ := hk m (le_trans (le_max_left _ _) hm)
    obtain rfl := hfound.2 hn
    have hrun : rebuild m ⟨h, fun _ => none, ∅, [(id, .expand)]⟩ = .ok s' := by
      have hrun := hk' (m - k')
      rw [Nat.add_sub_cancel' (le_trans (le_max_right _ _) hm)] at hrun
      rw [hrun]
      cases m - k' <;> rw [rebuild, hleaves.work] <;> rfl
    rw [representationType, if_neg (pos_of_record hr).ne', hscan]
    simp only [hrun]
    show Except.ok ((s'.projected id).getD id, s'.host) = _
    rw [hp]
    rfl
  · obtain ⟨n, hsame⟩ := representationType_same hf hid hn
    exact ⟨n, id, h, hsame, .refl h, hf, .same hr hn⟩

end Rebuilding

theorem projectsNullOnly_iff [DecidableEq K] {h : Host K} {id : ℕ} (hf : h.Formed)
    (hid : (h.record? id).isSome) : h.ProjectsNullOnly id ↔ ¬ h.AlignedOverNull id := by
  obtain ⟨n, p, h', hrun, hg, hf', ha⟩ := representationType_spec hf hid
  have hnull : NullBelow h' id ↔ NullBelow h id :=
    ⟨fun hn => hn.of_grows hf hg hid, fun hn => hn.grows hf hg⟩
  have haligned : AlignedOverNull h' id ↔ AlignedOverNull h id :=
    ⟨fun hal => hal.of_grows hf hg hid, fun hal => hal.grows hf hg⟩
  rw [← haligned]
  constructor
  · rintro ⟨n₂, p₂, h₂, hrun₂, -, hrep, -⟩
    have heq := (hrun (max n n₂) (le_max_left _ _)).symm.trans (hrun₂ _ (le_max_right _ _))
    obtain ⟨rfl, rfl⟩ := Prod.mk.inj (Except.ok.inj heq)
    exact ha.not_aligned hf' hrep
  · intro hal
    refine ⟨n, p, h', hrun, ?_, ha.represents hf' hal, fun later hlater hfl => ?_⟩
    · rw [ha.eq_iff, hnull]
    · have halater := ha.grows hf' hlater
      obtain ⟨n₁, hsame⟩ := representationType_same hfl halater.record halater.not_nullBelow
      obtain ⟨n₂, p₂, h₂, hrun₂, hg₂, hf₂, ha₂⟩ :=
        representationType_spec hfl ((hg.trans hlater).isSome hid)
      obtain rfl : p = p₂ := (halater.grows hfl hg₂).unique hf₂ ha₂
      exact ⟨max n₁ n₂, fun m hm => ⟨hsame m (le_trans (le_max_left _ _) hm), h₂,
        hrun₂ m (le_trans (le_max_right _ _) hm)⟩⟩

/-- In a host as the builders make it, the projection of a type differs from it by its `nullptr_t`s
and by nothing else if and only if no qualifier with an alignment of its own stands over a
`nullptr_t` in it.  For then the qualifier is built again from its bits alone. -/
theorem representationType_projectsNullOnly [DecidableEq K] {h : Host K} {id : ℕ} (hb : h.Built)
    (hid : (h.record? id).isSome) : h.ProjectsNullOnly id ↔ ¬ h.AlignedOverNull id :=
  projectsNullOnly_iff hb.formed hid

def nullType : Host ℕ := ⟨[⟨contentRecord .nullptrT 0 [] [] [], none⟩]⟩

theorem nullType_built : nullType.Built :=
  .plain (r := contentRecord .nullptrT 0 [] [] []) .empty (by decide) rfl

def nullPointer : Host ℕ :=
  ⟨[⟨contentRecord .nullptrT 0 [] [] [], none⟩, ⟨contentRecord .ptr 0 [1] [] [], none⟩]⟩

theorem representationType_projectsNullOnly_pointer :
    nullPointer.Built ∧ (nullPointer.record? 2).isSome ∧ nullPointer.ProjectsNullOnly 2 := by
  have hi : nullType.internContent (contentRecord .ptr 0 [1] [] []) = .ok (2, nullPointer) := rfl
  have hb : nullPointer.Built := .pointer nullType_built rfl hi
  refine ⟨hb, rfl, (representationType_projectsNullOnly hb rfl).2 fun hal => ?_⟩
  cases hal with
  | here hr hk =>
    obtain rfl := Option.some.inj hr
    cases hk
  | step hr hk hv hn =>
    obtain rfl := Option.some.inj hr
    obtain rfl := List.mem_singleton.1 hv
    cases hn with
    | here hr hk =>
      obtain rfl := Option.some.inj hr
      cases hk
    | step hr hk =>
      obtain rfl := Option.some.inj hr
      exact absurd hk (by decide)

def alignedNull : Host ℕ :=
  ⟨[⟨contentRecord .nullptrT 0 [] [] [], none⟩,
    ⟨contentRecord .volatileQual 0 [1] [1, 16] [], none⟩]⟩

theorem alignedNull_projection : alignedNull.Built ∧
    (∃ h, alignedNull.representationType 8 2 = .ok (5, h) ∧
      h.record? 5 = some (contentRecord .volatileQual 0 [4] [1] [])) ∧
    ¬ alignedNull.ProjectsNullOnly 2 := by
  have hi : nullType.qualified 1 1 16 = .ok (2, alignedNull) := rfl
  have hb : alignedNull.Built := .qualified nullType_built rfl hi
  refine ⟨hb, ⟨_, rfl, rfl⟩, fun hproj => (projectsNullOnly_iff hb.formed rfl).1 hproj ?_⟩
  refine .here (u := 2) (r := contentRecord .volatileQual 0 [1] [1, 16] []) rfl rfl (by decide) ?_
  exact .step (u := 2) (r := contentRecord .volatileQual 0 [1] [1, 16] []) rfl (.inl rfl)
    List.mem_cons_self (.leaf (r := contentRecord .nullptrT 0 [] [] []) rfl rfl)

end Host

end DssPrime
