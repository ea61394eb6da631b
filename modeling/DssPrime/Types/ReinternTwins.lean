import DssPrime.Types.Reintern

/-!
# Signatures that are spelled alike

What the tokens of a signature say.  The tokens of a type say where they end, so two types that are
spelled alike are made of the same parts in the same order and differ at most in the composites they
reach (`twin_of_spine`).  The tokens of a field do not say which of its offset, its alignment and
its packing they are: only composites that state the same of these three are known from their
signatures (`composite_of_signature`).
-/

namespace DssPrime

section Built

variable {a b : TypeArena} {r r' : TypeRecord}

theorem TypeArena.mem_types {id : ℕ} (h : a.get? id = some r) : r ∈ a.types :=
  List.mem_of_getElem? (TypeArena.get?_eq_some h).2

theorem TypeArena.eq_zero_of_get? {id : ℕ} (hle : id ≤ a.types.length) (h : a.get? id = none) :
    id = 0 := by
  by_contra h0
  rw [TypeArena.get?, if_neg h0, List.getElem?_eq_none_iff] at h
  omega

theorem TypeArena.operand_le {id op : ℕ} (h : a.get? id = some r) (hop : op ∈ r.operands) :
    op ≤ a.types.length :=
  a.inside r (TypeArena.mem_types h) op hop

theorem rebuilt_eq_content {k : ℕ → Option TypeRecord} {ops : List ℕ} {made : TypeRecord}
    (h : rebuilt k r ops = .ok made) :
    made = contentRecord made.kind made.extensionKind made.operands made.scalars made.name ∧
      made.kind = r.kind ∧ made.kind ≠ .volatileQual ∧ ¬ made.IsComposite := by
  have hparts : ∃ e os sc nm, made = contentRecord r.kind e os sc nm := by
    cases hk : r.kind <;> simp only [rebuilt, hk] at h <;> (repeat' split at h) <;> cases h <;>
      exact ⟨_, _, _, _, rfl⟩
  have hkind : r.kind ≠ .volatileQual ∧ ¬ r.IsComposite := by
    refine ⟨fun hk => ?_, fun hk => ?_⟩
    · simp [rebuilt, hk] at h
    · rcases hk with hk | hk <;> simp [rebuilt, hk] at h
  obtain ⟨e, os, sc, nm, rfl⟩ := hparts
  exact ⟨rfl, rfl, hkind⟩

theorem TypeArena.Built.eq_content (h : a.Built r) (hc : ¬ r.IsComposite) :
    r = contentRecord r.kind r.extensionKind r.operands r.scalars r.name := by
  rw [TypeArena.Built, if_neg hc] at h
  by_cases hv : r.kind = .volatileQual
  · rw [if_pos hv] at h
    obtain ⟨base, b, -, -, -, -, hr⟩ := h
    have hparts : ∃ sc, r = contentRecord .volatileQual 0 [base] sc [] := ⟨_, hr⟩
    obtain ⟨sc, rfl⟩ := hparts
    rfl
  · rw [if_neg hv] at h
    exact (rebuilt_eq_content h.1).1

end Built

def headerTokens (r : TypeRecord) : List Token :=
  if r.kind = .volatileQual then
    [kindWord r.kind, .word r.qualifierBits.toUInt64, .word r.alignOverride.toUInt64]
  else
    kindWord r.kind :: .text r.name :: .word r.extensionKind.toUInt64 ::
      ((if r.kind = .fnSig then [.word (if r.isVariadic then 1 else 0)] else []) ++
        .word r.scalars.length.toUInt64 :: (r.scalars.map Token.word ++
          [.word r.operands.length.toUInt64]))

theorem spine_of_not_composite {a : TypeArena} {n id : ℕ} {r : TypeRecord}
    (hr : a.get? id = some r) (hc : ¬ r.IsComposite) :
    spine a (n + 1) id = (headerTokens r ++ ((r.operands.map (spine a n)).map Prod.fst).flatten,
      ((r.operands.map (spine a n)).map Prod.snd).flatten) := by
  rw [spine]
  simp only [hr, if_neg hc, headerTokens]
  by_cases hv : r.kind = .volatileQual
  · simp [hv]
  · simp [hv]

theorem toUInt64_inj {n n' : ℕ} (h : n < 2 ^ 64) (h' : n' < 2 ^ 64)
    (heq : n.toUInt64 = n'.toUInt64) : n = n' := by
  have hmod : n % 2 ^ 64 = n' % 2 ^ 64 := by simpa using congrArg UInt64.toNat heq
  rwa [Nat.mod_eq_of_lt h, Nat.mod_eq_of_lt h'] at hmod

theorem kindWord_inj {k k' : TypeKind} (h : kindWord k = kindWord k') : k = k' := by
  have hlt : ∀ k : TypeKind, k.ctorIdx < 2 ^ 64 := by
    intro k
    cases k <;> decide
  have hidx : k.ctorIdx = k'.ctorIdx := toUInt64_inj (hlt k) (hlt k') (Token.word.inj h)
  rw [← TypeKind.ofNat_ctorIdx k, ← TypeKind.ofNat_ctorIdx k', hidx]

theorem erased_content {r : TypeRecord} {k : TypeKind} {e : UInt32} {os : List ℕ}
    {sc : List UInt64} {nm : List UInt8} (h : r = contentRecord k e os sc nm) :
    { r with operands := [] } = contentRecord k e [] sc nm := by
  subst h
  rfl

theorem headerTokens_inj {a b : TypeArena} {r r' : TypeRecord} (ha : a.Interned) (hb : b.Interned)
    (hr : r ∈ a.types) (hr' : r' ∈ b.types) (hc : ¬ r.IsComposite) (hc' : ¬ r'.IsComposite)
    {X Y : List Token} (h : headerTokens r ++ X = headerTokens r' ++ Y) :
    { r with operands := [] } = { r' with operands := [] } ∧
      r.operands.length = r'.operands.length ∧ X = Y := by
  obtain ⟨hbuilt, hlen, hlen'⟩ := ha r hr
  obtain ⟨hbuilt', hlen₂, hlen₂'⟩ := hb r' hr'
  have hparts := hbuilt.eq_content hc
  have hparts' := hbuilt'.eq_content hc'
  have hhead : ∀ s : TypeRecord, (headerTokens s).head? = some (kindWord s.kind) := by
    intro s
    unfold headerTokens
    split <;> rfl
  have hkind : r.kind = r'.kind := by
    have := congrArg List.head? h
    rw [List.head?_append, List.head?_append, hhead, hhead] at this
    exact kindWord_inj (Option.some.inj this)
  by_cases hv : r.kind = .volatileQual
  · rw [TypeArena.Built, if_neg hc, if_pos hv] at hbuilt
    rw [TypeArena.Built, if_neg hc', if_pos (hkind ▸ hv)] at hbuilt'
    obtain ⟨base, -, hops, -, -, -, hr⟩ := hbuilt
    obtain ⟨base', -, hops', -, -, -, hr'⟩ := hbuilt'
    rw [headerTokens, if_pos hv, headerTokens, if_pos (hkind ▸ hv)] at h
    simp only [List.cons_append, List.nil_append, List.cons.injEq, Token.word.injEq,
      UInt8.toUInt64_inj, UInt32.toUInt64_inj] at h
    obtain ⟨-, hbits, halign, hrest⟩ := h
    refine ⟨?_, by rw [hops, hops']; rfl, hrest⟩
    rw [erased_content hr, erased_content hr', hbits, halign]
  · have hv' : ¬ r'.kind = .volatileQual := hkind ▸ hv
    rw [headerTokens, if_neg hv, headerTokens, if_neg hv', ← hkind] at h
    simp only [List.cons_append, List.cons.injEq, Token.word.injEq, Token.text.injEq,
      UInt32.toUInt64_inj, true_and, List.append_assoc] at h
    obtain ⟨hname, hext, h⟩ := h
    have hcounts : Token.word r.scalars.length.toUInt64 :: (r.scalars.map Token.word ++
          .word r.operands.length.toUInt64 :: X) =
        Token.word r'.scalars.length.toUInt64 :: (r'.scalars.map Token.word ++
          .word r'.operands.length.toUInt64 :: Y) := by
      by_cases hf : r.kind = .fnSig
      · simp only [if_pos hf, List.cons_append, List.nil_append, List.cons.injEq] at h ⊢
        exact h.2
      · simpa only [if_neg hf, List.nil_append, List.cons_append] using h
    rw [List.cons.injEq, Token.word.injEq] at hcounts
    have hscalars := List.append_inj hcounts.2
      (by rw [List.length_map, List.length_map, toUInt64_inj hlen' hlen₂' hcounts.1])
    have hsc : r.scalars = r'.scalars :=
      List.map_injective_iff.mpr (fun _ _ => Token.word.inj) hscalars.1
    have hlast := hscalars.2
    simp only [List.cons.injEq, Token.word.injEq] at hlast
    refine ⟨?_, toUInt64_inj hlen hlen₂ hlast.1, hlast.2⟩
    rw [erased_content hparts, erased_content hparts', hkind, hext, hsc, hname]

/-- Types of two units that are alike but for the composites they reach, and these are related. -/
def Twin (R : ℕ → ℕ → Prop) (a b : TypeArena) : ℕ → ℕ → ℕ → Prop
  | 0, _, _ => False
  | n + 1, t, t' =>
    (t = 0 ∧ t' = 0) ∨ ∃ r r', a.get? t = some r ∧ b.get? t' = some r' ∧
      ((r.IsComposite ∧ r'.IsComposite ∧ r.kind = r'.kind ∧ R t t') ∨
        (¬ r.IsComposite ∧ ¬ r'.IsComposite ∧
          { r with operands := [] } = { r' with operands := [] } ∧
          List.Forall₂ (Twin R a b n) r.operands r'.operands))

theorem forall₂_append_left {A B : Type*} {R : A → B → Prop} {xs xs' : List A} {ys ys' : List B}
    (hlen : xs.length = ys.length) (h : List.Forall₂ R (xs ++ xs') (ys ++ ys')) :
    List.Forall₂ R xs ys ∧ List.Forall₂ R xs' ys' := by
  have htake := List.forall₂_take_append _ _ _ h
  have hdrop := List.forall₂_drop_append _ _ _ h
  rw [← hlen, List.take_left'] at htake
  · rw [← hlen, List.drop_left'] at hdrop
    · exact ⟨htake, hdrop⟩
    · rfl
  · rfl

section Spell

variable {a b : TypeArena}

theorem twins_of_fields {n : ℕ} {ops ops' : List ℕ} (hlen : ops.length = ops'.length)
    (hone : ∀ t ∈ ops, ∀ t' ∈ ops', ∀ X Y, (spine a n t).1 ++ X = (spine b n t').1 ++ Y →
      X = Y ∧ (spine a n t).2.length = (spine b n t').2.length ∧
        ∀ R, List.Forall₂ R (spine a n t).2 (spine b n t').2 → Twin R a b n t t')
    {tok tok' : ℕ → List Token} (htok : ∀ i, (tok i).length = (tok' i).length) {k : ℕ}
    {X Y : List Token}
    (h : (((ops.map (spine a n)).zipIdx k).map fun x => x.1.1 ++ tok x.2).flatten ++ X =
      (((ops'.map (spine b n)).zipIdx k).map fun x => x.1.1 ++ tok' x.2).flatten ++ Y) :
    X = Y ∧ (∀ i < ops.length, tok (k + i) = tok' (k + i)) ∧
      ((ops.map (spine a n)).map Prod.snd).flatten.length =
        ((ops'.map (spine b n)).map Prod.snd).flatten.length ∧
      ∀ R, List.Forall₂ R ((ops.map (spine a n)).map Prod.snd).flatten
        ((ops'.map (spine b n)).map Prod.snd).flatten → List.Forall₂ (Twin R a b n) ops ops' := by
  induction ops generalizing ops' k with
  | nil =>
    obtain rfl := List.length_eq_zero_iff.mp hlen.symm
    exact ⟨h, fun i hi => absurd hi (Nat.not_lt_zero i), rfl, fun _ _ => .nil⟩
  | cons t ops ih =>
    cases ops' with
    | nil => cases hlen
    | cons t' ops' =>
      simp only [List.map_cons, List.zipIdx_cons, List.flatten_cons, List.append_assoc] at h
      obtain ⟨hrest, hrefs, htwin⟩ := hone t List.mem_cons_self t' List.mem_cons_self _ _ h
      obtain ⟨hfirst, hothers⟩ := List.append_inj hrest (htok k)
      obtain ⟨hXY, htoks, hrefs', htwins⟩ := ih (Nat.succ.inj hlen)
        (fun u hu u' hu' => hone u (List.mem_cons_of_mem _ hu) u' (List.mem_cons_of_mem _ hu'))
        hothers
      refine ⟨hXY, fun i hi => ?_, ?_, fun R hR => ?_⟩
      · cases i with
        | zero => exact hfirst
        | succ i =>
          have := htoks i (Nat.lt_of_succ_lt_succ hi)
          rwa [Nat.add_right_comm] at this
      · simp only [List.map_cons, List.flatten_cons, List.length_append]
        rw [hrefs, hrefs']
      · simp only [List.map_cons, List.flatten_cons] at hR
        obtain ⟨hhere, hthere⟩ := forall₂_append_left hrefs hR
        exact .cons (htwin R hhere) (htwins R hthere)

theorem zipIdx_map_tokens (l : List (List Token × List ℕ)) :
    ((l.zipIdx 0).map fun x => x.1.1 ++ ([] : List Token)) = l.map Prod.fst := by
  simp only [List.append_nil]
  exact (List.map_map (f := Prod.fst) (g := Prod.fst)).symm.trans
    (congrArg _ (List.zipIdx_map_fst 0 l))

theorem twin_of_spine (ha : a.Interned) (hb : b.Interned) {n t t' : ℕ} (ht : t < n) (ht' : t' < n)
    (hin : t ≤ a.types.length) (hin' : t' ≤ b.types.length) {X Y : List Token}
    (h : (spine a n t).1 ++ X = (spine b n t').1 ++ Y) :
    X = Y ∧ (spine a n t).2.length = (spine b n t').2.length ∧
      ∀ R, List.Forall₂ R (spine a n t).2 (spine b n t').2 → Twin R a b n t t' := by
  induction n generalizing t t' X Y with
  | zero => omega
  | succ n ih =>
    have hnone : ∀ (c : TypeArena) (u : ℕ), c.get? u = none →
        spine c (n + 1) u = ([.text noTypeText], []) := by
      intro c u hu
      rw [spine]
      simp only [hu]
    have hcomp : ∀ (c : TypeArena) (u : ℕ) (r : TypeRecord), c.get? u = some r → r.IsComposite →
        spine c (n + 1) u = ([kindWord r.kind, .text compositeText], [u]) := by
      intro c u r hu hr
      rw [spine]
      simp only [hu, if_pos hr]
    -- every spelling of a type begins with its kind, and a composite goes on with a text of its own
    have hhead : ∀ (c : TypeArena) (u : ℕ) (r : TypeRecord) (Z : List Token), c.get? u = some r →
        ((spine c (n + 1) u).1 ++ Z).head? = some (kindWord r.kind) := by
      intro c u r Z hu
      by_cases hr : r.IsComposite
      · rw [hcomp c u r hu hr]
        rfl
      · rw [spine_of_not_composite hu hr, headerTokens]
        split <;> rfl
    have hstart := congrArg List.head? h
    cases hr : a.get? t with
    | none =>
      cases hr' : b.get? t' with
      | none =>
        rw [hnone a t hr, hnone b t' hr'] at h ⊢
        refine ⟨(List.cons.inj h).2, rfl, fun R _ => Or.inl ⟨?_, ?_⟩⟩
        · exact TypeArena.eq_zero_of_get? hin hr
        · exact TypeArena.eq_zero_of_get? hin' hr'
      | some r' =>
        rw [hhead b t' r' Y hr', hnone a t hr] at hstart
        cases hstart
    | some r =>
      rw [hhead a t r X hr] at hstart
      cases hr' : b.get? t' with
      | none =>
        rw [hnone b t' hr'] at hstart
        cases hstart
      | some r' =>
        rw [hhead b t' r' Y hr'] at hstart
        have hkind : r.kind = r'.kind := kindWord_inj (Option.some.inj hstart)
        by_cases hc : r.IsComposite
        · have hc' : r'.IsComposite := by rwa [TypeRecord.IsComposite, ← hkind]
          rw [hcomp a t r hr hc, hcomp b t' r' hr' hc'] at h ⊢
          simp only [List.cons_append, List.nil_append, List.cons.injEq] at h
          refine ⟨h.2.2, rfl, fun R hR => Or.inr ⟨r, r', hr, hr', Or.inl ⟨hc, hc', hkind, ?_⟩⟩⟩
          exact (List.forall₂_cons.mp hR).1
        · have hc' : ¬ r'.IsComposite := by rwa [TypeRecord.IsComposite, ← hkind]
          rw [spine_of_not_composite hr hc, spine_of_not_composite hr' hc'] at h ⊢
          simp only [List.append_assoc] at h
          obtain ⟨hsame, hlen, hrest⟩ := headerTokens_inj ha hb (TypeArena.mem_types hr)
            (TypeArena.mem_types hr') hc hc' h
          have hone : ∀ u ∈ r.operands, ∀ u' ∈ r'.operands, ∀ X Y,
              (spine a n u).1 ++ X = (spine b n u').1 ++ Y →
              X = Y ∧ (spine a n u).2.length = (spine b n u').2.length ∧
                ∀ R, List.Forall₂ R (spine a n u).2 (spine b n u').2 → Twin R a b n u u' := by
            intro u hu u' hu' X Y hXY
            have hlt := TypeArena.operand_lt hr hc hu
            have hlt' := TypeArena.operand_lt hr' hc' hu'
            exact ih (by omega) (by omega) (TypeArena.operand_le hr hu)
              (TypeArena.operand_le hr' hu') hXY
          rw [← zipIdx_map_tokens, ← zipIdx_map_tokens] at hrest
          have hbare : ∀ _ : ℕ, ([] : List Token).length = ([] : List Token).length := fun _ => rfl
          obtain ⟨hXY, -, hrefs, htwins⟩ := twins_of_fields hlen hone hbare hrest
          refine ⟨hXY, hrefs, fun R hR => Or.inr ⟨r, r', hr, hr', Or.inr ⟨hc, hc', hsame, ?_⟩⟩⟩
          exact htwins R hR

end Spell

def SameChannels (r r' : TypeRecord) : Prop :=
  r.composite.fieldOffsets.isSome = r'.composite.fieldOffsets.isSome ∧
  r.composite.fieldAligns.isSome = r'.composite.fieldAligns.isSome ∧
  r.composite.fieldPacked.isSome = r'.composite.fieldPacked.isSome

theorem fieldTokens_length {r r' : TypeRecord} (h : SameChannels r r') (i : ℕ) :
    (fieldTokens r i).length = (fieldTokens r' i).length := by
  obtain ⟨ho, ha, hp⟩ := h
  have hlen : ∀ {A : Type} {o o' : Option A} (f f' : A → Token), o.isSome = o'.isSome →
      (o.map f).toList.length = (o'.map f').toList.length := by
    intro A o o' f f' hs
    cases o <;> cases o' <;> first | rfl | cases hs
  simp only [fieldTokens, List.length_cons, List.length_append]
  rw [hlen _ _ ho, hlen _ _ ha, hlen _ _ hp]

theorem scalars_eq_of_getD {n : ℕ} {sc sc' : List UInt64}
    (h : encodeFieldBitWidths n (sc.map decodeBitWidth) = sc)
    (h' : encodeFieldBitWidths n (sc'.map decodeBitWidth) = sc')
    (hsame : ∀ i < n, sc.getD i 0 = sc'.getD i 0) : sc = sc' := by
  have hcases : ∀ {s : List UInt64}, encodeFieldBitWidths n (s.map decodeBitWidth) = s →
      s = [] ∨ s.length = n ∧ ∃ j, ∃ hj : j < s.length, (decodeBitWidth s[j]).isSome := by
    intro s hs
    unfold encodeFieldBitWidths at hs
    split at hs
    · next hany =>
      right
      obtain ⟨w, hw, hsome⟩ := List.any_eq_true.mp hany
      obtain ⟨e, he, rfl⟩ := List.mem_map.mp hw
      obtain ⟨j, hj, rfl⟩ := List.getElem_of_mem he
      exact ⟨by rw [← hs, List.length_map, List.length_range], j, hj, hsome⟩
    · exact Or.inl hs.symm
  -- no number that is not there is the width of a bit-field
  have hzero : ∀ {s s' : List UInt64}, s = [] → s'.length = n →
      (∀ i < n, s.getD i 0 = s'.getD i 0) →
      ∀ j, ∀ hj : j < s'.length, ¬ (decodeBitWidth s'[j]).isSome := by
    rintro s s' rfl hlen hs j hj
    have := hs j (by omega)
    rw [List.getD_eq_getElem _ _ hj] at this
    rw [← this, List.getD_nil]
    decide
  rcases hcases h with hnil | ⟨hlen, j, hj, hsome⟩
  · rcases hcases h' with hnil' | ⟨hlen', j, hj, hsome⟩
    · rw [hnil, hnil']
    · exact absurd hsome (hzero hnil hlen' hsame j hj)
  · rcases hcases h' with hnil' | ⟨hlen', -, -, -⟩
    · exact absurd hsome (hzero hnil' hlen (fun i hi => (hsame i hi).symm) j hj)
    · refine List.ext_getElem (by omega) fun i hi hi' => ?_
      have := hsame i (by omega)
      rwa [List.getD_eq_getElem _ _ hi, List.getD_eq_getElem _ _ hi'] at this

theorem stated_eq_of_getD {A : Type} {n : ℕ} {d : A} {o o' : Option (List A)}
    (hs : o.isSome = o'.isSome)
    (h : ∀ l, o = some l → stated ((List.range n).map fun i => l.getD i d) = some l)
    (h' : ∀ l, o' = some l → stated ((List.range n).map fun i => l.getD i d) = some l)
    (hsame : ∀ l l', o = some l → o' = some l' → ∀ i < n, l.getD i d = l'.getD i d) : o = o' := by
  cases o with
  | none => cases o' with
    | none => rfl
    | some l' => cases hs
  | some l => cases o' with
    | none => cases hs
    | some l' =>
      have hmap : ((List.range n).map fun i => l.getD i d) =
          (List.range n).map fun i => l'.getD i d :=
        List.map_congr_left fun i hi => hsame l l' rfl rfl i (List.mem_range.mp hi)
      rw [← h l rfl, ← h' l' rfl, hmap]

section Composite

variable {a b : TypeArena} {r r' : TypeRecord}

theorem TypeArena.Built.composite (h : a.Built r) (hc : r.IsComposite)
    (hcomplete : r.composite.complete = true) :
    encodeFieldBitWidths r.operands.length (r.scalars.map decodeBitWidth) = r.scalars ∧
    (∀ l, r.composite.fieldOffsets = some l →
      stated ((List.range r.operands.length).map fun i => l.getD i 0) = some l) ∧
    (∀ l, r.composite.fieldAligns = some l →
      stated ((List.range r.operands.length).map fun i => l.getD i 0) = some l) ∧
    (∀ l, r.composite.fieldPacked = some l →
      stated ((List.range r.operands.length).map fun i => l.getD i false) = some l) := by
  rw [TypeArena.Built, if_pos hc] at h
  have hfix := (h hcomplete).2
  have hdata := congrArg TypeRecord.composite hfix
  refine ⟨congrArg TypeRecord.scalars hfix, fun l hl => ?_, fun l hl => ?_, fun l hl => ?_⟩
  · have := congrArg CompositeData.fieldOffsets hdata
    simpa only [TypeRecord.completed, shapeOf, hl] using this
  · have := congrArg CompositeData.fieldAligns hdata
    simpa only [TypeRecord.completed, shapeOf, hl] using this
  · have := congrArg CompositeData.fieldPacked hdata
    simpa only [TypeRecord.completed, shapeOf, hl] using this

theorem fieldTokens_inj {i : ℕ} (hch : SameChannels r r') (h : fieldTokens r i = fieldTokens r' i) :
    r.scalars.getD i 0 = r'.scalars.getD i 0 ∧
    (∀ l l', r.composite.fieldOffsets = some l → r'.composite.fieldOffsets = some l' →
      l.getD i 0 = l'.getD i 0) ∧
    (∀ l l', r.composite.fieldAligns = some l → r'.composite.fieldAligns = some l' →
      l.getD i 0 = l'.getD i 0) ∧
    (∀ l l', r.composite.fieldPacked = some l → r'.composite.fieldPacked = some l' →
      l.getD i false = l'.getD i false) := by
  obtain ⟨ho, ha, hp⟩ := hch
  have hlen : ∀ {A : Type} {o o' : Option A} (f f' : A → Token), o.isSome = o'.isSome →
      (o.map f).toList.length = (o'.map f').toList.length := by
    intro A o o' f f' hs
    cases o <;> cases o' <;> first | rfl | cases hs
  rw [fieldTokens, fieldTokens, List.cons.injEq, Token.word.injEq] at h
  obtain ⟨hwidth, h⟩ := h
  obtain ⟨h, hpacked⟩ := List.append_inj h (by
    rw [List.length_append, List.length_append, hlen _ _ ho, hlen _ _ ha])
  obtain ⟨hoffset, halign⟩ := List.append_inj h (hlen _ _ ho)
  refine ⟨hwidth, fun l l' hl hl' => ?_, fun l l' hl hl' => ?_, fun l l' hl hl' => ?_⟩
  · simpa [hl, hl'] using hoffset
  · simpa [hl, hl', UInt32.toUInt64_inj] using halign
  · rw [hl, hl'] at hpacked
    cases hb : l.getD i false <;> cases hb' : l'.getD i false <;> simp_all

theorem composite_of_signature (ha : a.Interned) (hb : b.Interned) (hr : r ∈ a.types)
    (hr' : r' ∈ b.types) (hc : r.IsComposite) (hc' : r'.IsComposite)
    (hcomplete : r.composite.complete = true) (hcomplete' : r'.composite.complete = true)
    (hch : SameChannels r r') (h : (localSignature a r).1 = (localSignature b r').1) :
    r.scalars = r'.scalars ∧ r.composite = r'.composite ∧
      ∀ R, List.Forall₂ R (localSignature a r).2 (localSignature b r').2 →
        List.Forall₂ (Twin R a b (a.types.length + b.types.length + 1)) r.operands r'.operands := by
  obtain ⟨hbuilt, hcount, -⟩ := ha r hr
  obtain ⟨hbuilt', hcount', -⟩ := hb r' hr'
  -- the fields are spelled with one fuel
  have hfuel : ∀ (c : TypeArena) (s : TypeRecord) (N : ℕ), s ∈ c.types → c.types.length < N →
      (s.operands.map fun f => spine c (f + 1) f) = s.operands.map (spine c N) := by
    intro c s N hs hN
    refine List.map_congr_left fun f hf => ?_
    have := c.inside s hs f hf
    exact spine_fuel c (Nat.lt_succ_self f) (by omega)
  have hN : a.types.length < a.types.length + b.types.length + 1 := by omega
  have hN' : b.types.length < a.types.length + b.types.length + 1 := by omega
  generalize a.types.length + b.types.length + 1 = N at hN hN' ⊢
  simp only [localSignature, hfuel a r N hr hN, hfuel b r' N hr' hN'] at h ⊢
  simp only [List.cons.injEq, Token.word.injEq, Token.text.injEq, UInt32.toUInt64_inj] at h
  obtain ⟨-, -, hpk, hea, hmf, hn, hfields⟩ := h
  have hlen : r.operands.length = r'.operands.length := toUInt64_inj hcount hcount' hn
  have hone : ∀ t ∈ r.operands, ∀ t' ∈ r'.operands, ∀ X Y,
      (spine a N t).1 ++ X = (spine b N t').1 ++ Y →
      X = Y ∧ (spine a N t).2.length = (spine b N t').2.length ∧
        ∀ R, List.Forall₂ R (spine a N t).2 (spine b N t').2 → Twin R a b N t t' := by
    intro t ht t' ht' X Y hXY
    have hin := a.inside r hr t ht
    have hin' := b.inside r' hr' t' ht'
    exact twin_of_spine ha hb (by omega) (by omega) hin hin' hXY
  obtain ⟨-, htoks, -, htwins⟩ :=
    twins_of_fields hlen hone (fieldTokens_length hch) (congrArg (· ++ []) hfields)
  have hdata : ∀ i < r.operands.length, fieldTokens r i = fieldTokens r' i := by
    intro i hi
    have := htoks i hi
    rwa [Nat.zero_add] at this
  obtain ⟨hsc, hos, has, hps⟩ := hbuilt.composite hc hcomplete
  obtain ⟨hsc', hos', has', hps'⟩ := hbuilt'.composite hc' hcomplete'
  rw [← hlen] at hsc' hos' has' hps'
  have hscalars := scalars_eq_of_getD hsc hsc' fun i hi => (fieldTokens_inj hch (hdata i hi)).1
  have hoffsets := stated_eq_of_getD hch.1 hos hos' fun l l' hl hl' i hi =>
    (fieldTokens_inj hch (hdata i hi)).2.1 l l' hl hl'
  have haligns := stated_eq_of_getD hch.2.1 has has' fun l l' hl hl' i hi =>
    (fieldTokens_inj hch (hdata i hi)).2.2.1 l l' hl hl'
  have hpackeds := stated_eq_of_getD hch.2.2 hps hps' fun l l' hl hl' i hi =>
    (fieldTokens_inj hch (hdata i hi)).2.2.2 l l' hl hl'
  have hpacked : r.composite.packed = r'.composite.packed := by
    cases hp : r.composite.packed <;> cases hp' : r'.composite.packed <;> simp_all
  refine ⟨hscalars, ?_, htwins⟩
  cases hd : r.composite
  cases hd' : r'.composite
  simp_all

end Composite

end DssPrime
