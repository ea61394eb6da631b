import DssPrime.Types.ReinternSound

/-!
# Keys and the host

The keys of `CompositeIdentityIndex` are what the host needs of them (`keysSound_keyFor`), so the
one thing that can go wrong when all units are interned in one host is what the signatures do not
say: which of a field's offset, alignment and packing a token is.
-/

namespace DssPrime

variable {K : Type} [DecidableEq K]

theorem decimalText_no_colon (n : ℕ) : (58 : UInt8) ∉ decimalText n := by
  intro h
  rw [decimalText, List.mem_map] at h
  obtain ⟨c, hc, hcolon⟩ := h
  have hdigit := Nat.isDigit_of_mem_toDigits (by decide) (by decide) hc
  simp only [Char.isDigit, Bool.and_eq_true, decide_eq_true_eq] at hdigit
  have hlow : 48 ≤ c.toNat := UInt32.le_iff_toNat_le.mp hdigit.1
  have hhigh : c.toNat ≤ 57 := UInt32.le_iff_toNat_le.mp hdigit.2
  have hmod := congrArg UInt8.toNat hcolon
  simp only [UInt8.toNat_ofNat', Nat.toUInt8_eq] at hmod
  have : c.toNat % 256 = 58 := hmod
  omega

theorem append_mark_inj {A : Type*} {mark : A} {xs xs' ys ys' : List A} (hx : mark ∉ xs)
    (hx' : mark ∉ xs') (h : xs ++ mark :: ys = xs' ++ mark :: ys') : xs = xs' ∧ ys = ys' := by
  induction xs generalizing xs' with
  | nil =>
    cases xs' with
    | nil => exact ⟨rfl, (List.cons.inj h).2⟩
    | cons x' xs' =>
      obtain ⟨rfl, -⟩ := List.cons.inj h
      exact absurd List.mem_cons_self hx'
  | cons x xs ih =>
    cases xs' with
    | nil =>
      obtain ⟨rfl, -⟩ := List.cons.inj h
      exact absurd List.mem_cons_self hx
    | cons x' xs' =>
      obtain ⟨rfl, hrest⟩ := List.cons.inj h
      obtain ⟨hxs, hys⟩ := ih (fun hm => hx (List.mem_cons_of_mem _ hm))
        (fun hm => hx' (List.mem_cons_of_mem _ hm)) hrest
      exact ⟨by rw [hxs], hys⟩

theorem tagKey_name {t t' : Tag} (h : tagKey t = tagKey t') : t.name = t'.name := by
  simp only [tagKey, List.append_assoc, List.cons_append, List.nil_append] at h
  obtain ⟨-, hrest⟩ := append_mark_inj (decimalText_no_colon _) (decimalText_no_colon _) h
  exact (append_mark_inj (decimalText_no_colon _) (decimalText_no_colon _) hrest).2

theorem Denotes.signature_tag {units : List TypeArena} {x : TypeArena × ℕ} {r : TypeRecord}
    {v : CompositeNode} (h : Denotes units x v) (hr : x.1.get? x.2 = some r) :
    (∃ rest, signatureOf v =
      some (kindWord r.kind :: .text (anonNameWithoutDeclSite r.name) :: rest)) ∨
    signatureOf v = some [.text placeholderText, .text (tagKey r.tag)] := by
  cases h with
  | self hr' hc =>
    rw [hr, Option.some_inj] at hr'
    subst hr'
    left
    simp only [signatureOf, hr, hc, if_true]
    exact ⟨_, rfl⟩
  | @definition r' hr' hc ht b hb d hd =>
    rw [hr, Option.some_inj] at hr'
    subst hr'
    obtain ⟨hmem, hcomplete, htag⟩ := firstDefinition_spec hd
    left
    simp only [signatureOf, (mem_composites.mp hmem).1, hcomplete, if_true]
    have hkind : d.2.kind = r.kind := congrArg Tag.kind htag
    have hname : anonNameWithoutDeclSite d.2.name = anonNameWithoutDeclSite r.name :=
      congrArg Tag.name htag
    rw [← hkind, ← hname]
    exact ⟨_, rfl⟩
  | placeholder hr' hc ht =>
    rw [hr, Option.some_inj] at hr'
    subst hr'
    right
    rfl

/-- Two nodes of one structure: one signature, and at every reference nodes of one structure,
forward declarations read through. -/
def StructurallyEqual (idx : CompositeIdentityIndex K) (v w : CompositeNode) : Prop :=
  Refine.Bisimilar signatureOf (refNodes idx) v w

section Keys

variable {m : Mixer K} {units : List TypeArena} (hfree : NoCollision m units)
  (hnodup : (units.map TypeArena.owner).Nodup)
include hfree hnodup

theorem nodeKey_step {v w : CompositeNode} (hv : Denoted units v) (hw : Denoted units w)
    (h : nodeKey m units v = nodeKey m units w) : signatureOf v = signatureOf w ∧
      List.Forall₂ (fun x y => keyFor m (observeAll m units) x = keyFor m (observeAll m units) y)
        (refsOf v) (refsOf w) := by
  obtain ⟨R, hR, hvw⟩ := (nodeKey_eq_iff hfree hnodup (.refl units) hv hw).mp h
  obtain ⟨hown, hrefs⟩ := hR v w hvw
  refine ⟨hfree.digests v w hv hw hown, ?_⟩
  rw [refNodes, refNodes, List.forall₂_map_left_iff, List.forall₂_map_right_iff] at hrefs
  refine Refine.forall₂_imp_of_mem hrefs fun x hx y hy hxy => ?_
  have hdx := aliasOf_denotes hfree hnodup (.refl units) (hv.refs hx)
  have hdy := aliasOf_denotes hfree hnodup (.refl units) (hw.refs hy)
  exact (nodeKey_eq_iff hfree hnodup (.refl units) ⟨x, hv.refs hx, hdx⟩
    ⟨y, hw.refs hy, hdy⟩).mpr ⟨R, hR, hxy⟩

theorem nodeKey_eq_iff_structurallyEqual {v w : CompositeNode} (hv : Denoted units v)
    (hw : Denoted units w) : nodeKey m units v = nodeKey m units w ↔
      StructurallyEqual (observeAll m units) v w := by
  constructor
  · intro h
    refine ⟨fun v w => Denoted units v ∧ Denoted units w ∧
      nodeKey m units v = nodeKey m units w, ?_,
      hv, hw, h⟩
    rintro v w ⟨hv, hw, h⟩
    obtain ⟨hsig, hrefs⟩ := nodeKey_step hfree hnodup hv hw h
    refine ⟨hsig, ?_⟩
    rw [refNodes, refNodes, List.forall₂_map_left_iff, List.forall₂_map_right_iff]
    refine Refine.forall₂_imp_of_mem hrefs fun x hx y hy hxy => ⟨?_, ?_, hxy⟩
    · exact ⟨x, hv.refs hx, aliasOf_denotes hfree hnodup (.refl units) (hv.refs hx)⟩
    · exact ⟨y, hw.refs hy, aliasOf_denotes hfree hnodup (.refl units) (hw.refs hy)⟩
  · rintro ⟨R, hR, hvw⟩
    refine (nodeKey_eq_iff hfree hnodup (.refl units) hv hw).mpr ⟨R, fun v w h => ?_, hvw⟩
    obtain ⟨hsig, hrefs⟩ := hR v w h
    exact ⟨by rw [ownDigest, ownDigest, hsig], hrefs⟩

theorem keysSound_keyFor : KeysSound units (keyFor m (observeAll m units)) where
  name := by
    intro a ha b hb i j r r' hr hr' hc hc' hkey hkind
    have hx : IsCompositeOf units (a, i) := ⟨ha, r, hr, hc⟩
    have hy : IsCompositeOf units (b, j) := ⟨hb, r', hr', hc'⟩
    have hdx := aliasOf_denotes hfree hnodup (.refl units) hx
    have hdy := aliasOf_denotes hfree hnodup (.refl units) hy
    have hsig := (nodeKey_step hfree hnodup ⟨_, hx, hdx⟩ ⟨_, hy, hdy⟩ hkey).1
    rcases hdx.signature_tag hr with ⟨rest, hv⟩ | hv <;>
      rcases hdy.signature_tag hr' with ⟨rest', hw⟩ | hw
    · rw [hv, hw] at hsig
      simp only [Option.some.injEq, List.cons.injEq, Token.text.injEq] at hsig
      exact hsig.2.1
    · rw [hv, hw] at hsig
      cases hsig
    · rw [hv, hw] at hsig
      cases hsig
    · rw [hv, hw] at hsig
      simp only [Option.some.injEq, List.cons.injEq, Token.text.injEq] at hsig
      exact tagKey_name hsig.2.1
  signature := by
    intro a ha b hb i j r r' hr hr' hc hc' hcomplete hcomplete' hkey
    have hself : ∀ {c : TypeArena} {n : ℕ} {s : TypeRecord}, c ∈ units → c.get? n = some s →
        s.IsComposite → s.composite.complete = true →
        Denoted units (.composite c n) ∧
          keyFor m (observeAll m units) (c, n) = nodeKey m units (.composite c n) ∧
          signatureOf (.composite c n) = some (localSignature c s).1 ∧
          refsOf (.composite c n) = (localSignature c s).2.map fun ref => (c, ref) := by
      intro c n s hcu hs hsc hscomplete
      refine ⟨⟨(c, n), ⟨hcu, s, hs, hsc⟩, .self hs hscomplete⟩, ?_, ?_, ?_⟩
      · simp [keyFor, nodeKey, aliasOf, hs, hscomplete]
      · simp [signatureOf, hs, hscomplete]
      · simp [refsOf, hs, hscomplete]
    obtain ⟨hdx, hkx, hsx, hrx⟩ := hself ha hr hc hcomplete
    obtain ⟨hdy, hky, hsy, hry⟩ := hself hb hr' hc' hcomplete'
    rw [hkx, hky] at hkey
    obtain ⟨hsig, hrefs⟩ := nodeKey_step hfree hnodup hdx hdy hkey
    rw [hsx, hsy, Option.some_inj] at hsig
    rw [hrx, hry, List.forall₂_map_left_iff, List.forall₂_map_right_iff] at hrefs
    exact ⟨hsig, hrefs⟩

end Keys

def IsDefinition (units : List TypeArena) (x : TypeArena × ℕ) (r : TypeRecord) : Prop :=
  x.1 ∈ units ∧ x.1.get? x.2 = some r ∧ r.IsComposite ∧ r.composite.complete = true

/-- What the identity is for. -/
structure CoarsestIdentity (m : Mixer K) (units : List TypeArena) : Prop where
  ends : ∃ k, finalize m (observeAll m units) = (Refine.label (ownDigest m)
        (refNodes (observeAll m units)) m.combine (k + 1), k + 1) ∧
    Refine.classes (nodesOf (observeAll m units)) (Refine.label (ownDigest m)
        (refNodes (observeAll m units)) m.combine (k + 1)) =
      Refine.classes (nodesOf (observeAll m units)) (Refine.label (ownDigest m)
        (refNodes (observeAll m units)) m.combine k) ∧
    k + 1 < (nodesOf (observeAll m units)).length + 2
  keys : ∀ x y r r', IsDefinition units x r → IsDefinition units y r' →
    (keyFor m (observeAll m units) x = keyFor m (observeAll m units) y ↔
      StructurallyEqual (observeAll m units) (.composite x.1 x.2) (.composite y.1 y.2))
  host : ReinternsFaithfully units (keyFor m (observeAll m units))
  /-- Composites that become one have one kind, the same widths and data, and fields that become
  the same. -/
  apart : ∀ requests st, (∀ x ∈ requests, x.1 ∈ units ∧ x.2 ≤ x.1.types.length) →
    reinternAll (keyFor m (observeAll m units)) requests = .ok st →
    ∀ x ∈ requests, ∀ y ∈ requests, ∀ r r', IsDefinition units x r → IsDefinition units y r' →
    ∀ i, st.remap x.1.owner x.2 = some i → st.remap y.1.owner y.2 = some i →
      r.kind = r'.kind ∧ r.scalars = r'.scalars ∧ r.composite = r'.composite ∧
        ∃ fields, List.Forall₂ (Image (keyFor m (observeAll m units)) st.host x.1) r.operands
          fields ∧
          List.Forall₂ (Image (keyFor m (observeAll m units)) st.host y.1) r'.operands fields

theorem ReinternsFaithfully.apart {units : List TypeArena} {key : TypeArena × ℕ → K}
    (h : ReinternsFaithfully units key) {requests : List (TypeArena × ℕ)}
    {st : ReinternState K} (hreq : ∀ x ∈ requests, x.1 ∈ units ∧ x.2 ≤ x.1.types.length)
    (hok : reinternAll key requests = .ok st) {x y : TypeArena × ℕ} (hx : x ∈ requests)
    (hy : y ∈ requests) {r r' : TypeRecord} (hr : IsDefinition units x r)
    (hr' : IsDefinition units y r') {i : ℕ} (hi : st.remap x.1.owner x.2 = some i)
    (hi' : st.remap y.1.owner y.2 = some i) :
    r.kind = r'.kind ∧ r.scalars = r'.scalars ∧ r.composite = r'.composite ∧
      ∃ fields, List.Forall₂ (Image key st.host x.1) r.operands fields ∧
        List.Forall₂ (Image key st.host y.1) r'.operands fields := by
  obtain ⟨st', hok', hall⟩ := h requests hreq
  rw [hok, Except.ok.injEq] at hok'
  subst hok'
  obtain ⟨-, hget, hc, hcomplete⟩ := hr
  obtain ⟨-, hget', hc', hcomplete'⟩ := hr'
  obtain ⟨j, t, hj, ht, -, hkind, -, hsc, hdata, hops⟩ := hall x hx r hget hc hcomplete
  obtain ⟨j', t', hj', ht', -, hkind', -, hsc', hdata', hops'⟩ := hall y hy r' hget' hc' hcomplete'
  rw [hi, Option.some_inj] at hj
  rw [hi', Option.some_inj] at hj'
  subst hj hj'
  rw [ht, Option.some_inj] at ht'
  subst ht'
  exact ⟨hkind.symm.trans hkind', hsc.symm.trans hsc', hdata.symm.trans hdata', _, hops, hops'⟩

/-- The identity does what it is for exactly if complete composites of one structure state the same
of the offsets, alignments and packing of their fields. -/
theorem coarsestIdentity_iff (m : Mixer K) (units : List TypeArena) (hfree : NoCollision m units)
    (hnodup : (units.map TypeArena.owner).Nodup) (hint : ∀ a ∈ units, a.Interned) :
    CoarsestIdentity m units ↔
      ∀ x y r r', IsDefinition units x r → IsDefinition units y r' →
        StructurallyEqual (observeAll m units) (.composite x.1 x.2) (.composite y.1 y.2) →
        SameChannels r r' := by
  have hself : ∀ x r, IsDefinition units x r → Denoted units (.composite x.1 x.2) ∧
      keyFor m (observeAll m units) x = nodeKey m units (.composite x.1 x.2) := by
    rintro x r ⟨hx, hr, hc, hcomplete⟩
    refine ⟨⟨x, ⟨hx, r, hr, hc⟩, .self hr hcomplete⟩, ?_⟩
    simp [keyFor, nodeKey, aliasOf, hr, hcomplete]
  have hkeys : ∀ x y r r', IsDefinition units x r → IsDefinition units y r' →
      (keyFor m (observeAll m units) x = keyFor m (observeAll m units) y ↔
        StructurallyEqual (observeAll m units) (.composite x.1 x.2) (.composite y.1 y.2)) := by
    intro x y r r' hx hy
    obtain ⟨hdx, hkx⟩ := hself x r hx
    obtain ⟨hdy, hky⟩ := hself y r' hy
    rw [hkx, hky]
    exact nodeKey_eq_iff_structurallyEqual hfree hnodup hdx hdy
  have hhost := reinternsFaithfully_iff (keysSound_keyFor hfree hnodup) hint hnodup
  constructor
  · intro hall x y r r' hx hy heq
    have hagree := hhost.mp hall.host
    exact hagree x.1 hx.1 y.1 hy.1 x.2 y.2 r r' hx.2.1 hy.2.1 hx.2.2.1 hy.2.2.1 hx.2.2.2 hy.2.2.2
      ((hkeys x y r r' hx hy).mpr heq)
  · intro hagree
    have hfaithful := hhost.mpr fun a ha b hb i j r r' hr hr' hc hc' hcomplete hcomplete' hkey =>
      hagree (a, i) (b, j) r r' ⟨ha, hr, hc, hcomplete⟩ ⟨hb, hr', hc', hcomplete'⟩
        ((hkeys (a, i) (b, j) r r' ⟨ha, hr, hc, hcomplete⟩ ⟨hb, hr', hc', hcomplete'⟩).mp hkey)
    obtain ⟨k, hk, hsame, hbound⟩ := Refine.refine_spec (hfree.rounds units (.refl units))
      (nodesOf_closed hfree hnodup (.refl units))
    refine ⟨⟨k, hk, hsame, by omega⟩, hkeys, hfaithful, ?_⟩
    intro requests st hreq hok x hx y hy r r' hr hr' i hi hi'
    exact hfaithful.apart hreq hok hx hy hr hr' hi hi'

def channelUnit (owner : ℕ) (aligns : Option (List UInt32)) (packed : Option (List Bool)) :
    TypeArena where
  owner := owner
  types := [contentRecord .char 0 [] [] [], contentRecord .i32 0 [] [] [],
    { contentRecord .struct 0 [1, 2] [] [83] with
      composite := ⟨true, false, 0, 0, none, aligns, packed⟩ }]
  inside := by simp [contentRecord]
  ordered := by
    rintro (_ | _ | _ | i) r h hr op hop
    · obtain rfl := Option.some_inj.mp h
      cases hop
    · obtain rfl := Option.some_inj.mp h
      cases hop
    · obtain rfl := Option.some_inj.mp h
      exact absurd (.inl rfl) hr
    · simp at h

theorem eq_error_of_map {ε A : Type} {x : Except ε A} {e : ε}
    (h : x.map (fun _ => ()) = .error e) : x = .error e := by
  cases x with
  | ok a => cases h
  | error e' =>
    cases h
    rfl

/-- `struct S { alignas(1) char a; int b; }` in one unit and
`struct S { char a __attribute__((packed)); int b; }` in another: the `1` of the alignment and the
`1` of the packing are one token, so the structs have one signature and one key, and the host stops
at the second. -/
theorem alignas_packed_conflict :
    reinternAll (keyFor fnv (observeAll fnv [channelUnit 1 (some [1, 0]) none,
      channelUnit 2 none (some [true, false])]))
      [(channelUnit 1 (some [1, 0]) none, 3), (channelUnit 2 none (some [true, false]), 3)] =
        .error .conflictingFields ∧
    ¬ CoarsestIdentity fnv [channelUnit 1 (some [1, 0]) none,
      channelUnit 2 none (some [true, false])] := by
  have herror : reinternAll (keyFor fnv (observeAll fnv [channelUnit 1 (some [1, 0]) none,
      channelUnit 2 none (some [true, false])]))
      [(channelUnit 1 (some [1, 0]) none, 3), (channelUnit 2 none (some [true, false]), 3)] =
        .error .conflictingFields := eq_error_of_map (by decide +kernel)
  refine ⟨herror, fun hall => ?_⟩
  obtain ⟨st, hok, -⟩ := hall.host [(channelUnit 1 (some [1, 0]) none, 3),
    (channelUnit 2 none (some [true, false]), 3)] (by simp [channelUnit])
  rw [herror] at hok
  cases hok

theorem channelUnit_interned (owner : ℕ) : (channelUnit owner (some [1, 0]) none).Interned := by
  intro r hr
  have hprim : ∀ k : TypeKind, rebuilt (channelUnit owner (some [1, 0]) none).get?
      (contentRecord k 0 [] [] []) [] = .ok (contentRecord k 0 [] [] []) →
      k ≠ .extension → k ≠ .volatileQual → ¬ (contentRecord k 0 [] [] []).IsComposite →
      (channelUnit owner (some [1, 0]) none).Built (contentRecord k 0 [] [] []) := by
    intro k hk hext hv hc
    rw [TypeArena.Built, if_neg hc,
      if_neg (show ¬ (contentRecord k 0 [] [] []).kind = .volatileQual from hv)]
    exact ⟨hk, by simp [contentRecord, hext]⟩
  simp only [channelUnit, List.mem_cons, List.not_mem_nil, or_false] at hr
  rcases hr with rfl | rfl | rfl
  · exact ⟨hprim .char rfl (by decide) (by decide) (by decide), by decide, by decide⟩
  · exact ⟨hprim .i32 rfl (by decide) (by decide) (by decide), by decide, by decide⟩
  · refine ⟨?_, by decide, by decide⟩
    rw [TypeArena.Built, if_pos (by decide)]
    exact fun _ => ⟨by decide, by decide⟩

/-- `struct T; struct S { alignas(1) struct T *p; int n; };`, where `T` is
`struct T { alignas(1) char a; int b; };` if the unit defines it. -/
def linkedUnit (owner : ℕ) (defines : Bool) : TypeArena where
  owner := owner
  types := [contentRecord .char 0 [] [] [], contentRecord .i32 0 [] [] [],
    { contentRecord .struct 0 (if defines then [1, 2] else []) [] [84] with
      composite := ⟨defines, false, 0, 0, none, if defines then some [1, 0] else none, none⟩ },
    contentRecord .ptr 0 [3] [] [],
    { contentRecord .struct 0 [4, 2] [] [83] with
      composite := ⟨true, false, 0, 0, none, some [1, 0], none⟩ }]
  inside := by cases defines <;> simp [contentRecord]
  ordered := by
    rintro (_ | _ | _ | _ | _ | i) r h hr op hop
    · obtain rfl := Option.some_inj.mp h
      cases hop
    · obtain rfl := Option.some_inj.mp h
      cases hop
    · obtain rfl := Option.some_inj.mp h
      exact absurd (.inl rfl) hr
    · obtain rfl := Option.some_inj.mp h
      exact (List.mem_singleton.mp hop).le
    · obtain rfl := Option.some_inj.mp h
      exact absurd (.inl rfl) hr
    · simp at h

theorem linkedUnit_interned (owner : ℕ) (defines : Bool) : (linkedUnit owner defines).Interned := by
  intro r hr
  simp only [linkedUnit, List.mem_cons, List.not_mem_nil, or_false] at hr
  rcases hr with rfl | rfl | rfl | rfl | rfl
  · refine ⟨?_, by decide, by decide⟩
    rw [TypeArena.Built, if_neg (by decide), if_neg (by decide)]
    exact ⟨rfl, by decide⟩
  · refine ⟨?_, by decide, by decide⟩
    rw [TypeArena.Built, if_neg (by decide), if_neg (by decide)]
    exact ⟨rfl, by decide⟩
  · refine ⟨?_, by cases defines <;> decide, by cases defines <;> decide⟩
    rw [TypeArena.Built, if_pos (.inl rfl)]
    intro hcomplete
    obtain rfl : defines = true := hcomplete
    exact ⟨by decide, by decide⟩
  · refine ⟨?_, by decide, by decide⟩
    rw [TypeArena.Built, if_neg (by decide), if_neg (by decide)]
    exact ⟨rfl, by decide⟩
  · refine ⟨?_, by decide, by decide⟩
    rw [TypeArena.Built, if_pos (.inl rfl)]
    exact fun _ => ⟨by decide, by decide⟩

def alikeUnits : List TypeArena := [linkedUnit 1 true, linkedUnit 2 false]

/-- The nodes that the composites of the units may denote. -/
def denotable (units : List TypeArena) : List CompositeNode :=
  (allComposites units).map (fun x => .composite x.1 x.2.1) ++
    (allComposites units).map fun x => .placeholder x.2.2.tag

theorem mem_allComposites_of_get {units : List TypeArena} {x : TypeArena × ℕ}
    {r : TypeRecord} (hx : x.1 ∈ units) (hr : x.1.get? x.2 = some r) (hc : r.IsComposite) :
    (x.1, x.2, r) ∈ allComposites units :=
  List.mem_flatMap.mpr ⟨x.1, hx, List.mem_map_of_mem (mem_composites.mpr ⟨hr, hc⟩)⟩

theorem Denoted.mem_denotable {units : List TypeArena} {v : CompositeNode}
    (h : Denoted units v) : v ∈ denotable units := by
  obtain ⟨x, ⟨hx, r, hr, hc⟩, hden⟩ := h
  have hmem := mem_allComposites_of_get hx hr hc
  cases hden with
  | self => exact List.mem_append_left _ (List.mem_map_of_mem hmem)
  | definition hr' _ _ ha hd =>
    have hd' := List.mem_of_find?_eq_some hd
    exact List.mem_append_left _ (List.mem_map.mpr
      ⟨_, List.mem_flatMap.mpr ⟨_, ha, List.mem_map_of_mem hd'⟩, rfl⟩)
  | placeholder hr' =>
    obtain rfl := Option.some_inj.mp (hr.symm.trans hr')
    exact List.mem_append_right _ (List.mem_map.mpr ⟨_, hmem, rfl⟩)

theorem noCollision_alikeUnits : NoCollision fnv alikeUnits where
  digests v w hv hw h := by
    have hall : ∀ v ∈ denotable alikeUnits, ∀ w ∈ denotable alikeUnits,
        ownDigest fnv v = ownDigest fnv w → signatureOf v = signatureOf w := by
      decide +kernel
    exact hall v hv.mem_denotable w hw.mem_denotable h
  rounds order hperm := by
    have horder : order = [linkedUnit 1 true, linkedUnit 2 false] ∨
        order = [linkedUnit 2 false, linkedUnit 1 true] := by
      have hmem := List.mem_permutations.mpr hperm
      simpa [alikeUnits, List.permutations, List.permutationsAux, List.permutationsAux.rec,
        List.permutationsAux2] using hmem
    unfold Refine.CollisionFree
    rcases horder with rfl | rfl
    · decide +kernel
    · decide +kernel

/-- A struct with a pointer to one that only the first unit defines. -/
theorem coarsestIdentity_alikeUnits : CoarsestIdentity fnv alikeUnits := by
  refine (coarsestIdentity_iff fnv alikeUnits noCollision_alikeUnits (by decide) ?_).mpr ?_
  · intro a ha
    simp only [alikeUnits, List.mem_cons, List.not_mem_nil, or_false] at ha
    rcases ha with rfl | rfl
    · exact linkedUnit_interned _ _
    · exact linkedUnit_interned _ _
  · rintro x y r r' ⟨hx, hr, hc, hcomplete⟩ ⟨hy, hr', hc', hcomplete'⟩ -
    have hall : ∀ z ∈ allComposites alikeUnits, z.2.2.composite.complete = true →
        z.2.2.composite.fieldOffsets.isSome = false ∧ z.2.2.composite.fieldAligns.isSome = true ∧
          z.2.2.composite.fieldPacked.isSome = false := by
      decide
    obtain ⟨ho, ha, hp⟩ := hall _ (mem_allComposites_of_get hx hr hc) hcomplete
    obtain ⟨ho', ha', hp'⟩ := hall _ (mem_allComposites_of_get hy hr' hc') hcomplete'
    exact ⟨ho.trans ho'.symm, ha.trans ha'.symm, hp.trans hp'.symm⟩

end DssPrime
