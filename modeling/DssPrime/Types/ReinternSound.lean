import DssPrime.Types.ReinternHost
import DssPrime.Types.CompositeOrder

/-!
# Interning all units in one host

The walk of `reinternType` keeps one invariant (`Settled`): nothing is in the host twice, every type
that is known has an image there, and every complete composite of the host is that of some unit. The
walk runs through cycles of composites, so a composite is known before it is complete; `DoneBut`
says which are still open.
-/

namespace DssPrime

variable {K : Type}

/-- A type of the host stands for a type of a unit: a composite for one of its kind, name and key,
another type for one of the same parts whose operands it has images of. -/
def ImageOf (key : TypeArena × ℕ → K) (h : Host K) (a : TypeArena) : ℕ → ℕ → ℕ → Prop
  | 0, _, _ => False
  | n + 1, id, i =>
    (id = 0 ∧ i = 0) ∨ ∃ r, a.get? id = some r ∧
      ((r.IsComposite ∧ ∃ t, h.get? i = some t ∧ t.declSiteKey = some (key (a, id)) ∧
          t.record.kind = r.kind ∧ t.record.name = anonNameWithoutDeclSite r.name) ∨
        (¬ r.IsComposite ∧ ∃ ops, h.get? i = some ⟨{ r with operands := ops }, none⟩ ∧
          List.Forall₂ (ImageOf key h a n) r.operands ops))

def Image (key : TypeArena × ℕ → K) (h : Host K) (a : TypeArena) (id i : ℕ) : Prop :=
  ImageOf key h a (id + 1) id i

section Images

variable {key : TypeArena × ℕ → K} {h h' : Host K} {a b : TypeArena}

theorem imageOf_fuel {n m id i : ℕ} (hn : id < n) (hm : id < m) :
    ImageOf key h a n id i ↔ ImageOf key h a m id i := by
  induction n generalizing m id i with
  | zero => omega
  | succ n ih =>
    obtain ⟨m, rfl⟩ := Nat.exists_eq_succ_of_ne_zero (Nat.ne_zero_of_lt hm)
    refine or_congr_right (exists_congr fun r => and_congr_right fun hr => or_congr_right ?_)
    refine and_congr_right fun hc => exists_congr fun ops => and_congr_right fun _ => ?_
    constructor
    · intro hall
      refine Refine.forall₂_imp_of_mem hall fun op hop op' _ himg => ?_
      have := TypeArena.operand_lt hr hc hop
      exact (ih (by omega) (by omega)).mp himg
    · intro hall
      refine Refine.forall₂_imp_of_mem hall fun op hop op' _ himg => ?_
      have := TypeArena.operand_lt hr hc hop
      exact (ih (by omega) (by omega)).mpr himg

theorem Image.fuel {n id i : ℕ} (himg : Image key h a id i) (hn : id < n) :
    ImageOf key h a n id i :=
  (imageOf_fuel (Nat.lt_succ_self id) hn).mp himg

theorem ImageOf.extends {n id i : ℕ} (hext : h.Extends h') (himg : ImageOf key h a n id i) :
    ImageOf key h' a n id i := by
  induction n generalizing id i with
  | zero => exact himg
  | succ n ih =>
    rcases himg with hzero | ⟨r, hr, ⟨hc, t, ht, hkey, hkind, hname⟩ | ⟨hc, ops, ht, hops⟩⟩
    · exact Or.inl hzero
    · obtain ⟨t', ht', hkey', hkind', hname', -⟩ := hext i t ht
      exact Or.inr ⟨r, hr, Or.inl ⟨hc, t', ht', hkey'.trans hkey, hkind'.trans hkind,
        hname'.trans hname⟩⟩
    · obtain ⟨t', ht', -, -, -, hsame⟩ := hext i _ ht
      rw [hsame (Or.inl rfl)] at ht'
      exact Or.inr ⟨r, hr, Or.inr ⟨hc, ops, ht', hops.imp fun _ _ himg => ih himg⟩⟩

theorem Image.extends {id i : ℕ} (hext : h.Extends h') (himg : Image key h a id i) :
    Image key h' a id i := ImageOf.extends hext himg

theorem Image.kindLike {id i : ℕ} (himg : Image key h a id i) : KindLike h.record? a id i := by
  rcases himg with ⟨rfl, rfl⟩ | ⟨r, hr, ⟨-, t, ht, -, hkind, -⟩ | ⟨-, ops, ht, -⟩⟩
  · exact ⟨Iff.rfl, rfl⟩
  · have h0 : id ≠ 0 := (TypeArena.get?_eq_some hr).1.ne'
    have h0' : i ≠ 0 := by
      rintro rfl
      cases ht
    refine ⟨by simp [h0, h0'], ?_⟩
    rw [hr, Host.record?, ht, Option.map_some, Option.map_some, Option.map_some, hkind]
  · have h0 : id ≠ 0 := (TypeArena.get?_eq_some hr).1.ne'
    have h0' : i ≠ 0 := by
      rintro rfl
      cases ht
    refine ⟨by simp [h0, h0'], ?_⟩
    rw [hr, Host.record?, ht]
    rfl

/-- What keys promise: composites of one key and kind have one name, and complete composites of one
key have one signature and references of one key each. -/
structure KeysSound (units : List TypeArena) (key : TypeArena × ℕ → K) : Prop where
  name : ∀ a ∈ units, ∀ b ∈ units, ∀ i j r r', a.get? i = some r → b.get? j = some r' →
    r.IsComposite → r'.IsComposite → key (a, i) = key (b, j) → r.kind = r'.kind →
    anonNameWithoutDeclSite r.name = anonNameWithoutDeclSite r'.name
  signature : ∀ a ∈ units, ∀ b ∈ units, ∀ i j r r', a.get? i = some r → b.get? j = some r' →
    r.IsComposite → r'.IsComposite → r.composite.complete = true → r'.composite.complete = true →
    key (a, i) = key (b, j) → (localSignature a r).1 = (localSignature b r').1 ∧
      List.Forall₂ (fun u v => key (a, u) = key (b, v)) (localSignature a r).2
        (localSignature b r').2

theorem results_eq {A B C : Type*} {T : A → B → Prop} {P : A → C → Prop} {Q : B → C → Prop}
    {xs : List A} {ys : List B} {zs ws : List C} (ht : List.Forall₂ T xs ys)
    (hp : List.Forall₂ P xs zs) (hq : List.Forall₂ Q ys ws)
    (hone : ∀ x y z w, T x y → P x z → Q y w → z = w) : zs = ws := by
  induction ht generalizing zs ws with
  | nil =>
    rw [List.forall₂_nil_left_iff] at hp hq
    rw [hp, hq]
  | cons hxy _ ih =>
    rw [List.forall₂_cons_left_iff] at hp hq
    obtain ⟨z, zs', hz, hzs, rfl⟩ := hp
    obtain ⟨w, ws', hw, hws, rfl⟩ := hq
    rw [hone _ _ z w hxy hz hw, ih hzs hws]

theorem ImageOf.unique {units : List TypeArena} (hkeys : KeysSound units key) (ha : a ∈ units)
    (hb : b ∈ units) (hd : h.Distinct) {n t t' i i' : ℕ}
    (htwin : Twin (fun u v => key (a, u) = key (b, v)) a b n t t')
    (himg : ImageOf key h a n t i) (himg' : ImageOf key h b n t' i') : i = i' := by
  induction n generalizing t t' i i' with
  | zero => exact absurd htwin id
  | succ n ih =>
    rcases htwin with ⟨rfl, rfl⟩ | ⟨r, r', hr, hr', hcase⟩
    · have hzero : ∀ {c : TypeArena} {j : ℕ}, ImageOf key h c (n + 1) 0 j → j = 0 := by
        rintro c j (⟨-, hj⟩ | ⟨s, hs, -⟩)
        · exact hj
        · cases hs
      rw [hzero himg, hzero himg']
    · have hnz : ∀ {c : TypeArena} {u : ℕ} {s : TypeRecord}, c.get? u = some s → u ≠ 0 :=
        fun hs => (TypeArena.get?_eq_some hs).1.ne'
      rcases himg with ⟨h0, -⟩ | ⟨s, hs, himg⟩
      · exact absurd h0 (hnz hr)
      rcases himg' with ⟨h0, -⟩ | ⟨s', hs', himg'⟩
      · exact absurd h0 (hnz hr')
      rw [hr, Option.some_inj] at hs
      rw [hr', Option.some_inj] at hs'
      subst hs hs'
      rcases hcase with ⟨hc, hc', hkind, hkey⟩ | ⟨hc, hc', hsame, htwins⟩
      · rcases himg with ⟨-, u, hu, hukey, hukind, huname⟩ | ⟨hn, -⟩
        · rcases himg' with ⟨-, u', hu', hukey', hukind', huname'⟩ | ⟨hn, -⟩
          · have hname := hkeys.name a ha b hb t t' r r' hr hr' hc hc' hkey hkind
            refine hd.key i i' u u' _ hu hu' hukey (hukey'.trans ?_) ?_ ?_
            · rw [hkey]
            · rw [hukind, hukind', hkind]
            · rw [huname, huname', hname]
          · exact absurd hc' hn
        · exact absurd hc hn
      · rcases himg with ⟨hp, -⟩ | ⟨-, ops, hget, hops⟩
        · exact absurd hp hc
        rcases himg' with ⟨hp, -⟩ | ⟨-, ops', hget', hops'⟩
        · exact absurd hp hc'
        -- the operands have one image each, so the images have one content
        have hopsEq : ops = ops' := results_eq htwins hops hops' fun _ _ _ _ => ih
        have hrec : ({ r with operands := ops } : TypeRecord) = { r' with operands := ops' } := by
          rw [hopsEq]
          have := congrArg (fun s : TypeRecord => { s with operands := ops' }) hsame
          exact this
        rw [hrec] at hget
        exact hd.content i i' _ hget hget'

end Images

section State

variable (units : List TypeArena) (key : TypeArena × ℕ → K)

def CompletedAs (h : Host K) (a : TypeArena) (id : ℕ) (r : TypeRecord) (t : HostType K) : Prop :=
  t.declSiteKey = some (key (a, id)) ∧ t.record.kind = r.kind ∧
    t.record.name = anonNameWithoutDeclSite r.name ∧ t.record.scalars = r.scalars ∧
    t.record.composite = r.composite ∧ List.Forall₂ (Image key h a) r.operands t.record.operands

/-- What holds between any two requests, and inside them: nothing is there twice, every type that
is known has an image, and every complete composite is that of some unit. -/
structure Settled (st : ReinternState K) : Prop where
  distinct : st.host.Distinct
  images : ∀ a ∈ units, ∀ id i, st.remap a.owner id = some i → Image key st.host a id i
  completed : ∀ i t, st.host.get? i = some t → t.declSiteKey.isSome →
    t.record.composite.complete = true → ∃ a ∈ units, ∃ id r, a.get? id = some r ∧
      r.IsComposite ∧ r.composite.complete = true ∧ CompletedAs key st.host a id r t

def DoneBut (P : ℕ → ℕ → Prop) (st : ReinternState K) : Prop :=
  ∀ a ∈ units, ∀ id r i, a.get? id = some r → r.IsComposite → r.composite.complete = true →
    st.remap a.owner id = some i → P a.owner id ∨
      ∃ t, st.host.get? i = some t ∧ CompletedAs key st.host a id r t

def ReinternState.Extends (st st' : ReinternState K) : Prop :=
  st.host.Extends st'.host ∧ ∀ o id i, st.remap o id = some i → st'.remap o id = some i

def ChannelsAgree : Prop :=
  ∀ a ∈ units, ∀ b ∈ units, ∀ i j r r', a.get? i = some r → b.get? j = some r' →
    r.IsComposite → r'.IsComposite → r.composite.complete = true → r'.composite.complete = true →
    key (a, i) = key (b, j) → SameChannels r r'

end State

section Steps

variable {units : List TypeArena} {key : TypeArena × ℕ → K} {h h' : Host K} {a : TypeArena}
  {st st' : ReinternState K}

theorem ReinternState.Extends.refl (st : ReinternState K) : st.Extends st :=
  ⟨.refl _, fun _ _ _ hi => hi⟩

theorem ReinternState.Extends.trans {st'' : ReinternState K} (h₁ : st.Extends st')
    (h₂ : st'.Extends st'') : st.Extends st'' :=
  ⟨h₁.1.trans h₂.1, fun o id i hi => h₂.2 o id i (h₁.2 o id i hi)⟩

theorem CompletedAs.extends {id : ℕ} {r : TypeRecord} {t : HostType K} (hext : h.Extends h')
    (hdone : CompletedAs key h a id r t) : CompletedAs key h' a id r t := by
  obtain ⟨hkey, hkind, hname, hsc, hdata, hops⟩ := hdone
  exact ⟨hkey, hkind, hname, hsc, hdata, hops.imp fun _ _ himg => himg.extends hext⟩

theorem Settled.grow (hst : Settled units key st) (hd : h.Distinct) (hext : st.host.Extends h)
    (hsame : st.host.SameComplete h) : Settled units key { st with host := h } where
  distinct := hd
  images := fun a ha id i hi => (hst.images a ha id i hi).extends hext
  completed := by
    intro i t ht hkey hcomplete
    obtain ⟨a, ha, id, r, hr, hc, hrc, hdone⟩ :=
      hst.completed i t (hsame i t ht hkey hcomplete) hkey hcomplete
    exact ⟨a, ha, id, r, hr, hc, hrc, hdone.extends hext⟩

theorem eq_of_owner (hnodup : (units.map TypeArena.owner).Nodup) {a b : TypeArena} (ha : a ∈ units)
    (hb : b ∈ units) (h : a.owner = b.owner) : a = b :=
  List.inj_on_of_nodup_map hnodup ha hb h

theorem Settled.emplace (hst : Settled units key st) (hnodup : (units.map TypeArena.owner).Nodup)
    (ha : a ∈ units) {id i : ℕ} (himg : Image key st.host a id i) :
    Settled units key (st.emplace a.owner id i) where
  distinct := hst.distinct
  images := by
    intro b hb j i' hi
    simp only [ReinternState.emplace] at hi
    split at hi
    · next heq =>
      obtain rfl := Option.some.inj hi
      obtain rfl := eq_of_owner hnodup hb ha heq.1
      rw [heq.2.1]
      exact himg
    · exact hst.images b hb j i' hi
  completed := hst.completed

theorem ReinternState.extends_grow (hext : st.host.Extends h) : st.Extends { st with host := h } :=
  ⟨hext, fun _ _ _ hi => hi⟩

theorem ReinternState.extends_emplace (st : ReinternState K) (o id i : ℕ) :
    st.Extends (st.emplace o id i) := by
  refine ⟨.refl _, fun o' id' i' hi => ?_⟩
  have hne : ¬ (o' = o ∧ id' = id ∧ st.remap o' id' = none) := by
    rintro ⟨-, -, hnone⟩
    rw [hnone] at hi
    cases hi
  simp only [ReinternState.emplace, if_neg hne]
  exact hi

theorem ReinternState.emplace_known (st : ReinternState K) (o id i : ℕ) :
    ((st.emplace o id i).remap o id).isSome := by
  cases hi : st.remap o id with
  | none => simp [ReinternState.emplace, hi]
  | some i' => simp [ReinternState.emplace, hi]

theorem DoneBut.grow {P : ℕ → ℕ → Prop} (hdone : DoneBut units key P st)
    (hext : st.host.Extends h) : DoneBut units key P { st with host := h } := by
  intro b hb id r i hr hc hcomplete hi
  refine (hdone b hb id r i hr hc hcomplete hi).imp_right ?_
  rintro ⟨t, ht, hcompleted⟩
  obtain ⟨t', ht', -, -, -, hsame⟩ := hext i t ht
  rw [hsame (Or.inr (by rw [hcompleted.2.2.2.2.1, hcomplete]))] at ht'
  exact ⟨t, ht', hcompleted.extends hext⟩

theorem DoneBut.emplace {P : ℕ → ℕ → Prop} (hdone : DoneBut units key P st) (o id i : ℕ) :
    DoneBut units key (fun o' id' => P o' id' ∨ o' = o ∧ id' = id) (st.emplace o id i) := by
  intro b hb j r i' hr hc hcomplete hi
  by_cases heq : b.owner = o ∧ j = id
  · exact Or.inl (Or.inr heq)
  · have hne : ¬ (b.owner = o ∧ j = id ∧ st.remap b.owner j = none) := fun h => heq ⟨h.1, h.2.1⟩
    simp only [ReinternState.emplace, if_neg hne] at hi
    exact (hdone b hb j r i' hr hc hcomplete hi).imp_left Or.inl

theorem DoneBut.drop {P : ℕ → ℕ → Prop} (hnodup : (units.map TypeArena.owner).Nodup)
    (ha : a ∈ units) {id : ℕ} {r : TypeRecord} (hr : a.get? id = some r)
    (hdone : DoneBut units key (fun o' id' => P o' id' ∨ o' = a.owner ∧ id' = id) st)
    (hnow : r.IsComposite → r.composite.complete = true → ∀ i, st.remap a.owner id = some i →
      ∃ t, st.host.get? i = some t ∧ CompletedAs key st.host a id r t) :
    DoneBut units key P st := by
  intro b hb j s i hs hc hcomplete hi
  rcases hdone b hb j s i hs hc hcomplete hi with (hP | ⟨ho, rfl⟩) | hcompleted
  · exact Or.inl hP
  · obtain rfl := eq_of_owner hnodup hb ha ho
    rw [hr, Option.some_inj] at hs
    subst hs
    exact Or.inr (hnow hc hcomplete i hi)
  · exact Or.inr hcompleted

theorem TypeArena.Built.completed {r : TypeRecord} (hbuilt : a.Built r) (hc : r.IsComposite)
    (hcomplete : r.composite.complete = true) {fields : List ℕ}
    (hlen : fields.length = r.operands.length) (s : TypeRecord) :
    (shapeOf r fields).Admissible ∧ s.completed (shapeOf r fields) =
      { s with operands := fields, scalars := r.scalars, composite := r.composite } := by
  rw [TypeArena.Built, if_pos hc] at hbuilt
  obtain ⟨hadm, hfix⟩ := hbuilt hcomplete
  refine ⟨?_, ?_⟩
  · simp only [CompositeShape.Admissible, shapeOf, hlen] at hadm ⊢
    exact hadm
  · have hsc := congrArg TypeRecord.scalars hfix
    have hdata := congrArg TypeRecord.composite hfix
    simp only [TypeRecord.completed, shapeOf] at hsc hdata ⊢
    rw [hlen, hsc, hdata]

theorem completed_alike (hkeys : KeysSound units key) (hint : ∀ a ∈ units, a.Interned)
    (hagree : ChannelsAgree units key) (hd : h.Distinct) (ha : a ∈ units) {id : ℕ} {r : TypeRecord}
    (hr : a.get? id = some r) (hc : r.IsComposite) (hcomplete : r.composite.complete = true)
    {fields : List ℕ} (hfields : List.Forall₂ (Image key h a) r.operands fields)
    {b : TypeArena} (hb : b ∈ units) {j : ℕ} {s : TypeRecord} (hs : b.get? j = some s)
    (hsc : s.IsComposite) (hscomplete : s.composite.complete = true) {t : HostType K}
    (hdone : CompletedAs key h b j s t) (hkey : key (b, j) = key (a, id)) :
    t.record.operands = fields ∧ t.record.scalars = r.scalars ∧
      t.record.composite = r.composite := by
  have hchan := hagree b hb a ha j id s r hs hr hsc hc hscomplete hcomplete hkey
  obtain ⟨hsig, hrefs⟩ :=
    hkeys.signature b hb a ha j id s r hs hr hsc hc hscomplete hcomplete hkey
  obtain ⟨hscalars, hdata, htwins⟩ := composite_of_signature (hint b hb) (hint a ha)
    (TypeArena.mem_types hs) (TypeArena.mem_types hr) hsc hc hscomplete hcomplete hchan hsig
  obtain ⟨-, -, -, hts, htd, hops⟩ := hdone
  refine ⟨?_, hts.trans hscalars, htd.trans hdata⟩
  have hlift : ∀ {c : TypeArena} {ops hs : List ℕ}, (∀ op ∈ ops, op ≤ c.types.length) →
      c.types.length < b.types.length + a.types.length + 1 →
      List.Forall₂ (Image key h c) ops hs →
      List.Forall₂ (ImageOf key h c (b.types.length + a.types.length + 1)) ops hs := by
    intro c ops hs hin hlt hall
    refine Refine.forall₂_imp_of_mem hall fun op hop op' _ himg => himg.fuel ?_
    have := hin op hop
    omega
  refine results_eq (htwins _ hrefs)
    (hlift (fun op hop => TypeArena.operand_le hs hop) (by omega) hops)
    (hlift (fun op hop => TypeArena.operand_le hr hop) (by omega) hfields) ?_
  intro x y z w htwin hz hw
  exact ImageOf.unique hkeys hb ha hd htwin hz hw

end Steps

section Walk

variable [DecidableEq K] {units : List TypeArena} {key : TypeArena × ℕ → K} {a : TypeArena}
  {st st' : ReinternState K}

def ReinternState.unmapped (st : ReinternState K) (a : TypeArena) : ℕ :=
  ((Finset.range (a.types.length + 1)).filter fun id => st.remap a.owner id = none).card

omit [DecidableEq K] in
theorem ReinternState.Extends.unmapped_le (hext : st.Extends st') (a : TypeArena) :
    st'.unmapped a ≤ st.unmapped a := by
  refine Finset.card_le_card fun id hid => ?_
  rw [Finset.mem_filter] at hid ⊢
  refine ⟨hid.1, ?_⟩
  cases hi : st.remap a.owner id with
  | none => rfl
  | some i =>
    rw [hext.2 _ _ _ hi] at hid
    cases hid.2

omit [DecidableEq K] in
theorem ReinternState.unmapped_emplace_lt {id i : ℕ} (hid : id ≤ a.types.length)
    (hnew : st.remap a.owner id = none) : (st.emplace a.owner id i).unmapped a < st.unmapped a := by
  refine Finset.card_lt_card ⟨fun j hj => ?_, fun hsub => ?_⟩
  · rw [Finset.mem_filter] at hj ⊢
    refine ⟨hj.1, ?_⟩
    by_cases heq : j = id
    · rw [heq, hnew]
    · have := hj.2
      simpa [ReinternState.emplace, heq] using this
  · have hmem : id ∈ (Finset.range (a.types.length + 1)).filter fun id =>
        st.remap a.owner id = none := by
      rw [Finset.mem_filter, Finset.mem_range]
      exact ⟨by omega, hnew⟩
    have := (Finset.mem_filter.mp (hsub hmem)).2
    have hknown := st.emplace_known a.owner id i
    rw [this] at hknown
    cases hknown

def Conflict (units : List TypeArena) (key : TypeArena × ℕ → K) (e : ReinternFatal) : Prop :=
  e = .conflictingFields ∧ ¬ ChannelsAgree units key

def Walked (units : List TypeArena) (key : TypeArena × ℕ → K) (a : TypeArena)
    (st : ReinternState K) (id : ℕ) (out : ℕ × ReinternState K) : Prop :=
  Settled units key out.2 ∧ st.Extends out.2 ∧ Image key out.2.host a id out.1 ∧
    (id ≠ 0 → (out.2.remap a.owner id).isSome) ∧
    ∀ P, DoneBut units key P st → DoneBut units key P out.2

omit [DecidableEq K] in
theorem reinternList_spec
    {f : ℕ → ReinternState K → Except ReinternFatal (ℕ × ReinternState K)} {ids : List ℕ}
    (hf : ∀ id ∈ ids, ∀ st', Settled units key st' → st.Extends st' →
      Holds (Conflict units key) (Walked units key a st' id) (f id st'))
    (hst : Settled units key st) :
    Holds (Conflict units key) (fun out => Settled units key out.2 ∧ st.Extends out.2 ∧
      List.Forall₂ (Image key out.2.host a) ids out.1 ∧
      ∀ P, DoneBut units key P st → DoneBut units key P out.2) (reinternList f ids st) := by
  induction ids generalizing st with
  | nil => exact holds_ok ⟨hst, .refl st, .nil, fun _ hdone => hdone⟩
  | cons id ids ih =>
    rw [reinternList]
    refine (hf id List.mem_cons_self st hst (.refl st)).bind ?_
    rintro ⟨i, st₁⟩ ⟨hst₁, hext₁, himg, -, hdone₁⟩
    have hrest : ∀ j ∈ ids, ∀ st', Settled units key st' → st₁.Extends st' →
        Holds (Conflict units key) (Walked units key a st' j) (f j st') :=
          fun j hj st' hst' hext' =>
      hf j (List.mem_cons_of_mem _ hj) st' hst' (hext₁.trans hext')
    refine (ih hrest hst₁).bind ?_
    rintro ⟨is, st₂⟩ ⟨hst₂, hext₂, himgs, hdone₂⟩
    exact holds_ok ⟨hst₂, hext₁.trans hext₂, .cons (himg.extends hext₂.1) himgs,
      fun P hP => hdone₂ P (hdone₁ P hP)⟩

omit [DecidableEq K] in
theorem Walked.emplace (hnodup : (units.map TypeArena.owner).Nodup) (ha : a ∈ units) {id i : ℕ}
    {r : TypeRecord} (hr : a.get? id = some r) (hc : ¬ r.IsComposite) {ops : List ℕ}
    (hst : Settled units key st') (hext : st.Extends st')
    (hdone : ∀ P, DoneBut units key P st → DoneBut units key P st') {h : Host K}
    (hd : h.Distinct) (hgrow : st'.host.Extends h) (hsame : st'.host.SameComplete h)
    (hget : h.get? i = some ⟨{ r with operands := ops }, none⟩)
    (hops : List.Forall₂ (Image key st'.host a) r.operands ops) :
    Walked units key a st id
      (i, ({ st' with host := h } : ReinternState K).emplace a.owner id i) := by
  have himg : Image key h a id i := by
    refine Or.inr ⟨r, hr, Or.inr ⟨hc, ops, hget, ?_⟩⟩
    refine Refine.forall₂_imp_of_mem hops fun op hop op' _ himg => ?_
    exact (himg.extends hgrow).fuel (TypeArena.operand_lt hr hc hop)
  refine ⟨(hst.grow hd hgrow hsame).emplace hnodup ha himg, ?_, himg, ?_, fun P hP => ?_⟩
  · exact (hext.trans (ReinternState.extends_grow hgrow)).trans
      (ReinternState.extends_emplace _ _ _ _)
  · exact fun _ => ReinternState.emplace_known _ _ _ _
  · exact (((hdone P hP).grow hgrow).emplace a.owner id i).drop hnodup ha hr
      fun hcomp => absurd hcomp hc

omit [DecidableEq K] in
theorem completeComposite_spec (hkeys : KeysSound units key) (hint : ∀ a ∈ units, a.Interned)
    (ha : a ∈ units) {id fwd : ℕ} {r : TypeRecord} (hr : a.get? id = some r) (hc : r.IsComposite)
    (hcomplete : r.composite.complete = true) {fields : List ℕ} (hst : Settled units key st)
    (hfields : List.Forall₂ (Image key st.host a) r.operands fields) {t : HostType K}
    (ht : st.host.get? fwd = some t) (hkey : t.declSiteKey = some (key (a, id)))
    (hkind : t.record.kind = r.kind) (hname : t.record.name = anonNameWithoutDeclSite r.name) :
    Holds (Conflict units key) (fun h => Settled units key { st with host := h } ∧
      st.host.Extends h ∧ ∃ t, h.get? fwd = some t ∧ CompletedAs key h a id r t)
      (st.host.completeComposite fwd (shapeOf r fields)) := by
  have hcomp : t.record.IsComposite := by rwa [TypeRecord.IsComposite, hkind]
  obtain ⟨hadm, hmade⟩ := (hint a ha r (TypeArena.mem_types hr)).1.completed hc hcomplete
    hfields.length_eq.symm t.record
  by_cases hdone : t.record.composite.complete = true
  · rw [Host.completeComposite_of_complete ht hcomp hkey hadm hdone, hmade]
    by_cases hsame : t.record =
        { t.record with operands := fields, scalars := r.scalars, composite := r.composite }
    · rw [if_pos hsame]
      have hsca := congrArg TypeRecord.scalars hsame
      have hdata := congrArg TypeRecord.composite hsame
      have hops := congrArg TypeRecord.operands hsame
      refine holds_ok ⟨hst, .refl _, t, ht, hkey, hkind, hname, hsca, hdata, ?_⟩
      rw [hops]
      exact hfields
    · rw [if_neg hsame]
      refine holds_error ⟨rfl, fun hagree => hsame ?_⟩
      -- the composite that completed it has the same key, so it completed it alike
      obtain ⟨b, hb, j, s, hs, hsc, hscomplete, hby⟩ :=
        hst.completed fwd t ht (by rw [hkey]; rfl) hdone
      have hkeys' : key (b, j) = key (a, id) := by
        have := hby.1
        rw [hkey, Option.some_inj] at this
        exact this.symm
      obtain ⟨hops, hsca, hdata⟩ :=
        completed_alike hkeys hint hagree hst.distinct ha hr hc hcomplete
        hfields hb hs hsc hscomplete hby hkeys'
      rw [← hops, ← hsca, ← hdata]
  · obtain ⟨h, hok, hd, hext, hget, hother⟩ :=
      Host.completeComposite_of_incomplete ht hcomp hkey hadm
      hst.distinct (Bool.eq_false_iff.mpr hdone)
    rw [hok]
    rw [hmade] at hget
    have hcompleted : CompletedAs key h a id r
        ⟨{ t.record with operands := fields, scalars := r.scalars, composite := r.composite },
          some (key (a, id))⟩ :=
      ⟨rfl, hkind, hname, rfl, rfl, hfields.imp fun _ _ himg => himg.extends hext⟩
    refine holds_ok ⟨⟨hd, fun b hb j i hi => (hst.images b hb j i hi).extends hext, ?_⟩, hext,
      _, hget,
      hcompleted⟩
    intro i u hu hukey hucomplete
    by_cases hi : i = fwd
    · subst hi
      rw [hget, Option.some_inj] at hu
      subst hu
      exact ⟨a, ha, id, r, hr, hc, hcomplete, hcompleted⟩
    · rw [hother i hi] at hu
      obtain ⟨b, hb, j, s, hs, hsc, hscomplete, hby⟩ := hst.completed i u hu hukey hucomplete
      exact ⟨b, hb, j, s, hs, hsc, hscomplete, hby.extends hext⟩

theorem qualified_spec (hint : a.Interned) {id : ℕ} {r : TypeRecord} (hr : a.get? id = some r)
    (hv : r.kind = .volatileQual) {h : Host K} (hd : h.Distinct) {inner : ℕ}
    (himg : Image key h a (r.operands.headD 0) inner) :
    ∃ i h', h.qualified inner r.qualifierBits r.alignOverride = .ok (i, h') ∧ h'.Distinct ∧
      h.Extends h' ∧ h.SameComplete h' ∧
      h'.get? i = some ⟨{ r with operands := [inner] }, none⟩ ∧
      r.operands = [r.operands.headD 0] := by
  have hbuilt := (hint r (TypeArena.mem_types hr)).1
  have hc : ¬ r.IsComposite := by simp [TypeRecord.IsComposite, hv]
  rw [TypeArena.Built, if_neg hc, if_pos hv] at hbuilt
  obtain ⟨base, b, hops, hb, hbk, hsome, hparts⟩ := hbuilt
  rw [hops, List.headD_cons] at himg
  obtain ⟨hzero, hkinds⟩ := himg.kindLike
  have h0 : inner ≠ 0 := fun h => (TypeArena.get?_eq_some hb).1.ne' (hzero.mpr h)
  rw [hb, Option.map_some] at hkinds
  obtain ⟨d, hrec, hdk⟩ := Option.map_eq_some_iff.mp hkinds.symm
  have hnq : d.kind ≠ .volatileQual := hdk ▸ hbk
  have hmat : materialId h.record? inner inner = inner := by
    obtain ⟨n, rfl⟩ := Nat.exists_eq_succ_of_ne_zero h0
    rw [materialId, hrec]
    dsimp only
    rw [if_neg hnq]
  have halign : (if r.alignOverride ≠ 0 then r.alignOverride else 0) = r.alignOverride := by
    split
    · rfl
    · next h => exact (not_not.mp h).symm
  obtain ⟨i, h', hok, hd', hext, hsame, hget⟩ := Host.internContent_spec hd
    (r := contentRecord .volatileQual 0 [inner] (r.qualifierBits.toUInt64 ::
      if r.alignOverride = 0 then [] else [r.alignOverride.toUInt64]) []) (by simp [contentRecord])
  refine ⟨i, h', ?_, hd', hext, hsame, ?_, by rw [hops, List.headD_cons]⟩
  · rw [Host.qualified, if_neg h0]
    simp only [hrec, Option.getD_some, if_neg hnq, UInt8.zero_or, halign, hmat]
    rw [if_neg hsome, hok]
  · rw [hget, with_operands hparts.symm [inner]]

section Main

variable (hkeys : KeysSound units key) (hint : ∀ a ∈ units, a.Interned)
  (hnodup : (units.map TypeArena.owner).Nodup)
include hkeys hint hnodup

theorem reinternWalk_spec (ha : a ∈ units) (fuel : ℕ) {id : ℕ} (hid : id ≤ a.types.length)
    (hst : Settled units key st) (hfuel : st.unmapped a * (a.types.length + 1) + id < fuel) :
    Holds (Conflict units key) (Walked units key a st id) (reinternWalk key a fuel id st) := by
  induction fuel generalizing id st with
  | zero => omega
  | succ fuel ih =>
    rw [reinternWalk]
    cases hr : a.get? id with
    | none =>
      have h0 := TypeArena.eq_zero_of_get? hid hr
      exact holds_ok ⟨hst, .refl st, Or.inl ⟨h0, rfl⟩, fun hne => absurd h0 hne, fun _ hP => hP⟩
    | some r =>
      cases hmap : st.remap a.owner id with
      | some i =>
        exact holds_ok ⟨hst, .refl st, hst.images a ha id i hmap, fun _ => by rw [hmap]; rfl,
          fun _ hP => hP⟩
      | none =>
        have hpos := (TypeArena.get?_eq_some hr).1
        -- the operands of a type that is no composite have lower numbers
        have hops : ¬ r.IsComposite → ∀ op ∈ r.operands, ∀ st', Settled units key st' →
            st.Extends st' →
            Holds (Conflict units key) (Walked units key a st' op)
              (reinternWalk key a fuel op st') := by
          intro hc op hop st' hst' hext
          have hlt := TypeArena.operand_lt hr hc hop
          have hle := Nat.mul_le_mul_right (a.types.length + 1) (hext.unmapped_le a)
          exact ih (TypeArena.operand_le hr hop) hst' (by omega)
        dsimp only
        by_cases hc : r.IsComposite
        · rw [if_pos hc]
          obtain ⟨hd, hext, hsame, t, ht, hkey, hkind, hname⟩ := Host.forwardComposite_spec
            hst.distinct r.kind (anonNameWithoutDeclSite r.name) (key (a, id))
          generalize st.host.forwardComposite r.kind (anonNameWithoutDeclSite r.name)
            (key (a, id)) =
            fwd at hd hext hsame ht ⊢
          obtain ⟨fwd, host⟩ := fwd
          have himg : Image key host a id fwd :=
            Or.inr ⟨r, hr, Or.inl ⟨hc, t, ht, hkey, hkind, hname⟩⟩
          have hst₁ := (hst.grow hd hext hsame).emplace hnodup ha himg
          have hext₁ :
            st.Extends (({ st with host := host } : ReinternState K).emplace a.owner id fwd) :=
            (ReinternState.extends_grow hext).trans (ReinternState.extends_emplace _ _ _ _)
          have hdone₁ : ∀ P, DoneBut units key P st → DoneBut units key
              (fun o' id' => P o' id' ∨ o' = a.owner ∧ id' = id)
              (({ st with host := host } : ReinternState K).emplace a.owner id fwd) :=
            fun P hP => (hP.grow hext).emplace a.owner id fwd
          dsimp only
          by_cases hcomplete : r.composite.complete = true
          · rw [if_neg (by simp [hcomplete])]
            generalize hst₁' :
              (({ st with host := host } : ReinternState K).emplace a.owner id fwd) = st₁
              at hst₁ hext₁ hdone₁ ⊢
            have hhost : st₁.host = host := by rw [← hst₁']; rfl
            have hknown : st₁.remap a.owner id = some fwd := by
              rw [← hst₁']
              simp [ReinternState.emplace, hmap]
            have hless : st₁.unmapped a < st.unmapped a := by
              rw [← hst₁']
              exact ReinternState.unmapped_emplace_lt hid hmap
            -- one more type is known, which pays for fields with higher numbers
            have hfields : ∀ f ∈ r.operands, ∀ st', Settled units key st' → st₁.Extends st' →
                Holds (Conflict units key) (Walked units key a st' f)
                  (reinternWalk key a fuel f st') := by
              intro f hf st' hst' hext'
              have hle := hext'.unmapped_le a
              have hmul := Nat.mul_le_mul_right (a.types.length + 1)
                (show st'.unmapped a + 1 ≤ st.unmapped a by omega)
              rw [Nat.succ_mul] at hmul
              have hfle := TypeArena.operand_le hr hf
              exact ih hfle hst' (by omega)
            refine (reinternList_spec hfields hst₁).bind ?_
            rintro ⟨fields, st₂⟩ ⟨hst₂, hext₂, himgs, hdone₂⟩
            rw [← hhost] at ht himg
            obtain ⟨t₂, ht₂, hkey₂, hkind₂, hname₂, -⟩ := hext₂.1 fwd t ht
            refine (completeComposite_spec hkeys hint ha hr hc hcomplete hst₂ himgs ht₂
              (hkey₂.trans hkey) (hkind₂.trans hkind) (hname₂.trans hname)).bind ?_
            rintro h ⟨hst₃, hext₃, t₃, ht₃, hcompleted⟩
            have hknown₂ : st₂.remap a.owner id = some fwd := hext₂.2 _ _ _ hknown
            refine holds_ok ⟨hst₃, hext₁.trans (hext₂.trans (ReinternState.extends_grow hext₃)),
              himg.extends (hext₂.1.trans hext₃), fun _ => ?_, fun P hP => ?_⟩
            · show (st₂.remap a.owner id).isSome
              rw [hknown₂]
              rfl
            · refine ((hdone₂ _ (hdone₁ P hP)).grow hext₃).drop hnodup ha hr fun _ _ i hi => ?_
              have hi' : st₂.remap a.owner id = some i := hi
              rw [hknown₂, Option.some_inj] at hi'
              exact ⟨t₃, hi' ▸ ht₃, hcompleted⟩
          · rw [if_pos (Bool.eq_false_iff.mpr hcomplete)]
            refine holds_ok ⟨hst₁, hext₁, himg, fun _ => ReinternState.emplace_known _ _ _ _, ?_⟩
            intro P hP
            exact (hdone₁ P hP).drop hnodup ha hr fun _ hyes => absurd hyes hcomplete
        · rw [if_neg hc]
          by_cases hv : r.kind = .volatileQual
          · rw [if_pos hv]
            have hmem : r.operands.headD 0 ∈ r.operands := by
              have hbuilt := (hint a ha r (TypeArena.mem_types hr)).1
              rw [TypeArena.Built, if_neg hc, if_pos hv] at hbuilt
              obtain ⟨base, -, hbase, -⟩ := hbuilt
              rw [hbase]
              exact List.mem_cons_self
            refine (hops hc _ hmem st hst (.refl st)).bind ?_
            rintro ⟨inner, st₁⟩ ⟨hst₁, hext₁, himg, -, hdone₁⟩
            obtain ⟨i, h, hok, hd, hext, hsame, hget, hone⟩ :=
              qualified_spec (hint a ha) hr hv hst₁.distinct himg
            dsimp only
            rw [hok]
            refine holds_ok (Walked.emplace hnodup ha hr hc hst₁ hext₁ hdone₁ hd hext hsame hget ?_)
            rw [hone]
            exact .cons himg .nil
          · rw [if_neg hv]
            refine (reinternList_spec (hops hc) hst).bind ?_
            rintro ⟨ops, st₁⟩ ⟨hst₁, hext₁, himgs, hdone₁⟩
            have hbuilt := (hint a ha r (TypeArena.mem_types hr)).1
            rw [TypeArena.Built, if_neg hc, if_neg hv] at hbuilt
            have hmade := rebuilt_of_kindLike hbuilt.1 (himgs.imp fun _ _ himg => himg.kindLike)
            obtain ⟨i, h, hok, hd, hext, hsame, hget⟩ := Host.internContent_spec hst₁.distinct
              (r := { r with operands := ops }) hbuilt.2
            dsimp only at hmade ⊢
            rw [hmade]
            show Holds _ _ (st₁.host.internContent { r with operands := ops } >>= _)
            rw [hok]
            exact holds_ok
              (Walked.emplace hnodup ha hr hc hst₁ hext₁ hdone₁ hd hext hsame hget himgs)

theorem reinternType_spec {x : TypeArena × ℕ} (hx : x.1 ∈ units) (hid : x.2 ≤ x.1.types.length)
    (hst : Settled units key st) :
    Holds (Conflict units key) (Walked units key x.1 st x.2) (reinternType key x st) := by
  refine reinternWalk_spec hkeys hint hnodup hx _ hid hst ?_
  have hcard : st.unmapped x.1 ≤ x.1.types.length + 1 :=
    (Finset.card_filter_le _ _).trans (by rw [Finset.card_range])
  have hmul := Nat.mul_le_mul_right (x.1.types.length + 1) hcard
  have hsq : (x.1.types.length + 1) * (x.1.types.length + 2) =
      (x.1.types.length + 1) * (x.1.types.length + 1) + (x.1.types.length + 1) := by ring
  omega

theorem reinternAll_spec {requests : List (TypeArena × ℕ)}
    (hreq : ∀ x ∈ requests, x.1 ∈ units ∧ x.2 ≤ x.1.types.length) :
    Holds (Conflict units key) (fun st => Settled units key st ∧
      DoneBut units key (fun _ _ => False) st ∧
      ∀ x ∈ requests, x.2 ≠ 0 → (st.remap x.1.owner x.2).isSome) (reinternAll key requests) := by
  refine Holds.foldlM (I := fun (done : List (TypeArena × ℕ)) st => Settled units key st ∧
    DoneBut units key (fun _ _ => False) st ∧
    ∀ x ∈ done, x.2 ≠ 0 → (st.remap x.1.owner x.2).isSome) ⟨?_, ?_, by simp⟩ ?_
  · have hempty : ∀ i t, (⟨[]⟩ : Host K).get? i ≠ some t := by simp [Host.get?]
    refine ⟨⟨fun i j r hi => absurd hi (hempty i _),
      fun i j t t' k hi => absurd hi (hempty i t)⟩, ?_,
      fun i t hi => absurd hi (hempty i t)⟩
    intro a _ id i hi
    cases hi
  · intro a _ id r i _ _ _ hi
    cases hi
  · rintro done x rest st hsplit ⟨hst, hdone, hknown⟩
    obtain ⟨hx, hid⟩ := hreq x (by rw [hsplit]; simp)
    refine (reinternType_spec hkeys hint hnodup hx hid hst).bind ?_
    rintro ⟨i, st'⟩ ⟨hst', hext, -, hself, hdone'⟩
    refine holds_ok ⟨hst', hdone' _ hdone, fun y hy h0 => ?_⟩
    rcases List.mem_append.mp hy with hy | hy
    · obtain ⟨j, hj⟩ := Option.isSome_iff_exists.mp (hknown y hy h0)
      rw [hext.2 _ _ _ hj]
      rfl
    · rw [List.mem_singleton.mp hy] at h0 ⊢
      exact hself h0

end Main

/-- However types of the units are requested, the host takes them all, and every complete composite
among them is there with its own widths and data and the images of its own fields. -/
def ReinternsFaithfully (units : List TypeArena) (key : TypeArena × ℕ → K) : Prop :=
  ∀ requests : List (TypeArena × ℕ), (∀ x ∈ requests, x.1 ∈ units ∧ x.2 ≤ x.1.types.length) →
    ∃ st, reinternAll key requests = .ok st ∧
      ∀ x ∈ requests, ∀ r, x.1.get? x.2 = some r → r.IsComposite → r.composite.complete = true →
        ∃ i t, st.remap x.1.owner x.2 = some i ∧ st.host.get? i = some t ∧
          CompletedAs key st.host x.1 x.2 r t

theorem reinternsFaithfully_iff (hkeys : KeysSound units key) (hint : ∀ a ∈ units, a.Interned)
    (hnodup : (units.map TypeArena.owner).Nodup) :
    ReinternsFaithfully units key ↔ ChannelsAgree units key := by
  constructor
  · intro hall a ha b hb i j r r' hr hr' hc hc' hcomplete hcomplete' hkey
    have hle : ∀ {c : TypeArena} {n : ℕ} {s : TypeRecord}, c.get? n = some s →
        n ≤ c.types.length := by
      intro c n s hs
      obtain ⟨hpos, hget⟩ := TypeArena.get?_eq_some hs
      have := (List.getElem?_eq_some_iff.mp hget).1
      omega
    have hreq : ∀ x ∈ [(a, i), (b, j)], x.1 ∈ units ∧ x.2 ≤ x.1.types.length := by
      simp [ha, hb, hle hr, hle hr']
    obtain ⟨st, hok, hdone⟩ := hall [(a, i), (b, j)] hreq
    have hst := ((reinternAll_spec hkeys hint hnodup hreq).of_ok hok).1
    obtain ⟨u, t, -, ht, htkey, htkind, htname, -, htdata, -⟩ :=
      hdone (a, i) (by simp) r hr hc hcomplete
    obtain ⟨v, t', -, ht', htkey', htkind', htname', -, htdata', -⟩ :=
      hdone (b, j) (by simp) r' hr' hc' hcomplete'
    -- one key, one kind and one name are one composite of the host
    obtain ⟨hsig, -⟩ := hkeys.signature a ha b hb i j r r' hr hr' hc hc' hcomplete hcomplete' hkey
    have hkind : r.kind = r'.kind := kindWord_inj (List.cons.inj hsig).1
    have hname := hkeys.name a ha b hb i j r r' hr hr' hc hc' hkey hkind
    have huv : u = v := by
      refine hst.distinct.key u v t t' (key (a, i)) ht ht' htkey (htkey'.trans ?_) ?_ ?_
      · rw [hkey]
      · rw [htkind, htkind', hkind]
      · rw [htname, htname', hname]
    subst huv
    rw [ht, Option.some_inj] at ht'
    subst ht'
    rw [htdata] at htdata'
    unfold SameChannels
    rw [htdata']
    exact ⟨rfl, rfl, rfl⟩
  · intro hagree requests hreq
    obtain ⟨st, hok, -, hdone, hknown⟩ := (reinternAll_spec hkeys hint hnodup hreq).exists_ok
      fun e he => he.2 hagree
    refine ⟨st, hok, fun x hx r hr hc hcomplete => ?_⟩
    obtain ⟨i, hi⟩ := Option.isSome_iff_exists.mp
      (hknown x hx (TypeArena.get?_eq_some hr).1.ne')
    rcases hdone x.1 (hreq x hx).1 x.2 r i hr hc hcomplete hi with hfalse | ⟨t, ht, hcompleted⟩
    · exact absurd hfalse id
    · exact ⟨i, t, hi, ht, hcompleted⟩

end Walk

end DssPrime
