import DssPrime.Graph.ThreeColour
import DssPrime.Types.ReinternHost
import Mathlib

/-!
# Types as they are represented

The model of `representationType` (`type_lattice.cpp`), which replaces every `nullptr_t` in a type
by `void *`, through qualifiers, pointers, arrays and signatures. A first pass looks whether there
is any, a second one rebuilds the type from below and interns while it walks.
-/

namespace DssPrime

open ThreeColour (Phase)

variable {K : Type}

namespace Host

def material (h : Host K) (id : ℕ) : Option TypeRecord := h.record? (materialId h.record? id id)

def qualifierBits (h : Host K) (id : ℕ) : UInt8 :=
  match h.record? id with
  | none => 0
  | some r => if r.kind = .volatileQual then r.qualifierBits else 0

def representationOperands (r : TypeRecord) : List ℕ :=
  match r.kind with
  | .ptr | .array => r.operands.head?.toList
  | .fnSig => r.operands
  | _ => []

def representationChildren (h : Host K) (t : ℕ) : List ℕ :=
  if t = 0 then []
  else if h.qualifierBits t ≠ 0 then [materialId h.record? t t]
  else
    match h.material t with
    | none => []
    | some r => representationOperands r

def projectMaterial [DecidableEq K] (h : Host K) (childOf : ℕ → ℕ) (id : ℕ) (r : TypeRecord) :
    Except ReinternFatal (ℕ × Host K) :=
  match r.kind with
  | .nullptrT => do
    let (void, h) ← h.internContent (contentRecord .void 0 [] [] [])
    h.internContent (contentRecord .ptr 0 [void] [] [])
  | .ptr =>
    match r.operands with
    | [] => .ok (id, h)
    | elem :: _ =>
      if childOf elem = elem then .ok (id, h)
      else h.internContent (contentRecord .ptr 0 [childOf elem] [] [])
  | .array =>
    match r.operands, r.scalars with
    | elem :: _, len :: _ =>
      if childOf elem = elem then .ok (id, h)
      else h.internContent (contentRecord .array 0 [childOf elem] [len] [])
    | _, _ => .ok (id, h)
  | .fnSig =>
    match r.scalars with
    | [] => .ok (id, h)
    | cc :: _ =>
      if r.operands.map childOf = r.operands then .ok (id, h)
      else h.internContent (contentRecord .fnSig 0 (r.operands.map childOf)
        (if r.isVariadic then [cc, 1] else [cc]) [])
  | _ => .ok (id, h)

def projectRepresentationLevel [DecidableEq K] (h : Host K) (projected : ℕ → Option ℕ) (id : ℕ) :
    Except ReinternFatal (ℕ × Host K) :=
  let childOf := fun c => (projected c).getD c
  if id = 0 then .ok (id, h)
  else if h.qualifierBits id ≠ 0 then
    let material := materialId h.record? id id
    if childOf material = material then .ok (id, h)
    else h.qualified (childOf material) (h.qualifierBits id) 0
  else
    match h.material id with
    | none => .ok (id, h)
    | some r => h.projectMaterial childOf id r

/-- The first pass: whether a `nullptr_t` is met.  The current type is on top of the pending ones,
and what was seen is only kept once a signature has branched. -/
def scan (h : Host K) : ℕ → List ℕ → Finset ℕ → Bool → Option Bool
  | _, [], _, _ => some false
  | 0, _ :: _, _, _ => none
  | fuel + 1, cur :: pending, seen, branched =>
    if cur = 0 then some false
    else if branched = true ∧ cur ∈ seen then scan h fuel pending seen branched
    else
      let seen := if branched then insert cur seen else seen
      if (h.material cur).map (·.kind) = some .nullptrT then some true
      else
        match h.representationChildren cur with
        | [] => scan h fuel pending seen branched
        | c :: cs => scan h fuel (c :: (cs.reverse ++ pending)) seen (branched || decide (cs ≠ []))

/-- The state of the projection. -/
structure Rebuild (K : Type) where
  host : Host K
  projected : ℕ → Option ℕ
  gray : Finset ℕ
  work : List (ℕ × Phase)

def emplaceProjected (projected : ℕ → Option ℕ) (id p : ℕ) : ℕ → Option ℕ :=
  if (projected id).isSome then projected else Function.update projected id (some p)

def Rebuild.step [DecidableEq K] (s : Rebuild K) : Except ReinternFatal (Rebuild K) :=
  match s.work with
  | [] => .ok s
  | (id, .expand) :: rest =>
    if (s.projected id).isSome then .ok { s with work := rest }
    else if id ∈ s.gray then
      .ok { s with projected := emplaceProjected s.projected id id, work := rest }
    else
      .ok { s with
        gray := insert id s.gray
        work := ((s.host.representationChildren id).map fun c => (c, Phase.expand)).reverse ++
          (id, .resolve) :: rest }
  | (id, .resolve) :: rest => do
    let (p, host) ← s.host.projectRepresentationLevel s.projected id
    .ok ⟨host, emplaceProjected s.projected id p, s.gray.erase id, rest⟩

def rebuild [DecidableEq K] : ℕ → Rebuild K → Except ReinternFatal (Rebuild K)
  | 0, s => if s.work.isEmpty then .ok s else .error .outOfFuel
  | fuel + 1, s =>
    if s.work.isEmpty then .ok s
    else do
      let s ← s.step
      rebuild fuel s

def representationType [DecidableEq K] (h : Host K) (fuel id : ℕ) :
    Except ReinternFatal (ℕ × Host K) :=
  if id = 0 then .ok (id, h)
  else
    match h.scan fuel [id] ∅ false with
    | none => .error .outOfFuel
    | some false => .ok (id, h)
    | some true => do
      let s ← rebuild fuel ⟨h, fun _ => none, ∅, [(id, .expand)]⟩
      .ok ((s.projected id).getD id, s.host)

def Composer (k : TypeKind) : Prop :=
  k = .volatileQual ∨ k = .ptr ∨ k = .array ∨ k = .fnSig

instance (k : TypeKind) : Decidable (Composer k) := by
  unfold Composer
  infer_instance

/-- The type is made of `nullptr_t`. -/
inductive NullBelow (h : Host K) : ℕ → Prop
  | leaf {u : ℕ} {r : TypeRecord} (hr : h.record? u = some r) (hk : r.kind = .nullptrT) :
    NullBelow h u
  | step {u v : ℕ} {r : TypeRecord} (hr : h.record? u = some r) (hk : Composer r.kind)
    (hv : v ∈ r.operands) (hn : NullBelow h v) : NullBelow h u

/-- So is something in it that states an alignment. -/
inductive AlignedOverNull (h : Host K) : ℕ → Prop
  | here {u : ℕ} {r : TypeRecord} (hr : h.record? u = some r) (hk : r.kind = .volatileQual)
    (ha : r.alignOverride ≠ 0) (hn : NullBelow h u) : AlignedOverNull h u
  | step {u v : ℕ} {r : TypeRecord} (hr : h.record? u = some r) (hk : Composer r.kind)
    (hv : v ∈ r.operands) (hn : AlignedOverNull h v) : AlignedOverNull h u

/-- The second type is the first with its nulls projected. -/
inductive Represents (h : Host K) : ℕ → ℕ → Prop
  | null {u u' v : ℕ} {r : TypeRecord} (hr : h.record? u = some r) (hk : r.kind = .nullptrT)
    (hr' : h.record? u' = some (contentRecord .ptr 0 [v] [] []))
    (hv : h.record? v = some (contentRecord .void 0 [] [] [])) : Represents h u u'
  | same {u : ℕ} {r : TypeRecord} (hr : h.record? u = some r) (hk : r.kind ≠ .nullptrT)
    (hc : ¬ Composer r.kind) : Represents h u u
  | compose {u u' : ℕ} {r : TypeRecord} {ops : List ℕ} (hr : h.record? u = some r)
    (hc : Composer r.kind) (hlen : ops.length = r.operands.length)
    (hops : ∀ i v v' : ℕ, r.operands[i]? = some v → ops[i]? = some v' → Represents h v v')
    (hr' : h.record? u' = some { r with operands := ops }) : Represents h u u'

/-- A type that the projection goes through is as its builder left it, over types that are there. -/
structure Shaped (h : Host K) (r : TypeRecord) : Prop where
  operands : Composer r.kind → ∀ op ∈ r.operands, (h.record? op).isSome
  qualified : r.kind = .volatileQual →
    ∃ base b, r = contentRecord .volatileQual 0 [base] (r.qualifierBits.toUInt64 ::
        if r.alignOverride = 0 then [] else [r.alignOverride.toUInt64]) [] ∧
      h.record? base = some b ∧ b.kind ≠ .volatileQual ∧
      ¬ (r.qualifierBits = 0 ∧ r.alignOverride = 0)
  pointer : r.kind = .ptr → ∃ op, r = contentRecord .ptr 0 [op] [] []
  array : r.kind = .array → ∃ op n, r = contentRecord .array 0 [op] [n] []
  signature : r.kind = .fnSig → ∃ ops cc, ops ≠ [] ∧
    r = contentRecord .fnSig 0 ops (if r.isVariadic then [cc, 1] else [cc]) []

/-- What the host keeps. -/
structure Formed (h : Host K) : Prop where
  distinct : h.Distinct
  content : ∀ id t, h.get? id = some t → ¬ t.record.IsComposite → t.declSiteKey = none
  below : ∀ id r, h.record? id = some r → Composer r.kind → ∀ op ∈ r.operands, op < id
  shaped : ∀ id r, h.record? id = some r → h.Shaped r

/-- What the projection of a type is for: it ends; it is the type itself if there is no `nullptr_t`
in it, and only then; it differs only as it should; and from then on the projection of it is itself,
and of the type the same, whatever else is interned. -/
def ProjectsNullOnly [DecidableEq K] (h : Host K) (id : ℕ) : Prop :=
  ∃ n p h', (∀ m ≥ n, h.representationType m id = .ok (p, h')) ∧ (p = id ↔ ¬ NullBelow h id) ∧
    Represents h' id p ∧
    ∀ later, h'.Extends later → Formed later → ∃ n', ∀ m ≥ n',
      later.representationType m p = .ok (p, later) ∧
      ∃ after, later.representationType m id = .ok (p, after)

section Growing

variable {h h' h'' : Host K} {u v id : ℕ} {r : TypeRecord}

theorem record?_eq_some : h.record? id = some r ↔ ∃ k, h.get? id = some ⟨r, k⟩ := by
  rw [record?, Option.map_eq_some_iff]
  constructor
  · rintro ⟨t, ht, rfl⟩
    exact ⟨_, ht⟩
  · rintro ⟨k, hk⟩
    exact ⟨_, hk, rfl⟩

theorem not_isComposite (hk : r.kind = .nullptrT ∨ r.kind = .void ∨ Composer r.kind) :
    ¬ r.IsComposite := by
  rcases hk with hk | hk | hk | hk | hk | hk <;> simp [TypeRecord.IsComposite, hk]

theorem Extends.isSome (hg : h.Extends h') (hid : (h.record? id).isSome) :
    (h'.record? id).isSome := by
  obtain ⟨r, hr⟩ := Option.isSome_iff_exists.1 hid
  obtain ⟨k, hk⟩ := record?_eq_some.1 hr
  obtain ⟨t, ht, -⟩ := hg id _ hk
  rw [record?, ht]
  rfl

theorem Extends.record? (hf : h.Formed) (hg : h.Extends h') (hc : ¬ r.IsComposite)
    (hr : h.record? id = some r) : h'.record? id = some r := by
  obtain ⟨k, hk⟩ := record?_eq_some.1 hr
  obtain ⟨t, ht, -, -, -, hsame⟩ := hg id _ hk
  rw [Host.record?, ht, hsame (.inl (hf.content id _ hk hc))]
  rfl

theorem Extends.kind_eq (hg : h.Extends h') (hr : h.record? id = some r) {r' : TypeRecord}
    (hr' : h'.record? id = some r') : r'.kind = r.kind := by
  obtain ⟨k, hk⟩ := record?_eq_some.1 hr
  obtain ⟨t, ht, -, hkind, -⟩ := hg id _ hk
  rw [Host.record?, ht] at hr'
  rw [← Option.some.inj hr', hkind]

theorem Extends.record_eq (hf : h.Formed) (hg : h.Extends h') (hc : ¬ r.IsComposite)
    (hid : (h.record? id).isSome) (hr : h'.record? id = some r) : h.record? id = some r := by
  obtain ⟨r₀, hr₀⟩ := Option.isSome_iff_exists.1 hid
  have hkind := hg.kind_eq hr₀ hr
  have hc₀ : ¬ r₀.IsComposite := by
    unfold TypeRecord.IsComposite at hc ⊢
    rwa [← hkind]
  rw [hr₀, ← hg.record? hf hc₀ hr₀, hr]

theorem Shaped.grows (hs : h.Shaped r) (hg : h.Extends h') : h'.Shaped r := by
  refine ⟨fun hk op hop => hg.isSome (hs.operands hk op hop), fun hk => ?_, hs.pointer, hs.array,
    hs.signature⟩
  obtain ⟨base, b, hr, hb, hbk, hne⟩ := hs.qualified hk
  obtain ⟨b', hb'⟩ := Option.isSome_iff_exists.1 (hg.isSome (Option.isSome_iff_exists.2 ⟨b, hb⟩))
  exact ⟨base, b', hr, hb', by rwa [hg.kind_eq hb hb'], hne⟩

theorem NullBelow.grows (hf : h.Formed) (hg : h.Extends h') (hn : NullBelow h u) :
    NullBelow h' u := by
  induction hn with
  | leaf hr hk => exact .leaf (hg.record? hf (not_isComposite (.inl hk)) hr) hk
  | step hr hk hv _ ih => exact .step (hg.record? hf (not_isComposite (.inr (.inr hk))) hr) hk hv ih

theorem NullBelow.of_grows (hf : h.Formed) (hg : h.Extends h') (hu : (h.record? u).isSome)
    (hn : NullBelow h' u) : NullBelow h u := by
  induction hn with
  | leaf hr hk => exact .leaf (hg.record_eq hf (not_isComposite (.inl hk)) hu hr) hk
  | step hr hk hv _ ih =>
    have hr' := hg.record_eq hf (not_isComposite (.inr (.inr hk))) hu hr
    exact .step hr' hk hv (ih ((hf.shaped _ _ hr').operands hk _ hv))

theorem AlignedOverNull.of_grows (hf : h.Formed) (hg : h.Extends h') (hu : (h.record? u).isSome)
    (hn : AlignedOverNull h' u) : AlignedOverNull h u := by
  induction hn with
  | here hr hk ha hn =>
    have hr' := hg.record_eq hf (not_isComposite (.inr (.inr (.inl hk)))) hu hr
    exact .here hr' hk ha (hn.of_grows hf hg hu)
  | step hr hk hv _ ih =>
    have hr' := hg.record_eq hf (not_isComposite (.inr (.inr hk))) hu hr
    exact .step hr' hk hv (ih ((hf.shaped _ _ hr').operands hk _ hv))

theorem AlignedOverNull.grows (hf : h.Formed) (hg : h.Extends h') (hn : AlignedOverNull h u) :
    AlignedOverNull h' u := by
  induction hn with
  | here hr hk ha hn =>
    exact .here (hg.record? hf (not_isComposite (.inr (.inr (.inl hk)))) hr) hk ha (hn.grows hf hg)
  | step hr hk hv _ ih => exact .step (hg.record? hf (not_isComposite (.inr (.inr hk))) hr) hk hv ih

theorem shaped_of_plain (hk : ¬ Composer r.kind) : h.Shaped r :=
  ⟨fun hc => absurd hc hk, fun hc => absurd (.inl hc) hk, fun hc => absurd (.inr (.inl hc)) hk,
    fun hc => absurd (.inr (.inr (.inl hc))) hk, fun hc => absurd (.inr (.inr (.inr hc))) hk⟩

theorem Formed.snoc (hf : h.Formed) {t : HostType K}
    (hd : (⟨h.types ++ [t]⟩ : Host K).Distinct)
    (hkey : ¬ t.record.IsComposite → t.declSiteKey = none) (hs : h.Shaped t.record) :
    (⟨h.types ++ [t]⟩ : Host K).Formed := by
  have hlast : ∀ id r, (⟨h.types ++ [t]⟩ : Host K).record? id = some r →
      id = h.types.length + 1 ∧ r = t.record ∨ h.record? id = some r := by
    intro id r hr
    obtain ⟨k, hget⟩ := record?_eq_some.1 hr
    rw [get?_snoc] at hget
    split_ifs at hget with heq
    · exact .inl ⟨heq, (congrArg HostType.record (Option.some.inj hget)).symm⟩
    · exact .inr (record?_eq_some.2 ⟨k, hget⟩)
  refine ⟨hd, fun id s hget hc => ?_, fun id r hr hk op hop => ?_, fun id r hr => ?_⟩
  · rw [get?_snoc] at hget
    split_ifs at hget
    · rw [← Option.some.inj hget] at hc ⊢
      exact hkey hc
    · exact hf.content id s hget hc
  · rcases hlast id r hr with ⟨rfl, rfl⟩ | hr
    · -- the operands of the new type were there before
      obtain ⟨s, hs'⟩ := Option.isSome_iff_exists.1 (hs.operands hk op hop)
      obtain ⟨k, hget⟩ := record?_eq_some.1 hs'
      unfold Host.get? at hget
      split_ifs at hget
      have := (List.getElem?_eq_some_iff.1 hget).1
      omega
    · exact hf.below id r hr hk op hop
  · rcases hlast id r hr with ⟨rfl, rfl⟩ | hr
    · exact hs.grows (extends_snoc h t)
    · exact (hf.shaped id r hr).grows (extends_snoc h t)

theorem Formed.intern [DecidableEq K] (hf : h.Formed)
    (hext : r.kind = .extension ↔ r.extensionKind ≠ 0) (hs : h.Shaped r) :
    ∃ i h', h.internContent r = .ok (i, h') ∧ h.Extends h' ∧ h'.Formed ∧
      h'.record? i = some r := by
  obtain ⟨i, h', hi, hd, hg, -, hget⟩ := internContent_spec hf.distinct hext
  refine ⟨i, h', hi, hg, ?_, record?_eq_some.2 ⟨none, hget⟩⟩
  rw [internContent, if_neg (not_not.2 (decide_eq_decide.2 hext))] at hi
  cases hfind : h.types.findIdx? fun t => decide (t = ⟨r, none⟩) with
  | some j =>
    simp only [hfind] at hi
    rwa [← (Prod.mk.inj (Except.ok.inj hi)).2]
  | none =>
    simp only [hfind] at hi
    obtain rfl := (Prod.mk.inj (Except.ok.inj hi)).2
    exact hf.snoc hd (fun _ => rfl) hs

theorem Formed.of_internContent [DecidableEq K] (hf : h.Formed) (hs : h.Shaped r) {i : ℕ}
    (hi : h.internContent r = .ok (i, h')) : h'.Formed := by
  have hext : r.kind = .extension ↔ r.extensionKind ≠ 0 := by
    by_contra hne
    rw [internContent, if_pos (mt decide_eq_decide.1 hne)] at hi
    cases hi
  obtain ⟨i', h'', hi', -, hf', -⟩ := hf.intern hext hs
  rw [hi] at hi'
  obtain ⟨-, rfl⟩ := Prod.mk.inj (Except.ok.inj hi')
  exact hf'

end Growing

/-- The projection as the second pass makes it: a qualifier keeps its bits and loses its alignment,
and one without bits is left out. -/
inductive Answer (h : Host K) : ℕ → ℕ → Prop
  | same {u : ℕ} {r : TypeRecord} (hr : h.record? u = some r) (hn : ¬ NullBelow h u) : Answer h u u
  | null {u u' v : ℕ} {r : TypeRecord} (hr : h.record? u = some r) (hk : r.kind = .nullptrT)
    (hr' : h.record? u' = some (contentRecord .ptr 0 [v] [] []))
    (hv : h.record? v = some (contentRecord .void 0 [] [] [])) : Answer h u u'
  | skin {u u' base base' : ℕ} {r : TypeRecord} (hr : h.record? u = some r)
    (hk : r.kind = .volatileQual) (hbits : r.qualifierBits ≠ 0) (hops : r.operands = [base])
    (hn : NullBelow h base) (hb : Answer h base base')
    (hr' : h.record? u' =
      some (contentRecord .volatileQual 0 [base'] [r.qualifierBits.toUInt64] [])) : Answer h u u'
  | bare {u u' base : ℕ} {r : TypeRecord} (hr : h.record? u = some r) (hk : r.kind = .volatileQual)
    (hbits : r.qualifierBits = 0) (hops : r.operands = [base]) (hn : NullBelow h base)
    (hb : Answer h base u') : Answer h u u'
  | compose {u u' : ℕ} {r : TypeRecord} {ops : List ℕ} (hr : h.record? u = some r)
    (hc : Composer r.kind) (hk : r.kind ≠ .volatileQual) (hn : NullBelow h u)
    (hlen : ops.length = r.operands.length)
    (hops : ∀ i v v' : ℕ, r.operands[i]? = some v → ops[i]? = some v' → Answer h v v')
    (hr' : h.record? u' = some { r with operands := ops }) : Answer h u u'

section Answers

variable {h h' : Host K} {u u' v id : ℕ} {r : TypeRecord}

theorem NullBelow.cases_record (hn : NullBelow h u) (hr : h.record? u = some r) :
    r.kind = .nullptrT ∨ Composer r.kind ∧ ∃ v ∈ r.operands, NullBelow h v := by
  cases hn with
  | leaf hr' hk =>
    rw [hr] at hr'
    obtain rfl := Option.some.inj hr'
    exact .inl hk
  | step hr' hk hv hn =>
    rw [hr] at hr'
    obtain rfl := Option.some.inj hr'
    exact .inr ⟨hk, _, hv, hn⟩

theorem not_composer_null {k : TypeKind} (h : k = .nullptrT) : ¬ Composer k := by
  subst h
  decide

theorem Answer.nullBelow_or (ha : Answer h u u') : NullBelow h u ∨ u' = u ∧ ¬ NullBelow h u := by
  cases ha with
  | same hr hn => exact .inr ⟨rfl, hn⟩
  | null hr hk => exact .inl (.leaf hr hk)
  | skin hr hk _ hops hn => exact .inl (.step hr (.inl hk) (by simp [hops]) hn)
  | bare hr hk _ hops hn => exact .inl (.step hr (.inl hk) (by simp [hops]) hn)
  | compose _ _ _ hn => exact .inl hn

theorem Answer.grows (hf : h.Formed) (hg : h.Extends h') (ha : Answer h u u') :
    Answer h' u u' := by
  induction ha with
  | same hr hn =>
    have hu := Option.isSome_iff_exists.2 ⟨_, hr⟩
    obtain ⟨r', hr'⟩ := Option.isSome_iff_exists.1 (hg.isSome hu)
    exact .same hr' fun hn' => hn (hn'.of_grows hf hg hu)
  | null hr hk hr' hv =>
    exact .null (hg.record? hf (not_isComposite (.inl hk)) hr) hk
      (hg.record? hf (not_isComposite (.inr (.inr (.inr (.inl rfl))))) hr')
      (hg.record? hf (not_isComposite (.inr (.inl rfl))) hv)
  | skin hr hk hbits hops hn _ hr' ih =>
    exact .skin (hg.record? hf (not_isComposite (.inr (.inr (.inl hk)))) hr) hk hbits hops
      (hn.grows hf hg) ih (hg.record? hf (not_isComposite (.inr (.inr (.inl rfl)))) hr')
  | bare hr hk hbits hops hn _ ih =>
    exact .bare (hg.record? hf (not_isComposite (.inr (.inr (.inl hk)))) hr) hk hbits hops
      (hn.grows hf hg) ih
  | compose hr hc hk hn hlen _ hr' ih =>
    exact .compose (hg.record? hf (not_isComposite (.inr (.inr hc))) hr) hc hk (hn.grows hf hg) hlen
      ih (hg.record? hf (not_isComposite (.inr (.inr hc))) hr')

theorem Answer.record (ha : Answer h u u') : (h.record? u').isSome := by
  induction ha with
  | same hr => simp [hr]
  | null _ _ hr' => simp [hr']
  | skin _ _ _ _ _ _ hr' => simp [hr']
  | bare _ _ _ _ _ _ ih => exact ih
  | compose _ _ _ _ _ _ hr' => simp [hr']

theorem Answer.not_skin (hr : h.record? u = some r) (hk : r.kind ≠ .volatileQual)
    (ha : Answer h u u') {r' : TypeRecord} (hr' : h.record? u' = some r') :
    r'.kind ≠ .volatileQual := by
  cases ha with
  | same hr₂ hn =>
    rw [hr] at hr'
    rwa [← Option.some.inj hr']
  | null _ _ hptr =>
    rw [hptr] at hr'
    rw [← Option.some.inj hr']
    simp [contentRecord]
  | skin hr₂ hk₂ =>
    rw [hr] at hr₂
    rw [← Option.some.inj hr₂] at hk₂
    exact absurd hk₂ hk
  | bare hr₂ hk₂ =>
    rw [hr] at hr₂
    rw [← Option.some.inj hr₂] at hk₂
    exact absurd hk₂ hk
  | compose hr₂ _ hk₂ _ _ _ hr₃ =>
    rw [hr₃] at hr'
    rw [← Option.some.inj hr']
    exact hk₂

theorem Answer.not_nullBelow (ha : Answer h u u') : ¬ NullBelow h u' := by
  induction ha with
  | same _ hn => exact hn
  | null _ _ hr' hv =>
    intro hn
    rcases hn.cases_record hr' with hk | ⟨-, w, hw, hnw⟩
    · cases hk
    · obtain rfl := List.mem_singleton.1 hw
      rcases hnw.cases_record hv with hk | ⟨hk, -⟩
      · cases hk
      · exact absurd hk (by decide)
  | skin _ _ _ _ _ _ hr' ih =>
    intro hn
    rcases hn.cases_record hr' with hk | ⟨-, w, hw, hnw⟩
    · cases hk
    · obtain rfl := List.mem_singleton.1 hw
      exact ih hnw
  | bare _ _ _ _ _ _ ih => exact ih
  | compose _ hc _ _ hlen _ hr' ih =>
    intro hn
    rcases hn.cases_record hr' with hk | ⟨-, w, hw, hnw⟩
    · exact not_composer_null hk hc
    · obtain ⟨i, hi, rfl⟩ := List.getElem_of_mem hw
      have hi' := hlen ▸ hi
      exact ih i _ _ (List.getElem?_eq_getElem hi') (List.getElem?_eq_getElem hi) hnw

theorem Answer.eq_iff (ha : Answer h u u') : u' = u ↔ ¬ NullBelow h u := by
  refine ⟨fun heq => ?_, fun hn => ?_⟩
  · have := ha.not_nullBelow
    rwa [heq] at this
  · rcases ha.nullBelow_or with hn' | ⟨heq, -⟩
    · exact absurd hn' hn
    · exact heq

theorem Answer.unique (hf : h.Formed) {u'' : ℕ} (ha : Answer h u u') (ha' : Answer h u u'') :
    u' = u'' := by
  have hcontent : ∀ i j r, ¬ TypeRecord.IsComposite r → h.record? i = some r →
      h.record? j = some r → i = j := by
    intro i j r hc hi hj
    obtain ⟨k, hk⟩ := record?_eq_some.1 hi
    obtain ⟨k', hk'⟩ := record?_eq_some.1 hj
    obtain rfl : k = none := hf.content _ _ hk hc
    obtain rfl : k' = none := hf.content _ _ hk' hc
    exact hf.distinct.content i j r hk hk'
  induction ha generalizing u'' with
  | same hr hn =>
    rcases ha'.nullBelow_or with hn' | ⟨heq, -⟩
    · exact absurd hn' hn
    · exact heq.symm
  | @null u u₁ v r hr hk hr' hv =>
    cases ha' with
    | same hr₂ hn => exact absurd (.leaf hr hk) hn
    | null hr₂ hk₂ hr₂' hv₂ =>
      obtain rfl := hcontent _ _ _ (by decide) hv hv₂
      exact hcontent _ _ _ (by simp [TypeRecord.IsComposite, contentRecord]) hr' hr₂'
    | skin hr₂ hk₂ =>
      rw [hr] at hr₂
      rw [← Option.some.inj hr₂, hk] at hk₂
      cases hk₂
    | bare hr₂ hk₂ =>
      rw [hr] at hr₂
      rw [← Option.some.inj hr₂, hk] at hk₂
      cases hk₂
    | compose hr₂ hc₂ =>
      rw [hr] at hr₂
      rw [← Option.some.inj hr₂] at hc₂
      exact absurd hc₂ (not_composer_null hk)
  | @skin u u₁ base base' r hr hk hbits hops hn hb hr' ih =>
    cases ha' with
    | same hr₂ hn₂ => exact absurd (.step hr (.inl hk) (by simp [hops]) hn) hn₂
    | null hr₂ hk₂ =>
      rw [hr] at hr₂
      rw [← Option.some.inj hr₂, hk] at hk₂
      cases hk₂
    | skin hr₂ hk₂ hbits₂ hops₂ hn₂ hb₂ hr₂' =>
      rw [hr] at hr₂
      obtain rfl := Option.some.inj hr₂
      rw [hops] at hops₂
      obtain rfl := (List.cons.inj hops₂).1
      rw [← ih hb₂] at hr₂'
      exact hcontent _ _ _ (by simp [TypeRecord.IsComposite, contentRecord]) hr' hr₂'
    | bare hr₂ hk₂ hbits₂ =>
      rw [hr] at hr₂
      rw [← Option.some.inj hr₂] at hbits₂
      exact absurd hbits₂ hbits
    | compose hr₂ _ hk₂ =>
      rw [hr] at hr₂
      rw [← Option.some.inj hr₂] at hk₂
      exact absurd hk hk₂
  | @bare u u₁ base r hr hk hbits hops hn hb ih =>
    cases ha' with
    | same hr₂ hn₂ => exact absurd (.step hr (.inl hk) (by simp [hops]) hn) hn₂
    | null hr₂ hk₂ =>
      rw [hr] at hr₂
      rw [← Option.some.inj hr₂, hk] at hk₂
      cases hk₂
    | skin hr₂ hk₂ hbits₂ =>
      rw [hr] at hr₂
      rw [← Option.some.inj hr₂] at hbits₂
      exact absurd hbits hbits₂
    | bare hr₂ hk₂ hbits₂ hops₂ hn₂ hb₂ =>
      rw [hr] at hr₂
      obtain rfl := Option.some.inj hr₂
      rw [hops] at hops₂
      obtain rfl := (List.cons.inj hops₂).1
      exact ih hb₂
    | compose hr₂ _ hk₂ =>
      rw [hr] at hr₂
      rw [← Option.some.inj hr₂] at hk₂
      exact absurd hk hk₂
  | @compose u u₁ r ops hr hc hk hn hlen hops hr' ih =>
    cases ha' with
    | same hr₂ hn₂ => exact absurd hn hn₂
    | null hr₂ hk₂ =>
      rw [hr] at hr₂
      rw [← Option.some.inj hr₂] at hk₂
      exact absurd hc (not_composer_null hk₂)
    | skin hr₂ hk₂ =>
      rw [hr] at hr₂
      rw [← Option.some.inj hr₂] at hk₂
      exact absurd hk₂ hk
    | bare hr₂ hk₂ =>
      rw [hr] at hr₂
      rw [← Option.some.inj hr₂] at hk₂
      exact absurd hk₂ hk
    | @compose _ _ _ ops₂ hr₂ _ _ _ hlen₂ hops₂ hr₂' =>
      rw [hr] at hr₂
      obtain rfl := Option.some.inj hr₂
      have heq : ops = ops₂ := by
        refine List.ext_getElem (hlen.trans hlen₂.symm) fun i hi hi₂ => ?_
        have hi₀ : i < r.operands.length := hlen ▸ hi
        have hget := List.getElem?_eq_getElem hi₀
        exact ih i _ _ hget (List.getElem?_eq_getElem hi)
          (hops₂ i _ _ hget (List.getElem?_eq_getElem hi₂))
      subst heq
      refine hcontent _ _ _ ?_ hr' hr₂'
      rcases hc with hc | hc | hc | hc <;> simp [TypeRecord.IsComposite, hc]

theorem Answer.represents (hf : h.Formed) (ha : Answer h u u') (hal : ¬ AlignedOverNull h u) :
    Represents h u u' := by
  have hsame : ∀ u r, h.record? u = some r → ¬ NullBelow h u → Represents h u u := by
    intro u
    induction u using Nat.strong_induction_on with
    | _ u ih =>
      intro r hr hn
      by_cases hc : Composer r.kind
      · refine .compose hr hc rfl (fun i v v' hv hv' => ?_) hr
        obtain rfl := Option.some.inj (hv.symm.trans hv')
        have hmem := List.mem_of_getElem? hv
        obtain ⟨s, hs⟩ := Option.isSome_iff_exists.1 ((hf.shaped u r hr).operands hc v hmem)
        exact ih v (hf.below u r hr hc v hmem) s hs fun hnv => hn (.step hr hc hmem hnv)
      · exact .same hr (fun hk => hn (.leaf hr hk)) hc
  induction ha with
  | same hr hn => exact hsame _ _ hr hn
  | null hr hk hr' hv => exact .null hr hk hr' hv
  | @skin u u₁ base base' r hr hk hbits hops hn hb hr' ih =>
    have hu : NullBelow h u := .step hr (.inl hk) (by simp [hops]) hn
    have halign : r.alignOverride = 0 := by
      by_contra hne
      exact hal (.here hr hk hne hu)
    obtain ⟨base₂, b, hshape, -⟩ := (hf.shaped u r hr).qualified hk
    rw [if_pos halign] at hshape
    have hbase := ih fun hal' => hal (.step hr (.inl hk) (by simp [hops]) hal')
    have hlen : [base'].length = r.operands.length := by simp [hops]
    refine .compose hr (.inl hk) hlen (fun i v v' hv hv' => ?_) ?_
    · rw [hops] at hv
      cases i with
      | zero =>
        obtain rfl := Option.some.inj hv
        obtain rfl := Option.some.inj hv'
        exact hbase
      | succ i => simp at hv
    · rw [hr', hshape]
      simp [contentRecord]
  | @bare u u₁ base r hr hk hbits hops hn hb ih =>
    have hu : NullBelow h u := .step hr (.inl hk) (by simp [hops]) hn
    obtain ⟨-, -, -, -, -, hne⟩ := (hf.shaped u r hr).qualified hk
    exact absurd (.here hr hk (fun ha => hne ⟨hbits, ha⟩) hu) hal
  | @compose u u₁ r ops hr hc hk hn hlen hops hr' ih =>
    refine .compose hr hc hlen (fun i v v' hv hv' => ih i v v' hv hv' fun hal' => hal ?_) hr'
    exact .step hr hc (List.mem_of_getElem? hv) hal'

theorem AlignedOverNull.nullBelow (hal : AlignedOverNull h u) : NullBelow h u := by
  induction hal with
  | here _ _ _ hn => exact hn
  | step hr hk hv _ ih => exact .step hr hk hv ih

theorem Answer.bare_not_skin (hf : h.Formed) {base : ℕ} (hr : h.record? u = some r)
    (hk : r.kind = .volatileQual) (hops : r.operands = [base]) (ha : Answer h base u')
    {r' : TypeRecord} (hr' : h.record? u' = some r') : r'.kind ≠ .volatileQual := by
  obtain ⟨base₂, b, hshape, hb, hbk, -⟩ := (hf.shaped u r hr).qualified hk
  obtain rfl : base₂ = base := by
    have := congrArg TypeRecord.operands hshape
    rw [hops] at this
    exact (List.cons.inj this).1.symm
  exact ha.not_skin hb hbk hr'

theorem Answer.not_aligned (hf : h.Formed) (ha : Answer h u u') (hrep : Represents h u u') :
    ¬ AlignedOverNull h u := by
  intro hal
  induction hal generalizing u' with
  | @here u r hr hk halign hn =>
    cases hrep with
    | null hr₂ hk₂ =>
      rw [hr] at hr₂
      rw [← Option.some.inj hr₂, hk] at hk₂
      cases hk₂
    | same hr₂ _ hc =>
      rw [hr] at hr₂
      rw [← Option.some.inj hr₂] at hc
      exact hc (.inl hk)
    | @compose _ _ _ ops hr₂ _ _ _ hr₂' =>
      rw [hr] at hr₂
      obtain rfl := Option.some.inj hr₂
      cases ha with
      | same _ hn₂ => exact hn₂ hn
      | null hr₃ hk₃ =>
        rw [hr] at hr₃
        rw [← Option.some.inj hr₃, hk] at hk₃
        cases hk₃
      | skin hr₃ _ _ _ _ _ hr₃' =>
        rw [hr₂'] at hr₃'
        have := congrArg TypeRecord.alignOverride (Option.some.inj hr₃')
        exact halign (by simpa [contentRecord] using this)
      | bare hr₃ hk₃ _ hops₃ _ hb₃ =>
        rw [hr] at hr₃
        obtain rfl := Option.some.inj hr₃
        exact Answer.bare_not_skin hf hr hk hops₃ hb₃ hr₂' hk
      | compose hr₃ _ hk₃ =>
        rw [hr] at hr₃
        rw [← Option.some.inj hr₃] at hk₃
        exact hk₃ hk
  | @step u v r hr hk hv hal ih =>
    have hn : NullBelow h u := .step hr hk hv hal.nullBelow
    cases hrep with
    | null hr₂ hk₂ =>
      rw [hr] at hr₂
      rw [← Option.some.inj hr₂] at hk₂
      exact not_composer_null hk₂ hk
    | same hr₂ _ hc =>
      rw [hr] at hr₂
      rw [← Option.some.inj hr₂] at hc
      exact hc hk
    | @compose _ _ _ ops hr₂ _ hlen hops hr₂' =>
      rw [hr] at hr₂
      obtain rfl := Option.some.inj hr₂
      cases ha with
      | same _ hn₂ => exact hn₂ hn
      | null hr₃ hk₃ =>
        rw [hr] at hr₃
        rw [← Option.some.inj hr₃] at hk₃
        exact not_composer_null hk₃ hk
      | @skin _ _ base base' _ hr₃ _ _ hops₃ _ hb₃ hr₃' =>
        rw [hr] at hr₃
        obtain rfl := Option.some.inj hr₃
        rw [hr₂'] at hr₃'
        have hlist : ops = [base'] := congrArg TypeRecord.operands (Option.some.inj hr₃')
        rw [hops₃] at hv
        obtain rfl := List.mem_singleton.1 hv
        exact ih hb₃ (hops 0 v base' (by simp [hops₃]) (by simp [hlist]))
      | bare hr₃ hk₃ _ hops₃ _ hb₃ =>
        rw [hr] at hr₃
        obtain rfl := Option.some.inj hr₃
        exact Answer.bare_not_skin hf hr hk₃ hops₃ hb₃ hr₂' hk₃
      | @compose _ _ _ ops₃ hr₃ _ _ _ hlen₃ hops₃ hr₃' =>
        rw [hr] at hr₃
        obtain rfl := Option.some.inj hr₃
        rw [hr₂'] at hr₃'
        have hlist : ops = ops₃ := congrArg TypeRecord.operands (Option.some.inj hr₃')
        subst hlist
        obtain ⟨i, hi, rfl⟩ := List.getElem_of_mem hv
        have hi' : i < ops.length := hlen ▸ hi
        have hget := List.getElem?_eq_getElem hi
        have hget' := List.getElem?_eq_getElem hi'
        exact ih (hops₃ i _ _ hget hget') (hops i _ _ hget hget')

end Answers

end Host

end DssPrime
