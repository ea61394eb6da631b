import DssPrime.Types.CompositeSignature

/-!
# The identity of composites across units

`CompositeIdentityIndex` of `type_reintern.cpp`. It observes the arenas of all units, keeps the
first definition of every tag (and whether a later one has another signature), reads every forward
declaration as the definition it kept or as a placeholder, and refines the signatures until no round
adds a class. `keyFor` is the identity of a composite.
-/

namespace DssPrime

/-- A kind with a name; the source spells both in one text, the length of the name first. -/
structure Tag where
  kind : TypeKind
  name : List UInt8
  deriving DecidableEq

def TypeRecord.tag (r : TypeRecord) : Tag := ⟨r.kind, anonNameWithoutDeclSite r.name⟩

def Tag.Named (t : Tag) : Prop := t.name ≠ [] ∧ isSyntheticAnonymousName t.name = false

instance (t : Tag) : Decidable t.Named := by
  unfold Tag.Named
  infer_instance

def decimalText (n : ℕ) : List UInt8 := (Nat.toDigits 10 n).map fun c => c.toNat.toUInt8

def tagKey (t : Tag) : List UInt8 :=
  decimalText t.kind.ctorIdx ++ [58] ++ decimalText t.name.length ++ [58] ++ t.name

/-- A node of the graph: a composite of a unit, or what the forward declarations of a tag without a
usable definition share. -/
inductive CompositeNode where
  | composite (a : TypeArena) (id : ℕ)
  | placeholder (tag : Tag)

def TypeArena.composites (a : TypeArena) : List (ℕ × TypeRecord) :=
  a.types.zipIdx.filterMap fun x => if x.1.IsComposite then some (x.2 + 1, x.1) else none

/-- What is known of a tag. -/
structure TagEntry (K : Type) where
  localDigest : K
  owner : TypeArena
  defId : ℕ
  ambiguous : Bool

/-- The units observed so far. -/
structure CompositeIdentityIndex (K : Type) where
  units : List TypeArena
  canonical : Tag → Option (TagEntry K)

variable {K : Type} [DecidableEq K]

def observeComposite (m : Mixer K) (a : TypeArena) (canonical : Tag → Option (TagEntry K))
    (x : ℕ × TypeRecord) : Tag → Option (TagEntry K) :=
  if x.2.composite.complete = false then canonical
  else if ¬ x.2.tag.Named then canonical
  else
    match canonical x.2.tag with
    | none =>
      Function.update canonical x.2.tag
        (some ⟨m.digest (localSignature a x.2).1, a, x.1, false⟩)
    | some e =>
      if e.localDigest ≠ m.digest (localSignature a x.2).1 then
        Function.update canonical x.2.tag (some { e with ambiguous := true })
      else canonical

def observe (m : Mixer K) (idx : CompositeIdentityIndex K) (a : TypeArena) :
    CompositeIdentityIndex K :=
  if idx.units.any (fun u => u.owner = a.owner) then idx
  else ⟨idx.units ++ [a], a.composites.foldl (observeComposite m a) idx.canonical⟩

def observeAll (m : Mixer K) (order : List TypeArena) : CompositeIdentityIndex K :=
  order.foldl (observe m) ⟨[], fun _ => none⟩

def resolveDefinition (idx : CompositeIdentityIndex K) (r : TypeRecord) :
    Option (TypeArena × ℕ) :=
  if ¬ r.tag.Named then none
  else
    match idx.canonical r.tag with
    | none => none
    | some e => if e.ambiguous then none else some (e.owner, e.defId)

def aliasOf (idx : CompositeIdentityIndex K) (x : TypeArena × ℕ) : CompositeNode :=
  match x.1.get? x.2 with
  | none => .composite x.1 x.2
  | some r =>
    if r.composite.complete then .composite x.1 x.2
    else
      match resolveDefinition idx r with
      | some d => .composite d.1 d.2
      | none => .placeholder r.tag

def placeholderText : List UInt8 :=
  [111, 112, 97, 113, 117, 101, 45, 99, 111, 109, 112, 111, 115, 105, 116, 101]

def signatureOf : CompositeNode → Option (List Token)
  | .composite a id =>
    match a.get? id with
    | none => none
    | some r => if r.composite.complete then some (localSignature a r).1 else none
  | .placeholder t => some [.text placeholderText, .text (tagKey t)]

def refsOf : CompositeNode → List (TypeArena × ℕ)
  | .composite a id =>
    match a.get? id with
    | none => []
    | some r =>
      if r.composite.complete then (localSignature a r).2.map fun ref => (a, ref) else []
  | .placeholder _ => []

def ownDigest (m : Mixer K) (v : CompositeNode) : K :=
  match signatureOf v with
  | none => m.blank
  | some sig => m.digest sig

/-- The nodes that a node refers to, forward declarations read through. -/
def refNodes (idx : CompositeIdentityIndex K) (v : CompositeNode) : List CompositeNode :=
  (refsOf v).map (aliasOf idx)

/-- The tags whose forward declarations are read as placeholders. -/
def placeholderTags (idx : CompositeIdentityIndex K) : List Tag :=
  (idx.units.flatMap fun a => a.composites.filterMap fun x =>
    if x.2.composite.complete = false ∧ resolveDefinition idx x.2 = none then some x.2.tag
    else none).dedup

def nodesOf (idx : CompositeIdentityIndex K) : List CompositeNode :=
  (idx.units.flatMap fun a => a.composites.map fun x => CompositeNode.composite a x.1) ++
    (placeholderTags idx).map CompositeNode.placeholder

/-- The fixed point, with the number of rounds. -/
def finalize (m : Mixer K) (idx : CompositeIdentityIndex K) : (CompositeNode → K) × ℕ :=
  Refine.refine (ownDigest m) (refNodes idx) m.combine (nodesOf idx)

def keyFor (m : Mixer K) (idx : CompositeIdentityIndex K) (x : TypeArena × ℕ) : K :=
  (finalize m idx).1 (aliasOf idx x)

def allComposites (order : List TypeArena) : List (TypeArena × ℕ × TypeRecord) :=
  order.flatMap fun a => a.composites.map fun x => (a, x)

def definitionsOf (xs : List (TypeArena × ℕ × TypeRecord)) (t : Tag) :
    List (TypeArena × ℕ × TypeRecord) :=
  xs.filter fun x => x.2.2.composite.complete = true ∧ x.2.2.tag = t

def definitionDigest (m : Mixer K) (x : TypeArena × ℕ × TypeRecord) : K :=
  m.digest (localSignature x.1 x.2.2).1

def entryOf (m : Mixer K) : List (TypeArena × ℕ × TypeRecord) → Option (TagEntry K)
  | [] => none
  | d :: ds =>
    some ⟨definitionDigest m d, d.1, d.2.1,
      ds.any fun e => definitionDigest m e ≠ definitionDigest m d⟩

theorem entryOf_snoc_of_none (m : Mixer K) {ds : List (TypeArena × ℕ × TypeRecord)}
    (h : entryOf m ds = none) (d : TypeArena × ℕ × TypeRecord) :
    entryOf m (ds ++ [d]) = some ⟨definitionDigest m d, d.1, d.2.1, false⟩ := by
  cases ds with
  | nil => rfl
  | cons e ds => cases h

theorem entryOf_snoc_of_some (m : Mixer K) {ds : List (TypeArena × ℕ × TypeRecord)} {e : TagEntry K}
    (h : entryOf m ds = some e) (d : TypeArena × ℕ × TypeRecord) :
    entryOf m (ds ++ [d]) =
      some (if e.localDigest ≠ definitionDigest m d then { e with ambiguous := true } else e) := by
  cases ds with
  | nil => cases h
  | cons f ds =>
    obtain rfl := Option.some_inj.mp h
    rw [List.cons_append, entryOf, Option.some_inj]
    by_cases hd : definitionDigest m f = definitionDigest m d
    · simp [hd]
    · simp [hd, Ne.symm hd]

theorem canonical_foldl (m : Mixer K) (xs : List (TypeArena × ℕ × TypeRecord)) (t : Tag) :
    xs.foldl (fun c x => observeComposite m x.1 c x.2) (fun _ => none) t =
      if t.Named then entryOf m (definitionsOf xs t) else none := by
  induction xs using List.reverseRecOn generalizing t with
  | nil => simp [definitionsOf, entryOf]
  | append_singleton xs x ih =>
    rw [List.foldl_append]
    simp only [List.foldl_cons, List.foldl_nil]
    generalize hc : xs.foldl (fun c x => observeComposite m x.1 c x.2) (fun _ => none) = c at ih ⊢
    have hdefs : definitionsOf (xs ++ [x]) t =
        definitionsOf xs t ++ definitionsOf [x] t := by simp [definitionsOf]
    unfold observeComposite
    by_cases hcomplete : x.2.2.composite.complete = true
    · rw [if_neg (by simp [hcomplete])]
      by_cases hnamed : x.2.2.tag.Named
      · rw [if_neg (not_not.mpr hnamed)]
        have hx := ih x.2.2.tag
        rw [if_pos hnamed] at hx
        by_cases ht : x.2.2.tag = t
        · -- the entry of the tag of this composite
          subst ht
          have hone : definitionsOf [x] x.2.2.tag = [x] := by simp [definitionsOf, hcomplete]
          rw [hdefs, hone, if_pos hnamed]
          cases he : c x.2.2.tag with
          | none =>
            rw [he] at hx
            rw [entryOf_snoc_of_none m hx.symm]
            dsimp only
            rw [Function.update_self]
            rfl
          | some e =>
            rw [he] at hx
            rw [entryOf_snoc_of_some m hx.symm]
            by_cases hd : e.localDigest = definitionDigest m x
            · rw [if_neg (not_not.mpr hd)]
              rw [definitionDigest] at hd
              dsimp only
              rw [if_neg (not_not.mpr hd), he]
            · rw [if_pos hd]
              rw [definitionDigest] at hd
              dsimp only
              rw [if_pos hd, Function.update_self]
        · -- the other tags
          have hnone : definitionsOf [x] t = [] := by simp [definitionsOf, ht]
          rw [hdefs, hnone, List.append_nil, ← ih t]
          cases c x.2.2.tag with
          | none =>
            dsimp only
            rw [Function.update_of_ne (Ne.symm ht)]
          | some e =>
            dsimp only
            split
            · rw [Function.update_of_ne (Ne.symm ht)]
            · rfl
      · rw [if_pos hnamed, ih t]
        by_cases ht : x.2.2.tag = t
        · rw [ht] at hnamed
          rw [if_neg hnamed, if_neg hnamed]
        · have hnone : definitionsOf [x] t = [] := by simp [definitionsOf, ht]
          rw [hdefs, hnone, List.append_nil]
    · have hnone : definitionsOf [x] t = [] := by simp [definitionsOf, hcomplete]
      rw [if_pos (by simpa using hcomplete), ih t, hdefs, hnone, List.append_nil]

theorem observeAll_eq (m : Mixer K) {order : List TypeArena}
    (hnodup : (order.map TypeArena.owner).Nodup) :
    (observeAll m order).units = order ∧
      (observeAll m order).canonical =
        (allComposites order).foldl (fun c x => observeComposite m x.1 c x.2) (fun _ => none) := by
  induction order using List.reverseRecOn with
  | nil => exact ⟨rfl, rfl⟩
  | append_singleton order a ih =>
    rw [List.map_append, List.nodup_append] at hnodup
    obtain ⟨hunits, hcanon⟩ := ih hnodup.1
    have hstep : observeAll m (order ++ [a]) = observe m (observeAll m order) a := by
      rw [observeAll, List.foldl_append]
      rfl
    have hfresh : (observeAll m order).units.any (fun u => u.owner = a.owner) = false := by
      rw [hunits, List.any_eq_false]
      intro u hu
      have hne := hnodup.2.2 u.owner (List.mem_map_of_mem hu) a.owner (by simp)
      simpa using hne
    rw [hstep, observe, hfresh]
    refine ⟨by simp [hunits], ?_⟩
    rw [if_neg (by simp), allComposites, List.flatMap_append, List.foldl_append, hcanon]
    simp only [List.flatMap_cons, List.flatMap_nil, List.append_nil, List.foldl_map]
    rfl

theorem canonical_observeAll (m : Mixer K) {order : List TypeArena}
    (hnodup : (order.map TypeArena.owner).Nodup) (t : Tag) :
    (observeAll m order).canonical t =
      if t.Named then entryOf m (definitionsOf (allComposites order) t) else none := by
  rw [(observeAll_eq m hnodup).2, canonical_foldl]

end DssPrime
