import DssPrime.Types.ReinternTwins

/-!
# The host's interner

What the operations of the host keep: a type that is no composite is there once, a composite once
for its kind, name and key, and a host only grows (`Host.Extends`).  A builder that made a type of
its own operands makes it again of their images (`rebuilt_of_kindLike`).
-/

namespace DssPrime

variable {K : Type}

section Rebuild

variable {a : TypeArena} {r : TypeRecord}

theorem with_operands {k : TypeKind} {e : UInt32} {os : List ℕ} {sc : List UInt64}
    {nm : List UInt8} (h : contentRecord k e os sc nm = r) (ops : List ℕ) :
    contentRecord k e ops sc nm = { r with operands := ops } := by
  subst h
  rfl

theorem materialId_le (a : TypeArena) (n id : ℕ) : materialId a.get? n id ≤ id := by
  induction n generalizing id with
  | zero => exact le_rfl
  | succ n ih =>
    rw [materialId]
    cases hr : a.get? id with
    | none => exact le_rfl
    | some r =>
      dsimp only
      split
      · next hv =>
        have hc : ¬ r.IsComposite := by simp [TypeRecord.IsComposite, hv]
        refine (ih _).trans ?_
        cases hops : r.operands with
        | nil => exact Nat.zero_le _
        | cons op rest =>
          exact (TypeArena.operand_lt hr hc (by rw [hops]; exact List.mem_cons_self)).le
      · exact le_rfl

theorem not_qualified_of_materialId {id : ℕ} (hr : a.get? id = some r)
    (h : materialId a.get? id id = id) : r.kind ≠ .volatileQual := by
  intro hv
  obtain ⟨n, rfl⟩ := Nat.exists_eq_succ_of_ne_zero (TypeArena.get?_eq_some hr).1.ne'
  have hc : ¬ r.IsComposite := by simp [TypeRecord.IsComposite, hv]
  rw [materialId, hr] at h
  dsimp only at h
  rw [if_pos hv] at h
  have hle := materialId_le a n (r.operands.headD 0)
  cases hops : r.operands with
  | nil =>
    rw [hops, List.headD_nil] at h hle
    omega
  | cons op rest =>
    have hmem : op ∈ r.operands := by
      rw [hops]
      exact List.mem_cons_self
    have := TypeArena.operand_lt hr hc hmem
    rw [hops, List.headD_cons] at h hle
    omega

/-- An operand of a unit and one of the host that a builder cannot tell apart. -/
def KindLike (k : ℕ → Option TypeRecord) (a : TypeArena) (op op' : ℕ) : Prop :=
  (op = 0 ↔ op' = 0) ∧ (a.get? op).map TypeRecord.kind = (k op').map TypeRecord.kind

theorem rebuilt_of_kindLike {k : ℕ → Option TypeRecord} {ops : List ℕ}
    (h : rebuilt a.get? r r.operands = .ok r) (hops : List.Forall₂ (KindLike k a) r.operands ops) :
    rebuilt k r ops = .ok { r with operands := ops } := by
  have hone : ∀ op, r.operands = [op] → ∃ op', ops = [op'] ∧ KindLike k a op op' := by
    intro op hop
    rw [hop, List.forall₂_cons_left_iff] at hops
    obtain ⟨op', rest, hlike, hrest, rfl⟩ := hops
    rw [List.forall₂_nil_left_iff] at hrest
    exact ⟨op', by rw [hrest], hlike⟩
  have hnil : r.operands = [] → ops = [] := by
    intro hop
    rw [hop, List.forall₂_nil_left_iff] at hops
    exact hops
  generalize hwant : ({ r with operands := ops } : TypeRecord) = want
  cases hk : r.kind
  case ptr | ref | nullable | optional | slice | complex =>
    simp only [rebuilt, hk] at h ⊢
    split at h
    · next op _ _ =>
      have hr := Except.ok.inj h
      obtain ⟨op', rfl, -⟩ := hone op (congrArg TypeRecord.operands hr).symm
      exact congrArg Except.ok ((with_operands hr [op']).trans hwant)
    · cases h
  case vector | array =>
    simp only [rebuilt, hk] at h ⊢
    split at h
    · next op _ n sc _ hsc =>
      have hr := Except.ok.inj h
      obtain ⟨op', rfl, -⟩ := hone op (congrArg TypeRecord.operands hr).symm
      rw [hsc]
      exact congrArg Except.ok ((with_operands hr [op']).trans hwant)
    · cases h
  case matrix =>
    simp only [rebuilt, hk] at h ⊢
    split at h
    · next op _ rows cols sc _ hsc =>
      have hr := Except.ok.inj h
      obtain ⟨op', rfl, -⟩ := hone op (congrArg TypeRecord.operands hr).symm
      rw [hsc]
      exact congrArg Except.ok ((with_operands hr [op']).trans hwant)
    · cases h
  case bitInt =>
    simp only [rebuilt, hk] at h ⊢
    split at h
    · next width rest hsc =>
      have hr := Except.ok.inj h
      obtain rfl := hnil (congrArg TypeRecord.operands hr).symm
      exact congrArg Except.ok ((with_operands hr []).trans hwant)
    · cases h
  case tuple | extension =>
    simp only [rebuilt, hk] at h ⊢
    exact congrArg Except.ok ((with_operands (Except.ok.inj h) ops).trans hwant)
  case fnSig =>
    simp only [rebuilt, hk] at h ⊢
    split at h
    · next result params cc sc hop hsc =>
      have hr := Except.ok.inj h
      rw [hop, List.forall₂_cons_left_iff] at hops
      obtain ⟨result', params', -, -, rfl⟩ := hops
      rw [hsc]
      exact congrArg Except.ok ((with_operands hr (result' :: params')).trans hwant)
    · cases h
  case enum =>
    simp only [rebuilt, hk] at h ⊢
    split at h
    · cases h
    · next underlying rest _ =>
      split at h
      · next hop =>
        obtain rfl := hnil hop
        exact congrArg Except.ok ((with_operands (Except.ok.inj h) []).trans hwant)
      · next op _ hop =>
        split at h
        · next h0 =>
          have := congrArg TypeRecord.operands (Except.ok.inj h)
          rw [hop] at this
          cases this
        · next h0 =>
          split at h
          · cases h
          · next d hd =>
            split at h
            · cases h
            · next hund =>
              -- the operand is the type under its qualifiers, so it has none, here and there
              have hr := Except.ok.inj h
              have hself := congrArg TypeRecord.operands hr
              rw [hop] at hself
              obtain ⟨hmat, -⟩ := List.cons.inj hself
              change materialId a.get? op op = op at hmat
              rw [hmat] at hd
              obtain ⟨op', rfl, hzero, hkinds⟩ := hone op (by
                rw [← (congrArg TypeRecord.operands hr)]
                exact congrArg (fun x => [x]) hmat)
              have hnq := not_qualified_of_materialId hd hmat
              rw [hd, Option.map_some] at hkinds
              obtain ⟨d', hd', hdk⟩ := Option.map_eq_some_iff.mp hkinds.symm
              have h0' : op' ≠ 0 := fun h => h0 (hzero.mpr h)
              have hmat' : materialId k op' op' = op' := by
                obtain ⟨n, rfl⟩ := Nat.exists_eq_succ_of_ne_zero h0'
                rw [materialId, hd']
                dsimp only
                rw [if_neg (hdk ▸ hnq)]
              dsimp only
              rw [if_neg h0', hmat', hd']
              dsimp only
              rw [if_neg (hdk ▸ hund)]
              exact congrArg Except.ok ((with_operands hr [op']).trans hwant)
  case struct | union | volatileQual | fnPtr | param | bind =>
    simp only [rebuilt, hk] at h
    cases h
  all_goals
    simp only [rebuilt, hk] at h ⊢
    split at h
    · next hop =>
      obtain rfl := hnil hop
      exact congrArg Except.ok ((with_operands (Except.ok.inj h) []).trans hwant)
    · cases h

end Rebuild

/-- A host that has all types of another; only a composite without fields may have got some. -/
def Host.Extends (h h' : Host K) : Prop :=
  ∀ id t, h.get? id = some t → ∃ t', h'.get? id = some t' ∧ t'.declSiteKey = t.declSiteKey ∧
    t'.record.kind = t.record.kind ∧ t'.record.name = t.record.name ∧
    (t.declSiteKey = none ∨ t.record.composite.complete = true → t' = t)

namespace Host

variable {h h' h'' : Host K}

theorem Extends.refl (h : Host K) : h.Extends h :=
  fun _ t ht => ⟨t, ht, rfl, rfl, rfl, fun _ => rfl⟩

theorem Extends.trans (h₁ : h.Extends h') (h₂ : h'.Extends h'') : h.Extends h'' := by
  intro id t ht
  obtain ⟨t', ht', hkey, hkind, hname, hsame⟩ := h₁ id t ht
  obtain ⟨t'', ht'', hkey', hkind', hname', hsame'⟩ := h₂ id t' ht'
  refine ⟨t'', ht'', hkey'.trans hkey, hkind'.trans hkind, hname'.trans hname, fun hfixed => ?_⟩
  have := hsame hfixed
  subst this
  exact hsame' hfixed

/-- No two types that are no composites have one content, and no two composites one kind, name and
key. -/
structure Distinct (h : Host K) : Prop where
  content : ∀ i j r, h.get? i = some ⟨r, none⟩ → h.get? j = some ⟨r, none⟩ → i = j
  key : ∀ i j t t' k, h.get? i = some t → h.get? j = some t' → t.declSiteKey = some k →
    t'.declSiteKey = some k → t.record.kind = t'.record.kind → t.record.name = t'.record.name →
    i = j

theorem get?_snoc (h : Host K) (t : HostType K) (id : ℕ) :
    (⟨h.types ++ [t]⟩ : Host K).get? id =
      if id = h.types.length + 1 then some t else h.get? id := by
  unfold get?
  by_cases h0 : id = 0
  · simp [h0]
  · by_cases hlast : id = h.types.length + 1
    · subst hlast
      simp
    · rw [if_neg h0, if_neg h0, if_neg hlast]
      by_cases hlt : id - 1 < h.types.length
      · rw [List.getElem?_append_left hlt]
      · rw [List.getElem?_eq_none_iff.mpr (by simp; omega),
          List.getElem?_eq_none_iff.mpr (by omega)]

theorem get?_lt {id : ℕ} {t : HostType K} (ht : h.get? id = some t) : id ≠ h.types.length + 1 := by
  unfold get? at ht
  split at ht
  · cases ht
  · have := (List.getElem?_eq_some_iff.mp ht).1
    omega

theorem extends_snoc (h : Host K) (t : HostType K) : h.Extends ⟨h.types ++ [t]⟩ := by
  intro id s hs
  refine ⟨s, ?_, rfl, rfl, rfl, fun _ => rfl⟩
  rw [get?_snoc, if_neg (get?_lt hs), hs]

theorem Distinct.snoc (hd : h.Distinct) {t : HostType K}
    (hcontent : t.declSiteKey = none → ∀ i, h.get? i ≠ some t)
    (hkey : ∀ k, t.declSiteKey = some k → ∀ i s, h.get? i = some s → s.declSiteKey = some k →
      s.record.kind = t.record.kind → s.record.name ≠ t.record.name) :
    (⟨h.types ++ [t]⟩ : Host K).Distinct where
  content := by
    intro i j r hi hj
    rw [get?_snoc] at hi hj
    split at hi
    · next hi' =>
      split at hj
      · next hj' => rw [hi', hj']
      · have ht := Option.some.inj hi
        exact absurd (ht ▸ hj) (hcontent (by rw [ht]) j)
    · split at hj
      · have ht := Option.some.inj hj
        exact absurd (ht ▸ hi) (hcontent (by rw [ht]) i)
      · exact hd.content i j r hi hj
  key := by
    intro i j s s' k hi hj hk hk' hkind hname
    rw [get?_snoc] at hi hj
    split at hi
    · next hi' =>
      split at hj
      · next hj' => rw [hi', hj']
      · obtain rfl := Option.some.inj hi
        exact absurd hname.symm (hkey k hk j s' hj hk' hkind.symm)
    · split at hj
      · obtain rfl := Option.some.inj hj
        exact absurd hname (hkey k hk' i s hi hk hkind)
      · exact hd.key i j s s' k hi hj hk hk' hkind hname

def SameComplete (h h' : Host K) : Prop :=
  ∀ id t, h'.get? id = some t → t.declSiteKey.isSome → t.record.composite.complete = true →
    h.get? id = some t

theorem get?_findIdx? {p : HostType K → Bool} {i : ℕ} (hi : h.types.findIdx? p = some i) :
    ∃ t, h.get? (i + 1) = some t ∧ p t = true := by
  obtain ⟨hlt, hp, -⟩ := List.findIdx?_eq_some_iff_getElem.mp hi
  exact ⟨h.types[i], by rw [get?, if_neg (Nat.succ_ne_zero i), Nat.add_sub_cancel,
    List.getElem?_eq_getElem hlt], hp⟩

theorem not_of_findIdx?_eq_none {p : HostType K → Bool} (hi : h.types.findIdx? p = none) {id : ℕ}
    {t : HostType K} (ht : h.get? id = some t) : p t = false := by
  unfold get? at ht
  split at ht
  · cases ht
  · exact List.findIdx?_eq_none_iff.mp hi t (List.mem_of_getElem? ht)

theorem get?_set {id : ℕ} {t : HostType K} (ht : h.get? id = some t) (s : HostType K) (j : ℕ) :
    (⟨h.types.set (id - 1) s⟩ : Host K).get? j = if j = id then some s else h.get? j := by
  unfold get? at ht ⊢
  split at ht
  · cases ht
  · next h0 =>
    have hlt := (List.getElem?_eq_some_iff.mp ht).1
    by_cases hj : j = id
    · subst hj
      rw [if_neg h0, if_pos rfl, List.getElem?_set_self hlt]
    · rw [if_neg hj]
      by_cases hj0 : j = 0
      · rw [if_pos hj0, if_pos hj0]
      · rw [if_neg hj0, if_neg hj0, List.getElem?_set_ne (by omega)]

section Complete

variable {id : ℕ} {t : HostType K} {k : K} {c : CompositeShape} (ht : h.get? id = some t)
  (hcomp : t.record.IsComposite) (hkey : t.declSiteKey = some k) (hadm : c.Admissible)
include ht hcomp hkey hadm

theorem completeComposite_of_incomplete (hd : h.Distinct)
    (hinc : t.record.composite.complete = false) :
    ∃ h', h.completeComposite id c = .ok h' ∧ h'.Distinct ∧ h.Extends h' ∧
      h'.get? id = some ⟨t.record.completed c, some k⟩ ∧ ∀ j, j ≠ id → h'.get? j = h.get? j := by
  refine ⟨⟨h.types.set (id - 1) ⟨t.record.completed c, t.declSiteKey⟩⟩, ?_, ?_, ?_, ?_, ?_⟩
  · rw [completeComposite, ht]
    dsimp only
    rw [if_neg (by simp [hcomp, hkey]), if_neg (not_not.mpr hadm), if_neg (by simp [hinc])]
  · -- the kind, the name and the key stay
    have hback : ∀ j s, (⟨h.types.set (id - 1) ⟨t.record.completed c, t.declSiteKey⟩⟩ :
        Host K).get? j = some s → ∃ s', h.get? j = some s' ∧ s'.declSiteKey = s.declSiteKey ∧
          s'.record.kind = s.record.kind ∧ s'.record.name = s.record.name ∧
          (s.declSiteKey = none → s' = s) := by
      intro j s hs
      rw [get?_set ht] at hs
      split at hs
      · next hj =>
        obtain rfl := Option.some.inj hs
        exact ⟨t, hj ▸ ht, rfl, rfl, rfl, fun hn => by rw [hkey] at hn; cases hn⟩
      · exact ⟨s, hs, rfl, rfl, rfl, fun _ => rfl⟩
    refine ⟨fun i j r hi hj => ?_, fun i j s s' k' hi hj hk hk' hkind hname => ?_⟩
    · obtain ⟨s, hs, -, -, -, hsame⟩ := hback i _ hi
      obtain ⟨s', hs', -, -, -, hsame'⟩ := hback j _ hj
      rw [hsame rfl] at hs
      rw [hsame' rfl] at hs'
      exact hd.content i j r hs hs'
    · obtain ⟨u, hu, hukey, hukind, huname, -⟩ := hback i _ hi
      obtain ⟨u', hu', hukey', hukind', huname', -⟩ := hback j _ hj
      exact hd.key i j u u' k' hu hu' (hukey.trans hk) (hukey'.trans hk')
        (hukind.trans (hkind.trans hukind'.symm)) (huname.trans (hname.trans huname'.symm))
  · intro j s hs
    by_cases hj : j = id
    · subst hj
      rw [ht] at hs
      obtain rfl := Option.some.inj hs
      refine ⟨⟨t.record.completed c, t.declSiteKey⟩, by rw [get?_set ht, if_pos rfl], rfl, rfl, rfl,
        fun hfixed => ?_⟩
      rcases hfixed with hn | hcomplete
      · rw [hkey] at hn
        cases hn
      · rw [hinc] at hcomplete
        cases hcomplete
    · exact ⟨s, by rw [get?_set ht, if_neg hj, hs], rfl, rfl, rfl, fun _ => rfl⟩
  · rw [get?_set ht, if_pos rfl, hkey]
  · intro j hj
    rw [get?_set ht, if_neg hj]

theorem completeComposite_of_complete (hdone : t.record.composite.complete = true) :
    h.completeComposite id c =
      if t.record = t.record.completed c then .ok h else .error .conflictingFields := by
  rw [completeComposite, ht]
  dsimp only
  rw [if_neg (by simp [hcomp, hkey]), if_neg (not_not.mpr hadm), if_pos hdone]

end Complete

variable [DecidableEq K]

theorem internContent_spec (hd : h.Distinct) {r : TypeRecord}
    (hext : r.kind = .extension ↔ r.extensionKind ≠ 0) :
    ∃ i h', h.internContent r = .ok (i, h') ∧ h'.Distinct ∧ h.Extends h' ∧ h.SameComplete h' ∧
      h'.get? i = some ⟨r, none⟩ := by
  rw [internContent, if_neg (not_not.mpr (decide_eq_decide.mpr hext))]
  cases hi : h.types.findIdx? fun t => decide (t = ⟨r, none⟩) with
  | some i =>
    obtain ⟨t, ht, hp⟩ := get?_findIdx? hi
    obtain rfl := of_decide_eq_true hp
    exact ⟨i + 1, h, rfl, hd, .refl h, fun _ _ ht _ _ => ht, ht⟩
  | none =>
    refine ⟨_, _, rfl, hd.snoc (fun _ i hget => ?_) (fun k hk => ?_), extends_snoc _ _, ?_, ?_⟩
    · have := not_of_findIdx?_eq_none hi hget
      simp at this
    · cases hk
    · intro id t ht hkey _
      rw [get?_snoc] at ht
      split at ht
      · obtain rfl := Option.some.inj ht
        cases hkey
      · exact ht
    · rw [get?_snoc, if_pos rfl]

theorem forwardComposite_spec (hd : h.Distinct) (kind : TypeKind) (name : List UInt8) (k : K) :
    (h.forwardComposite kind name k).2.Distinct ∧ h.Extends (h.forwardComposite kind name k).2 ∧
      h.SameComplete (h.forwardComposite kind name k).2 ∧
      ∃ t, (h.forwardComposite kind name k).2.get? (h.forwardComposite kind name k).1 = some t ∧
        t.declSiteKey = some k ∧ t.record.kind = kind ∧ t.record.name = name := by
  unfold forwardComposite
  cases hi : h.types.findIdx? fun t =>
      decide (t.record.kind = kind ∧ t.record.name = name ∧ t.declSiteKey = some k) with
  | some i =>
    obtain ⟨t, ht, hp⟩ := get?_findIdx? hi
    obtain ⟨hkind, hname, hkey⟩ := of_decide_eq_true hp
    exact ⟨hd, .refl h, fun _ _ ht _ _ => ht, t, ht, hkey, hkind, hname⟩
  | none =>
    refine ⟨hd.snoc (fun hk => by cases hk) (fun k' hk' i s hs hkey hkind hname => ?_),
      extends_snoc _ _, ?_, _, by rw [get?_snoc, if_pos rfl], rfl, rfl, rfl⟩
    · have := not_of_findIdx?_eq_none hi hs
      obtain rfl := Option.some.inj hk'
      exact absurd this (by simp [hkey, hkind, hname, contentRecord])
    · intro id t ht _ hcomplete
      rw [get?_snoc] at ht
      split at ht
      · obtain rfl := Option.some.inj ht
        cases hcomplete
      · exact ht

end Host

end DssPrime
