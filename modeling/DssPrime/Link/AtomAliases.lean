import DssPrime.Mir.Basic
import Mathlib

/-!
# Names for one atom

`resolveEqualOffsetAtomAliases` of `object_atom_coverage.hpp`: symbols of one section at one offset
are names for one body, and the atom goes to one of them. The candidates are grouped by sorting
their indices; a group whose declared extents disagree is refused.
-/

namespace DssPrime.AtomCoverage

/-- A symbol that may start an atom. -/
structure AtomStartCandidate where
  sectionKey : ℕ
  offset : ℕ
  declaredExtent : Option ℕ
  symbolId : ℕ
  binding : SymbolBinding
  visibility : SymbolVisibility
  name : String
  sectionName : String
  deriving DecidableEq, Inhabited

/-- Whether the atom of both rather goes to the first: an externally visible one before one that is
not, a strong one before a weak one, then the lower number. -/
def outranksAsAtomIdentity (a b : AtomStartCandidate) : Bool :=
  let aVis := isExternallyVisible a.binding a.visibility
  let bVis := isExternallyVisible b.binding b.visibility
  if aVis ≠ bVis then aVis
  else
    let aStrong := decide (a.binding ≠ .weak)
    let bStrong := decide (b.binding ≠ .weak)
    if aStrong ≠ bStrong then aStrong else decide (a.symbolId < b.symbolId)

def candidateBefore (a b : AtomStartCandidate) : Bool :=
  if a.sectionKey ≠ b.sectionKey then decide (a.sectionKey < b.sectionKey)
  else if a.offset ≠ b.offset then decide (a.offset < b.offset)
  else decide (a.symbolId < b.symbolId)

def SameStart (a b : AtomStartCandidate) : Prop :=
  a.sectionKey = b.sectionKey ∧ a.offset = b.offset

instance (a b : AtomStartCandidate) : Decidable (SameStart a b) := by
  unfold SameStart
  infer_instance

def extentsConflict (a b : AtomStartCandidate) : Bool :=
  match a.declaredExtent, b.declaredExtent with
  | some m, some n => decide (m ≠ n)
  | _, _ => false

/-- Two bodies of which one starts in the other. -/
structure NestedBodies where
  prev : AtomStartCandidate
  cur : AtomStartCandidate

section Resolver

variable (cs : List AtomStartCandidate)

def candidateAt (i : ℕ) : AtomStartCandidate := cs.getD i default

def groupLoop (group : List ℕ) (stated : ℕ) : ℕ → ℕ → ℕ → Except NestedBodies ℕ
  | 0, _, canonical => .ok canonical
  | count + 1, k, canonical =>
    let cur := candidateAt cs (group.getD k 0)
    let prev := candidateAt cs (group.getD (if stated < k then stated else k - 1) 0)
    if extentsConflict cur prev then .error ⟨prev, cur⟩
    else groupLoop group stated count (k + 1)
      (if outranksAsAtomIdentity cur (candidateAt cs canonical) then group.getD k 0 else canonical)

/-- The canonical entry of a group. The first entry that declares an extent is the yardstick. -/
def resolveGroup (group : List ℕ) : Except NestedBodies ℕ :=
  let stated := group.findIdx fun i => (candidateAt cs i).declaredExtent.isSome
  groupLoop cs group stated (group.length - 1) 1 (group.getD 0 0)

def settleGroup (group owner : List ℕ) : Except NestedBodies (List ℕ) :=
  if 1 < group.length then do
    let canonical ← resolveGroup cs group
    pure (group.foldl (fun o i => o.set i (candidateAt cs canonical).symbolId) owner)
  else pure owner

def resolveGroups : ℕ → List ℕ → List ℕ → Except NestedBodies (List ℕ)
  | 0, _, owner => .ok owner
  | _, [], owner => .ok owner
  | fuel + 1, g :: rest, owner => do
    let same := fun i => decide (SameStart (candidateAt cs i) (candidateAt cs g))
    let owner ← settleGroup cs (g :: rest.takeWhile same) owner
    resolveGroups fuel (rest.dropWhile same) owner

def resolveEqualOffsetAtomAliases : Except NestedBodies (List ℕ) :=
  let order := (List.range cs.length).mergeSort fun a b =>
    !candidateBefore (candidateAt cs b) (candidateAt cs a)
  resolveGroups cs order.length order (cs.map AtomStartCandidate.symbolId)

end Resolver

section Ranking

variable {a b c : AtomStartCandidate}

theorem outranks_iff : outranksAsAtomIdentity a b = true ↔
    (isExternallyVisible a.binding a.visibility = true ∧
      isExternallyVisible b.binding b.visibility = false) ∨
    isExternallyVisible a.binding a.visibility = isExternallyVisible b.binding b.visibility ∧
      ((a.binding ≠ .weak ∧ b.binding = .weak) ∨
        (a.binding = .weak ↔ b.binding = .weak) ∧ a.symbolId < b.symbolId) := by
  unfold outranksAsAtomIdentity
  cases isExternallyVisible a.binding a.visibility <;>
    cases isExternallyVisible b.binding b.visibility <;>
    by_cases ha : a.binding = .weak <;> by_cases hb : b.binding = .weak <;> simp [ha, hb]

theorem outranks_trans (hab : outranksAsAtomIdentity a b = true)
    (hbc : outranksAsAtomIdentity b c = true) : outranksAsAtomIdentity a c = true := by
  rw [outranks_iff] at *
  rcases hab with ⟨h1, h2⟩ | ⟨h1, h2⟩ <;> rcases hbc with ⟨h3, h4⟩ | ⟨h3, h4⟩
  · rw [h2] at h3
    cases h3
  · exact .inl ⟨h1, h3 ▸ h2⟩
  · exact .inl ⟨h1.trans h3, h4⟩
  · refine .inr ⟨h1.trans h3, ?_⟩
    rcases h2 with ⟨h5, h6⟩ | ⟨h5, h6⟩ <;> rcases h4 with ⟨h7, h8⟩ | ⟨h7, h8⟩
    · exact absurd h6 h7
    · exact .inl ⟨h5, h7.1 h6⟩
    · exact .inl ⟨fun h => h7 (h5.1 h), h8⟩
    · exact .inr ⟨h5.trans h7, h6.trans h8⟩

theorem outranks_asymm (hab : outranksAsAtomIdentity a b = true) :
    outranksAsAtomIdentity b a = false := by
  rw [Bool.eq_false_iff]
  intro hba
  have h := outranks_trans hab hba
  rw [outranks_iff] at h
  rcases h with ⟨h1, h2⟩ | ⟨-, ⟨h1, h2⟩ | ⟨-, h1⟩⟩
  · rw [h1] at h2
    cases h2
  · exact h1 h2
  · exact Nat.lt_irrefl _ h1

theorem outranks_total (hne : a.symbolId ≠ b.symbolId) (h : outranksAsAtomIdentity a b = false) :
    outranksAsAtomIdentity b a = true := by
  rw [Bool.eq_false_iff, Ne, outranks_iff] at h
  rw [outranks_iff]
  have hlt : a.symbolId < b.symbolId ∨ b.symbolId < a.symbolId := Nat.lt_or_gt_of_ne hne
  revert h
  cases isExternallyVisible a.binding a.visibility <;>
    cases isExternallyVisible b.binding b.visibility <;>
    by_cases ha : a.binding = .weak <;> by_cases hb : b.binding = .weak <;> simp [ha, hb] <;> omega

theorem extentsConflict_iff : extentsConflict a b = true ↔
    ∃ m n, a.declaredExtent = some m ∧ b.declaredExtent = some n ∧ m ≠ n := by
  unfold extentsConflict
  cases a.declaredExtent <;> cases b.declaredExtent <;> simp

theorem extentsConflict_comm (a b : AtomStartCandidate) :
    extentsConflict a b = extentsConflict b a := by
  unfold extentsConflict
  cases a.declaredExtent <;> cases b.declaredExtent <;> simp [eq_comm]

theorem extentsConflict_via (hb : b.declaredExtent.isSome) (hab : extentsConflict a b = false)
    (hcb : extentsConflict c b = false) : extentsConflict a c = false := by
  unfold extentsConflict at *
  obtain ⟨n, hn⟩ := Option.isSome_iff_exists.1 hb
  rw [hn] at hab hcb
  cases ha : a.declaredExtent with
  | none => rfl
  | some m =>
    cases hc : c.declaredExtent with
    | none => rfl
    | some k =>
      rw [ha] at hab
      rw [hc] at hcb
      simp only [ne_eq, decide_not, Bool.not_eq_false', decide_eq_true_eq] at hab hcb ⊢
      exact hab.trans hcb.symm

end Ranking

section Group

variable {cs : List AtomStartCandidate} {group : List ℕ}

def Canonical (cs : List AtomStartCandidate) (group : List ℕ) (c : ℕ) : Prop :=
  c ∈ group ∧ ∀ i ∈ group,
    i = c ∨ outranksAsAtomIdentity (candidateAt cs c) (candidateAt cs i) = true

def Agree (cs : List AtomStartCandidate) (group : List ℕ) : Prop :=
  ∀ i ∈ group, ∀ j ∈ group, extentsConflict (candidateAt cs i) (candidateAt cs j) = false

theorem mem_take_succ {l : List ℕ} {k i : ℕ} (hk : k < l.length) :
    i ∈ l.take (k + 1) ↔ i ∈ l.take k ∨ i = l.getD k 0 := by
  rw [List.take_add_one, List.getElem?_eq_getElem hk, List.getD_eq_getElem _ _ hk, List.mem_append,
    Option.mem_toList, Option.some_inj, eq_comm (a := i)]

theorem getD_mem_take {l : List ℕ} {j k : ℕ} (hj : j < k) (hk : k ≤ l.length) :
    l.getD j 0 ∈ l.take k := by
  rw [List.getD_eq_getElem _ _ (hj.trans_le hk)]
  exact List.mem_take_iff_getElem.2 ⟨j, by omega, rfl⟩

theorem groupLoop_spec
    (hids : ∀ i ∈ group, ∀ j ∈ group,
      (candidateAt cs i).symbolId = (candidateAt cs j).symbolId → i = j)
    (count k canonical : ℕ) (hlen : k + count = group.length) (hpos : 0 < k)
    (hcan : Canonical cs (group.take k) canonical) (hagree : Agree cs (group.take k)) :
    let out := groupLoop cs group
      (group.findIdx fun i => (candidateAt cs i).declaredExtent.isSome) count k canonical
    ((∃ e, out = .error e) ↔ ¬ Agree cs group) ∧ ∀ c, out = .ok c → Canonical cs group c := by
  induction count generalizing k canonical with
  | zero =>
    rw [Nat.add_zero] at hlen
    rw [hlen, List.take_length] at hcan hagree
    refine ⟨⟨fun h => ?_, fun h => absurd hagree h⟩, fun c hc => ?_⟩
    · obtain ⟨e, he⟩ := h
      cases he
    · obtain rfl := Except.ok.inj hc
      exact hcan
  | succ count ih =>
    have hk : k < group.length := by omega
    have hcur : group.getD k 0 ∈ group := by
      have := getD_mem_take (l := group) (Nat.lt_succ_self k) hk
      exact List.mem_of_mem_take this
    simp only [groupLoop]
    generalize hst : group.findIdx (fun i => (candidateAt cs i).declaredExtent.isSome) = stated
    rw [hst] at ih
    have hprev : group.getD (if stated < k then stated else k - 1) 0 ∈ group.take k := by
      split
      · next h => exact getD_mem_take h hk.le
      · exact getD_mem_take (by omega) hk.le
    by_cases hconf : extentsConflict (candidateAt cs (group.getD k 0))
        (candidateAt cs (group.getD (if stated < k then stated else k - 1) 0)) = true
    · rw [if_pos hconf]
      refine ⟨⟨fun _ h => ?_, fun _ => ⟨_, rfl⟩⟩, fun c hc => by cases hc⟩
      rw [h _ hcur _ (List.mem_of_mem_take hprev)] at hconf
      cases hconf
    · rw [if_neg hconf]
      refine ih (k + 1) _ (by omega) (Nat.succ_pos k) ?_ ?_
      · -- the better of the canonical entry so far and this one
        have hother : group.getD k 0 ≠ canonical →
            (candidateAt cs (group.getD k 0)).symbolId ≠ (candidateAt cs canonical).symbolId :=
          fun hne heq => hne (hids _ hcur _ (List.mem_of_mem_take hcan.1) heq)
        split
        · next hrank =>
          refine ⟨(mem_take_succ hk).2 (.inr rfl), fun i hi => ?_⟩
          rcases (mem_take_succ hk).1 hi with hi | hi
          · rcases hcan.2 i hi with rfl | hrank'
            · exact .inr hrank
            · exact .inr (outranks_trans hrank hrank')
          · exact .inl hi
        · next hrank =>
          refine ⟨(mem_take_succ hk).2 (.inl hcan.1), fun i hi => ?_⟩
          rcases (mem_take_succ hk).1 hi with hi | rfl
          · exact hcan.2 i hi
          · by_cases hne : group.getD k 0 = canonical
            · exact .inl hne
            · exact .inr (outranks_total (hother hne) (Bool.eq_false_iff.2 hrank))
      · -- this entry agrees with the yardstick, or there is none yet
        have hnew : ∀ i ∈ group.take k,
            extentsConflict (candidateAt cs i) (candidateAt cs (group.getD k 0)) = false := by
          intro i hi
          by_cases hlt : stated < k
          · rw [if_pos hlt] at hconf hprev
            have hsome : (candidateAt cs (group.getD stated 0)).declaredExtent.isSome = true := by
              have hlt' : stated < group.length := hlt.trans hk
              rw [List.getD_eq_getElem _ _ hlt']
              subst hst
              exact List.findIdx_getElem (w := hlt')
            exact extentsConflict_via hsome (hagree i hi _ hprev) (Bool.eq_false_iff.2 hconf)
          · -- no entry before this one declares an extent
            obtain ⟨j, hj, rfl⟩ := List.mem_take_iff_getElem.1 hi
            have hnone := List.not_of_lt_findIdx (show j < group.findIdx fun i =>
              (candidateAt cs i).declaredExtent.isSome by omega)
            simp only [Option.isSome_eq_false_iff, Option.isNone_iff_eq_none] at hnone
            unfold extentsConflict
            rw [hnone]
        intro i hi j hj
        rcases (mem_take_succ hk).1 hi with hi | rfl <;>
          rcases (mem_take_succ hk).1 hj with hj | rfl
        · exact hagree i hi j hj
        · exact hnew i hi
        · rw [extentsConflict_comm]
          exact hnew j hj
        · unfold extentsConflict
          cases (candidateAt cs (group.getD k 0)).declaredExtent <;> simp

end Group

section Walk

variable {cs : List AtomStartCandidate}

theorem candidateBefore_eq_false {a b : AtomStartCandidate} : candidateBefore b a = false ↔
    a.sectionKey < b.sectionKey ∨ a.sectionKey = b.sectionKey ∧
      (a.offset < b.offset ∨ a.offset = b.offset ∧ a.symbolId ≤ b.symbolId) := by
  unfold candidateBefore
  split
  · simp only [decide_eq_false_iff_not]
    omega
  · split
    · simp only [decide_eq_false_iff_not]
      omega
    · simp only [decide_eq_false_iff_not]
      omega

def SortedStarts (cs : List AtomStartCandidate) (order : List ℕ) : Prop :=
  order.Pairwise fun i j => candidateBefore (candidateAt cs j) (candidateAt cs i) = false

theorem not_sameStart_of_mem_dropWhile {g i : ℕ} {rest : List ℕ}
    (hsorted : SortedStarts cs (g :: rest))
    (hi : i ∈ rest.dropWhile fun i => decide (SameStart (candidateAt cs i) (candidateAt cs g))) :
    ¬ SameStart (candidateAt cs i) (candidateAt cs g) := by
  intro hsame
  obtain ⟨hg, hrest⟩ := List.pairwise_cons.1 hsorted
  have hsub := List.dropWhile_sublist
    (fun i => decide (SameStart (candidateAt cs i) (candidateAt cs g))) (l := rest)
  have hpair := hrest.sublist hsub
  cases hd : rest.dropWhile fun i => decide (SameStart (candidateAt cs i) (candidateAt cs g)) with
  | nil =>
    rw [hd] at hi
    cases hi
  | cons y ys =>
    -- the first one left lies between the head of the group and this one
    have hy : ¬ SameStart (candidateAt cs y) (candidateAt cs g) := by
      have h := List.head_dropWhile_not
        (fun i => decide (SameStart (candidateAt cs i) (candidateAt cs g)))
        (l := rest) (by rw [hd]; exact List.cons_ne_nil y ys)
      simp only [hd, List.head_cons, decide_eq_false_iff_not] at h
      exact h
    have hgy := candidateBefore_eq_false.1 (hg y (hsub.subset (hd ▸ List.mem_cons_self)))
    rw [hd] at hi hpair
    rcases List.mem_cons.1 hi with rfl | hi
    · exact hy hsame
    · have hyi := candidateBefore_eq_false.1 ((List.pairwise_cons.1 hpair).1 i hi)
      unfold SameStart at hsame hy
      omega

theorem mem_takeWhile_dropWhile {α : Type} {p : α → Bool} {l : List α} {x : α} :
    x ∈ l ↔ x ∈ l.takeWhile p ∨ x ∈ l.dropWhile p := by
  rw [← List.mem_append, List.takeWhile_append_dropWhile]

theorem foldl_set_length (group : List ℕ) (v : ℕ) (owner : List ℕ) :
    (group.foldl (fun o i => o.set i v) owner).length = owner.length := by
  induction group generalizing owner with
  | nil => rfl
  | cons g group ih => simpa using ih (owner.set g v)

theorem foldl_set_get (group : List ℕ) (v : ℕ) (owner : List ℕ) {i : ℕ} (hi : i < owner.length) :
    (group.foldl (fun o i => o.set i v) owner)[i]? =
      if i ∈ group then some v else owner[i]? := by
  induction group generalizing owner with
  | nil => rfl
  | cons g group ih =>
    rw [List.foldl_cons, ih (owner.set g v) (by simpa using hi)]
    by_cases hg : i ∈ group
    · simp [hg]
    · by_cases heq : g = i
      · subst heq
        simp [hg, hi]
      · simp [hg, heq, Ne.symm heq]

theorem settleGroup_spec (g : ℕ) (group owner : List ℕ)
    (hids : ∀ i ∈ g :: group, ∀ j ∈ g :: group,
      (candidateAt cs i).symbolId = (candidateAt cs j).symbolId → i = j)
    (howner : ∀ i ∈ g :: group, owner[i]? = some (candidateAt cs i).symbolId) :
    ((∃ e, settleGroup cs (g :: group) owner = .error e) ↔ ¬ Agree cs (g :: group)) ∧
    ∀ out, settleGroup cs (g :: group) owner = .ok out →
      out.length = owner.length ∧ (∀ i, i ∉ g :: group → out[i]? = owner[i]?) ∧
      ∃ o, Canonical cs (g :: group) o ∧
        ∀ i ∈ g :: group, out[i]? = some (candidateAt cs o).symbolId := by
  have hself : ∀ i, extentsConflict (candidateAt cs i) (candidateAt cs i) = false := by
    intro i
    unfold extentsConflict
    cases (candidateAt cs i).declaredExtent <;> simp
  have hfirst : Canonical cs [g] g ∧ Agree cs [g] := by
    refine ⟨⟨List.mem_singleton_self g, fun i hi => .inl (List.mem_singleton.1 hi)⟩, ?_⟩
    intro i hi j hj
    rw [List.mem_singleton.1 hi, List.mem_singleton.1 hj]
    exact hself g
  have hlt : ∀ i ∈ g :: group, i < owner.length := fun i hi =>
    (List.getElem?_eq_some_iff.1 (howner i hi)).1
  unfold settleGroup
  by_cases hlen : 1 < (g :: group).length
  · rw [if_pos hlen]
    obtain ⟨herr, hok⟩ := groupLoop_spec hids ((g :: group).length - 1) 1 g (by omega) Nat.one_pos
      hfirst.1 hfirst.2
    change ((∃ e, (resolveGroup cs (g :: group) >>= _) = _) ↔ _) ∧ _
    have hres : resolveGroup cs (g :: group) = groupLoop cs (g :: group)
      ((g :: group).findIdx fun i => (candidateAt cs i).declaredExtent.isSome)
      ((g :: group).length - 1) 1 g := rfl
    rw [← hres] at herr hok
    cases hr : resolveGroup cs (g :: group) with
    | error e =>
      rw [hr] at herr
      exact ⟨⟨fun _ => herr.1 ⟨e, rfl⟩, fun _ => ⟨e, rfl⟩⟩, fun out h => by cases h⟩
    | ok o =>
      rw [hr] at herr
      have hcan := hok o hr
      refine ⟨⟨fun h => ?_, fun h => ?_⟩, fun out hout => ?_⟩
      · obtain ⟨e, he⟩ := h
        cases he
      · obtain ⟨e, he⟩ := herr.2 h
        cases he
      · obtain rfl := Except.ok.inj hout
        refine ⟨foldl_set_length _ _ _, fun i hi => ?_, o, hcan, fun i hi => ?_⟩
        · by_cases hio : i < owner.length
          · rw [foldl_set_get _ _ _ hio, if_neg hi]
          · rw [List.getElem?_eq_none (by rw [foldl_set_length]; omega),
              List.getElem?_eq_none (by omega)]
        · rw [foldl_set_get _ _ _ (hlt i hi), if_pos hi]
  · rw [if_neg hlen]
    obtain rfl : group = [] := by
      cases group with
      | nil => rfl
      | cons x xs =>
        simp only [List.length_cons] at hlen
        omega
    refine ⟨⟨fun h => ?_, fun h => absurd hfirst.2 h⟩, fun out hout => ?_⟩
    · obtain ⟨e, he⟩ := h
      cases he
    · obtain rfl := Except.ok.inj hout
      refine ⟨rfl, fun _ _ => rfl, g, hfirst.1, fun i hi => ?_⟩
      rw [howner i hi, List.mem_singleton.1 hi]

/-- `o` owns the start of `i`. -/
structure OwnedBy (cs : List AtomStartCandidate) (order : List ℕ) (i o : ℕ) : Prop where
  mem : o ∈ order
  same : SameStart (candidateAt cs o) (candidateAt cs i)
  best : ∀ j ∈ order, SameStart (candidateAt cs j) (candidateAt cs i) →
    j = o ∨ outranksAsAtomIdentity (candidateAt cs o) (candidateAt cs j) = true

def Nested (cs : List AtomStartCandidate) (order : List ℕ) : Prop :=
  ∃ i ∈ order, ∃ j ∈ order, SameStart (candidateAt cs i) (candidateAt cs j) ∧
    extentsConflict (candidateAt cs i) (candidateAt cs j) = true

theorem resolveGroups_nil (fuel : ℕ) (owner : List ℕ) :
    ((∃ e, resolveGroups cs fuel [] owner = .error e) ↔ Nested cs []) ∧
    ∀ out, resolveGroups cs fuel [] owner = .ok out →
      out.length = owner.length ∧ (∀ i, i ∉ ([] : List ℕ) → out[i]? = owner[i]?) ∧
      ∀ i ∈ ([] : List ℕ), ∃ o, OwnedBy cs [] i o ∧ out[i]? = some (candidateAt cs o).symbolId := by
  have hout : resolveGroups cs fuel [] owner = .ok owner := by
    cases fuel <;> rfl
  rw [hout]
  refine ⟨⟨fun h => ?_, fun h => ?_⟩, fun out hok => ?_⟩
  · obtain ⟨e, he⟩ := h
    cases he
  · obtain ⟨i, hi, -⟩ := h
    cases hi
  · obtain rfl := Except.ok.inj hok
    exact ⟨rfl, fun _ _ => rfl, fun i hi => by cases hi⟩

theorem resolveGroups_spec (fuel : ℕ) (order owner : List ℕ) (hfuel : order.length ≤ fuel)
    (hsorted : SortedStarts cs order)
    (hids : ∀ i ∈ order, ∀ j ∈ order,
      (candidateAt cs i).symbolId = (candidateAt cs j).symbolId → i = j)
    (hnodup : order.Nodup)
    (howner : ∀ i ∈ order, owner[i]? = some (candidateAt cs i).symbolId) :
    ((∃ e, resolveGroups cs fuel order owner = .error e) ↔ Nested cs order) ∧
    ∀ out, resolveGroups cs fuel order owner = .ok out →
      out.length = owner.length ∧ (∀ i, i ∉ order → out[i]? = owner[i]?) ∧
      ∀ i ∈ order, ∃ o, OwnedBy cs order i o ∧ out[i]? = some (candidateAt cs o).symbolId := by
  induction fuel generalizing order owner with
  | zero =>
    obtain rfl := List.length_eq_zero_iff.1 (Nat.le_zero.1 hfuel)
    exact resolveGroups_nil 0 owner
  | succ fuel ih =>
    cases order with
    | nil => exact resolveGroups_nil (fuel + 1) owner
    | cons g rest =>
      rw [resolveGroups]
      generalize hsame : (fun i => decide (SameStart (candidateAt cs i) (candidateAt cs g))) = same
      have hmem : ∀ i, i ∈ g :: rest ↔ i ∈ g :: rest.takeWhile same ∨ i ∈ rest.dropWhile same := by
        intro i
        rw [List.mem_cons, List.mem_cons, or_assoc, ← mem_takeWhile_dropWhile]
      -- the entries of the group start where its head does, and the others do not
      have hin : ∀ i ∈ g :: rest.takeWhile same,
        SameStart (candidateAt cs i) (candidateAt cs g) := by
        intro i hi
        rcases List.mem_cons.1 hi with rfl | hi
        · exact ⟨rfl, rfl⟩
        · have h := List.mem_takeWhile_imp hi
          rw [← hsame, decide_eq_true_iff] at h
          exact h
      have hout : ∀ i ∈ rest.dropWhile same, ¬ SameStart (candidateAt cs i) (candidateAt cs g) := by
        intro i hi
        rw [← hsame] at hi
        exact not_sameStart_of_mem_dropWhile hsorted hi
      have hapart : ∀ i ∈ rest.dropWhile same, i ∉ g :: rest.takeWhile same :=
        fun i hi hg => hout i hi (hin i hg)
      obtain ⟨herr, hok⟩ := settleGroup_spec g (rest.takeWhile same) owner
        (fun i hi j hj => hids i ((hmem i).2 (.inl hi)) j ((hmem j).2 (.inl hj)))
        (fun i hi => howner i ((hmem i).2 (.inl hi)))
      cases hset : settleGroup cs (g :: rest.takeWhile same) owner with
      | error e =>
        rw [hset] at herr
        refine ⟨⟨fun _ => ?_, fun _ => ⟨e, rfl⟩⟩, fun out h => by cases h⟩
        have hdis := herr.1 ⟨e, rfl⟩
        unfold Agree at hdis
        push Not at hdis
        obtain ⟨i, hi, j, hj, hconf⟩ := hdis
        have hi' := hin i hi
        have hj' := hin j hj
        exact ⟨i, (hmem i).2 (.inl hi), j, (hmem j).2 (.inl hj),
          ⟨hi'.1.trans hj'.1.symm, hi'.2.trans hj'.2.symm⟩, by simpa using hconf⟩
      | ok owner' =>
        rw [hset] at herr
        have hagree : Agree cs (g :: rest.takeWhile same) := by
          by_contra hdis
          obtain ⟨e, he⟩ := herr.2 hdis
          cases he
        obtain ⟨hlen, hkeep, o, hcan, hown⟩ := hok owner' hset
        obtain ⟨herr', hok'⟩ := ih (rest.dropWhile same) owner'
          (by
            have h := (List.dropWhile_sublist same (l := rest)).length_le
            simp only [List.length_cons] at hfuel
            omega)
          ((List.pairwise_cons.1 hsorted).2.sublist (List.dropWhile_sublist same))
          (fun i hi j hj => hids i ((hmem i).2 (.inr hi)) j ((hmem j).2 (.inr hj)))
          ((List.nodup_cons.1 hnodup).2.sublist (List.dropWhile_sublist same))
          (fun i hi => by
            rw [hkeep i (hapart i hi)]
            exact howner i ((hmem i).2 (.inr hi)))
        change ((∃ e, resolveGroups cs fuel (rest.dropWhile same) owner' = .error e) ↔ _) ∧
          ∀ out, resolveGroups cs fuel (rest.dropWhile same) owner' = .ok out → _
        refine ⟨herr'.trans ⟨fun h => ?_, fun h => ?_⟩, fun out hres => ?_⟩
        · obtain ⟨i, hi, j, hj, h⟩ := h
          exact ⟨i, (hmem i).2 (.inr hi), j, (hmem j).2 (.inr hj), h⟩
        · obtain ⟨i, hi, j, hj, hij, hconf⟩ := h
          rcases (hmem i).1 hi with hi | hi <;> rcases (hmem j).1 hj with hj | hj
          · rw [hagree i hi j hj] at hconf
            cases hconf
          · have hi' := hin i hi
            exact absurd ⟨hij.1.symm.trans hi'.1, hij.2.symm.trans hi'.2⟩ (hout j hj)
          · have hj' := hin j hj
            exact absurd ⟨hij.1.trans hj'.1, hij.2.trans hj'.2⟩ (hout i hi)
          · exact ⟨i, hi, j, hj, hij, hconf⟩
        · obtain ⟨hlen', hkeep', hown'⟩ := hok' out hres
          refine ⟨hlen'.trans hlen, fun i hi => ?_, fun i hi => ?_⟩
          · rw [hkeep' i fun h => hi ((hmem i).2 (.inr h)),
              hkeep i fun h => hi ((hmem i).2 (.inl h))]
          · rcases (hmem i).1 hi with hig | hir
            · have hi' := hin i hig
              have ho' := hin o hcan.1
              refine ⟨o, ⟨(hmem o).2 (.inl hcan.1),
                ⟨ho'.1.trans hi'.1.symm, ho'.2.trans hi'.2.symm⟩,
                fun j hj hji => ?_⟩, ?_⟩
              · rcases (hmem j).1 hj with hj | hj
                · exact hcan.2 j hj
                · exact absurd ⟨hji.1.trans hi'.1, hji.2.trans hi'.2⟩ (hout j hj)
              · rw [hkeep' i fun h => hapart i h hig]
                exact hown i hig
            · obtain ⟨o', ho', hget⟩ := hown' i hir
              refine ⟨o', ⟨(hmem o').2 (.inr ho'.mem), ho'.same, fun j hj hji => ?_⟩, hget⟩
              rcases (hmem j).1 hj with hj | hj
              · have hj' := hin j hj
                exact absurd ⟨hji.1.symm.trans hj'.1, hji.2.symm.trans hj'.2⟩ (hout i hir)
              · exact ho'.best j hj hji

end Walk

section Canonical

variable {cs : List AtomStartCandidate}

/-- The candidate `o` owns the atom that `a` starts: it is the one of the candidates that start
there which outranks all others. -/
structure OwnsAtom (cs : List AtomStartCandidate) (a o : AtomStartCandidate) : Prop where
  mem : o ∈ cs
  same : SameStart o a
  best : ∀ b ∈ cs, SameStart b a → b = o ∨ outranksAsAtomIdentity o b = true

theorem OwnsAtom.unique {a b o o' : AtomStartCandidate} (h : OwnsAtom cs a o)
    (h' : OwnsAtom cs b o') (hab : SameStart a b) : o = o' := by
  rcases h.best o' h'.mem ⟨h'.same.1.trans hab.1.symm, h'.same.2.trans hab.2.symm⟩ with heq | hrank
  · exact heq.symm
  rcases h'.best o h.mem ⟨h.same.1.trans hab.1, h.same.2.trans hab.2⟩ with heq | hrank'
  · exact heq
  · rw [outranks_asymm hrank] at hrank'
    cases hrank'

theorem OwnsAtom.perm {cs' : List AtomStartCandidate} (hperm : cs.Perm cs')
    {a o : AtomStartCandidate} (h : OwnsAtom cs a o) : OwnsAtom cs' a o :=
  ⟨hperm.mem_iff.1 h.mem, h.same, fun b hb => h.best b (hperm.mem_iff.2 hb)⟩

theorem candidateAt_mem {i : ℕ} (hi : i < cs.length) : candidateAt cs i ∈ cs := by
  rw [candidateAt, List.getD_eq_getElem _ _ hi]
  exact List.getElem_mem hi

theorem candidateAt_eq {i : ℕ} {a : AtomStartCandidate} (hi : cs[i]? = some a) :
    candidateAt cs i = a := by
  rw [candidateAt, List.getD_eq_getElem?_getD, hi, Option.getD_some]

theorem sortedStarts_mergeSort (order : List ℕ) : SortedStarts cs (order.mergeSort fun a b =>
    !candidateBefore (candidateAt cs b) (candidateAt cs a)) := by
  refine (List.pairwise_mergeSort ?_ ?_ order).imp fun hab => ?_
  · intro a b c hab hbc
    simp only [Bool.not_eq_true', candidateBefore_eq_false] at hab hbc ⊢
    omega
  · intro a b
    simp only [Bool.or_eq_true, Bool.not_eq_true', candidateBefore_eq_false]
    omega
  · simpa using hab

theorem resolve_spec (hids : (cs.map AtomStartCandidate.symbolId).Nodup) :
    ((∃ e, resolveEqualOffsetAtomAliases cs = .error e) ↔
      ∃ a ∈ cs, ∃ b ∈ cs, SameStart a b ∧ extentsConflict a b = true) ∧
    ∀ owners, resolveEqualOffsetAtomAliases cs = .ok owners →
      owners.length = cs.length ∧
      ∀ (i : ℕ) (a : AtomStartCandidate), cs[i]? = some a →
        ∃ o, OwnsAtom cs a o ∧ owners[i]? = some o.symbolId := by
  have hperm := List.mergeSort_perm (List.range cs.length) fun a b =>
    !candidateBefore (candidateAt cs b) (candidateAt cs a)
  have hmem : ∀ i, i ∈ (List.range cs.length).mergeSort (fun a b =>
      !candidateBefore (candidateAt cs b) (candidateAt cs a)) ↔ i < cs.length := by
    intro i
    rw [hperm.mem_iff, List.mem_range]
  obtain ⟨herr, hok⟩ := resolveGroups_spec _ _ (cs.map AtomStartCandidate.symbolId)
    (Nat.le_refl _) (sortedStarts_mergeSort (List.range cs.length))
    (fun i hi j hj heq => by
      rw [hmem] at hi hj
      rw [candidateAt, candidateAt, List.getD_eq_getElem _ _ hi, List.getD_eq_getElem _ _ hj] at heq
      exact (List.Nodup.of_map _ hids).getElem_inj_iff.1
        (List.inj_on_of_nodup_map hids (List.getElem_mem hi) (List.getElem_mem hj) heq))
    (hperm.nodup_iff.2 List.nodup_range)
    (fun i hi => by
      rw [hmem] at hi
      rw [List.getElem?_map, List.getElem?_eq_getElem hi, candidateAt, List.getD_eq_getElem _ _ hi]
      rfl)
  refine ⟨Iff.trans herr ⟨fun h => ?_, fun h => ?_⟩, fun owners howners => ?_⟩
  · obtain ⟨i, hi, j, hj, hsame, hconf⟩ := h
    exact ⟨_, candidateAt_mem ((hmem i).1 hi), _, candidateAt_mem ((hmem j).1 hj), hsame, hconf⟩
  · obtain ⟨a, ha, b, hb, hsame, hconf⟩ := h
    obtain ⟨i, hi⟩ := List.mem_iff_getElem?.1 ha
    obtain ⟨j, hj⟩ := List.mem_iff_getElem?.1 hb
    rw [← candidateAt_eq hi, ← candidateAt_eq hj] at hsame hconf
    exact ⟨i, (hmem i).2 (List.getElem?_eq_some_iff.1 hi).1, j,
      (hmem j).2 (List.getElem?_eq_some_iff.1 hj).1, hsame, hconf⟩
  · obtain ⟨hlen, -, hown⟩ := hok owners howners
    refine ⟨by simpa using hlen, fun i a hi => ?_⟩
    obtain ⟨o, ho, hget⟩ := hown i ((hmem i).2 (List.getElem?_eq_some_iff.1 hi).1)
    rw [← candidateAt_eq hi]
    refine ⟨candidateAt cs o, ⟨candidateAt_mem ((hmem o).1 ho.mem), ho.same, fun b hb hsame => ?_⟩,
      hget⟩
    obtain ⟨j, hj⟩ := List.mem_iff_getElem?.1 hb
    rw [← candidateAt_eq hj] at hsame ⊢
    rcases ho.best j ((hmem j).2 (List.getElem?_eq_some_iff.1 hj).1) hsame with rfl | hrank
    · exact .inl rfl
    · exact .inr hrank

/-- **Owners are canonical.** With distinct symbols a list is refused if and only if two candidates
at one place declare different extents. The answer does not depend on the order of the candidates.
-/
theorem resolveEqualOffsetAtomAliases_canonical (cs : List AtomStartCandidate)
    (hids : (cs.map AtomStartCandidate.symbolId).Nodup) :
    ((∃ e, resolveEqualOffsetAtomAliases cs = .error e) ↔
      ∃ a ∈ cs, ∃ b ∈ cs, SameStart a b ∧
        ∃ m n, a.declaredExtent = some m ∧ b.declaredExtent = some n ∧ m ≠ n) ∧
    (∀ owners, resolveEqualOffsetAtomAliases cs = .ok owners → owners.length = cs.length ∧
      (∀ (i : ℕ) (a : AtomStartCandidate), cs[i]? = some a →
        ∃ o, OwnsAtom cs a o ∧ owners[i]? = some o.symbolId) ∧
      (∀ (i j : ℕ) (a b : AtomStartCandidate), cs[i]? = some a → cs[j]? = some b →
        SameStart a b → owners[i]? = owners[j]?) ∧
      ∀ (i : ℕ) (a : AtomStartCandidate), cs[i]? = some a → (∀ b ∈ cs, SameStart b a → b = a) →
        owners[i]? = some a.symbolId) ∧
    ∀ cs', cs.Perm cs' →
      ((∃ e, resolveEqualOffsetAtomAliases cs = .error e) ↔
        ∃ e, resolveEqualOffsetAtomAliases cs' = .error e) ∧
      ∀ owners owners', resolveEqualOffsetAtomAliases cs = .ok owners →
        resolveEqualOffsetAtomAliases cs' = .ok owners' →
        ∀ (i j : ℕ) (a : AtomStartCandidate), cs[i]? = some a → cs'[j]? = some a →
          owners[i]? = owners'[j]? := by
  obtain ⟨herr, hok⟩ := resolve_spec hids
  refine ⟨by simpa only [extentsConflict_iff] using herr, fun owners howners => ?_,
    fun cs' hperm => ?_⟩
  · obtain ⟨hlen, hown⟩ := hok owners howners
    refine ⟨hlen, hown, fun i j a b hi hj hab => ?_, fun i a hi halone => ?_⟩
    · obtain ⟨o, ho, hget⟩ := hown i a hi
      obtain ⟨o', ho', hget'⟩ := hown j b hj
      rw [hget, hget', ho.unique ho' hab]
    · obtain ⟨o, ho, hget⟩ := hown i a hi
      rw [hget, halone o ho.mem ho.same]
  · obtain ⟨herr', hok'⟩ := resolve_spec ((hperm.map _).nodup_iff.1 hids)
    refine ⟨?_, fun owners owners' howners howners' i j a hi hj => ?_⟩
    · rw [herr, herr']
      simp only [hperm.mem_iff]
    · obtain ⟨o, ho, hget⟩ := (hok owners howners).2 i a hi
      obtain ⟨o', ho', hget'⟩ := (hok' owners' howners').2 j a hj
      rw [hget, hget', (ho.perm hperm).unique ho' ⟨rfl, rfl⟩]

theorem resolveEqualOffsetAtomAliases_canonical_label :
    let label : AtomStartCandidate := ⟨1, 0, none, 3, .«local», .default, "ltmp0", "text"⟩
    let other : AtomStartCandidate := ⟨1, 8, none, 4, .global, .default, "_other", "text"⟩
    let outer : AtomStartCandidate := ⟨1, 0, some 8, 7, .global, .default, "_outer", "text"⟩
    ∃ owners, resolveEqualOffsetAtomAliases [label, other, outer] = .ok owners ∧
      owners[0]? = owners[2]? ∧ owners[1]? = some 4 := by
  intro label other outer
  obtain ⟨herr, hok, -⟩ :=
    resolveEqualOffsetAtomAliases_canonical [label, other, outer] (by decide)
  cases h : resolveEqualOffsetAtomAliases [label, other, outer] with
  | error e =>
    obtain ⟨a, ha, b, hb, -, m, n, hm, hn, hne⟩ := herr.1 ⟨e, h⟩
    -- only one of the three declares an extent
    have hall : ∀ c ∈ [label, other, outer], ∀ n, c.declaredExtent = some n → n = 8 := by
      intro c hc n hn
      fin_cases hc
      · cases hn
      · cases hn
      · exact (Option.some.inj hn).symm
    exact absurd ((hall a ha m hm).trans (hall b hb n hn).symm) hne
  | ok owners =>
    obtain ⟨-, -, hsame, halone⟩ := hok owners h
    exact ⟨owners, rfl, hsame 0 2 label outer rfl rfl ⟨rfl, rfl⟩, halone 1 other rfl (by decide)⟩

end Canonical

end DssPrime.AtomCoverage
