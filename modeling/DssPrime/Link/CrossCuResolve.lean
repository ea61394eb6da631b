import DssPrime.Mir.Basic

/-!
# Resolution of definitions across units

`resolveCrossCuDefs` of `cross_cu_resolve.cpp` folds the definitions of all units into one winner a
name: a strong definition shadows the weak ones, and among equals the lowest key wins. The winner is
replaced along the way, so the fold is followed by an invariant: `Resolved` says of every name what
the table holds after a prefix of the definitions.

The pairs that a conflict names, and the broken promises of weak duplicates, do depend on the order;
nothing is said of them.
-/

namespace DssPrime

/-- What a weak definition promises of its duplicates, the stricter promise last. -/
inductive DuplicateMatch where
  | any | sameSize | exactContent
  deriving DecidableEq

def DuplicateMatch.strictness : DuplicateMatch → ℕ
  | .any => 0
  | .sameSize => 1
  | .exactContent => 2

def stricterDuplicateMatch (a b : DuplicateMatch) : DuplicateMatch :=
  if b.strictness ≤ a.strictness then a else b

structure LinkedSymbolKey where
  cuId : ℕ
  symbol : ℕ
  deriving DecidableEq

def lessKey (a b : LinkedSymbolKey) : Bool :=
  if a.cuId ≠ b.cuId then decide (a.cuId < b.cuId) else decide (a.symbol < b.symbol)

/-- A definition that takes part in the resolution. -/
structure CrossCuDef where
  name : String
  binding : SymbolBinding
  key : LinkedSymbolKey
  duplicateMatch : DuplicateMatch
  bodySize : ℕ
  /-- The bytes it stores; none for a zero-filled one. -/
  body : List UInt8
  deriving DecidableEq

structure CrossCuConflict where
  name : String
  existing : LinkedSymbolKey
  incoming : LinkedSymbolKey

/-- Two weak definitions of a name that break a promise. -/
structure CrossCuDuplicateMismatch where
  name : String
  existing : LinkedSymbolKey
  incoming : LinkedSymbolKey
  required : DuplicateMatch
  existingSize : ℕ
  incomingSize : ℕ
  deriving DecidableEq

/-- The state of the fold.  The table holds the winner of a name so far, with all of it, since the
next definition is judged against it. -/
structure ResolveState where
  table : String → Option CrossCuDef
  conflicts : List CrossCuConflict
  duplicateMismatches : List CrossCuDuplicateMismatch

/-- The winners of the names and what went wrong. -/
structure CrossCuResolution where
  winners : String → Option LinkedSymbolKey
  conflicts : List CrossCuConflict
  duplicateMismatches : List CrossCuDuplicateMismatch

def byteAt (body : List UInt8) (i : ℕ) : UInt8 := body.getD i 0

def keepsPromise (required : DuplicateMatch) (cur d : CrossCuDef) : Bool :=
  decide (cur.bodySize = d.bodySize) &&
    (decide (required ≠ .exactContent) ||
      (List.range cur.bodySize).all fun i => decide (byteAt cur.body i = byteAt d.body i))

/-- The promise of two weak definitions that meet; a broken one is recorded. -/
def checkDuplicatePromise (cur d : CrossCuDef) : List CrossCuDuplicateMismatch :=
  let required := stricterDuplicateMatch cur.duplicateMatch d.duplicateMatch
  if required = .any then []
  else if keepsPromise required cur d then []
  else [⟨d.name, cur.key, d.key, required, cur.bodySize, d.bodySize⟩]

def lower (cur d : CrossCuDef) : CrossCuDef := if lessKey d.key cur.key then d else cur

def resolveStep (st : ResolveState) (d : CrossCuDef) : ResolveState :=
  if d.binding = .«local» then st
  else if d.name = "" then st
  else
    match st.table d.name with
    | none => { st with table := Function.update st.table d.name (some d) }
    | some cur =>
      if d.binding = .global ∧ cur.binding = .global then
        { st with
          conflicts := st.conflicts ++ [⟨d.name, cur.key, d.key⟩]
          table := Function.update st.table d.name (some (lower cur d)) }
      else if d.binding = .global then
        { st with table := Function.update st.table d.name (some d) }
      else if cur.binding ≠ .global then
        { st with
          duplicateMismatches := st.duplicateMismatches ++ checkDuplicatePromise cur d
          table := Function.update st.table d.name (some (lower cur d)) }
      else st

def resolveFold (defs : List CrossCuDef) : ResolveState :=
  defs.foldl resolveStep ⟨fun _ => none, [], []⟩

def resolveCrossCuDefs (defs : List CrossCuDef) : CrossCuResolution :=
  let st := resolveFold defs
  ⟨fun name => (st.table name).map CrossCuDef.key, st.conflicts, st.duplicateMismatches⟩

def keysOf (defs : List CrossCuDef) (binding : SymbolBinding) (name : String) :
    List LinkedSymbolKey :=
  (defs.filter fun d => d.name = name ∧ d.name ≠ "" ∧ d.binding = binding).map CrossCuDef.key

def IsLowest (keys : List LinkedSymbolKey) (k : LinkedSymbolKey) : Prop :=
  k ∈ keys ∧ ∀ k' ∈ keys, lessKey k' k = false

/-- A key wins a name: it is the lowest strong one, or there is no strong one and it is the lowest
weak one. -/
def Wins (defs : List CrossCuDef) (name : String) (k : LinkedSymbolKey) : Prop :=
  IsLowest (keysOf defs .global name) k ∨
    keysOf defs .global name = [] ∧ IsLowest (keysOf defs .weak name) k

theorem lessKey_irrefl (a : LinkedSymbolKey) : lessKey a a = false := by
  simp [lessKey]

theorem lessKey_eq_true {a b : LinkedSymbolKey} :
    lessKey a b = true ↔ a.cuId < b.cuId ∨ a.cuId = b.cuId ∧ a.symbol < b.symbol := by
  unfold lessKey
  split
  · simp
    omega
  · simp
    omega

theorem eq_of_lessKey_false {a b : LinkedSymbolKey} (hab : lessKey a b = false)
    (hba : lessKey b a = false) : a = b := by
  rw [Bool.eq_false_iff, Ne, lessKey_eq_true] at hab hba
  cases a
  cases b
  simp only [LinkedSymbolKey.mk.injEq]
  simp only at hab hba
  omega

theorem IsLowest.unique {keys : List LinkedSymbolKey} {k k' : LinkedSymbolKey}
    (h : IsLowest keys k) (h' : IsLowest keys k') : k = k' :=
  eq_of_lessKey_false (h'.2 k h.1) (h.2 k' h'.1)

theorem isLowest_singleton (k : LinkedSymbolKey) : IsLowest [k] k := by
  constructor
  · exact List.mem_singleton_self k
  · intro k' hk'
    rw [List.mem_singleton.mp hk']
    exact lessKey_irrefl k

theorem IsLowest.lower {keys : List LinkedSymbolKey} {cur d : CrossCuDef}
    (h : IsLowest keys cur.key) : IsLowest (keys ++ [d.key]) (lower cur d).key := by
  unfold DssPrime.lower
  by_cases hlt : lessKey d.key cur.key = true
  · rw [if_pos hlt]
    refine ⟨by simp, fun k' hk' => ?_⟩
    rcases List.mem_append.mp hk' with hk' | hk'
    · -- the key is not below the old winner, and the new one is
      have hge := h.2 k' hk'
      rw [Bool.eq_false_iff, Ne, lessKey_eq_true] at hge ⊢
      rw [lessKey_eq_true] at hlt
      omega
    · rw [List.mem_singleton.mp hk']
      exact lessKey_irrefl d.key
  · rw [if_neg hlt]
    refine ⟨List.mem_append_left _ h.1, fun k' hk' => ?_⟩
    rcases List.mem_append.mp hk' with hk' | hk'
    · exact h.2 k' hk'
    · rw [List.mem_singleton.mp hk']
      exact Bool.eq_false_iff.mpr hlt

theorem Wins.unique {defs : List CrossCuDef} {name : String} {k k' : LinkedSymbolKey}
    (h : Wins defs name k) (h' : Wins defs name k') : k = k' := by
  rcases h with h | ⟨hnil, h⟩ <;> rcases h' with h' | ⟨hnil', h'⟩
  · exact h.unique h'
  · rw [IsLowest, hnil'] at h
    cases h.1
  · rw [IsLowest, hnil] at h'
    cases h'.1
  · exact h.unique h'

theorem keysOf_append (pre post : List CrossCuDef) (binding : SymbolBinding) (name : String) :
    keysOf (pre ++ post) binding name = keysOf pre binding name ++ keysOf post binding name := by
  simp [keysOf]

theorem keysOf_singleton (d : CrossCuDef) (binding : SymbolBinding) (name : String) :
    keysOf [d] binding name =
      if d.name = name ∧ d.name ≠ "" ∧ d.binding = binding then [d.key] else [] := by
  unfold keysOf
  by_cases h : d.name = name ∧ d.name ≠ "" ∧ d.binding = binding
  · rw [if_pos h, List.filter_cons_of_pos (by simpa using h)]
    rfl
  · rw [if_neg h, List.filter_cons_of_neg (by simpa using h)]
    rfl

theorem keysOf_perm {defs defs' : List CrossCuDef} (h : defs.Perm defs') (binding : SymbolBinding)
    (name : String) : (keysOf defs binding name).Perm (keysOf defs' binding name) :=
  (h.filter _).map _

theorem isLowest_perm {keys keys' : List LinkedSymbolKey} (h : keys.Perm keys')
    (k : LinkedSymbolKey) : IsLowest keys k ↔ IsLowest keys' k := by
  simp only [IsLowest, h.mem_iff]

theorem wins_perm {defs defs' : List CrossCuDef} (h : defs.Perm defs') (name : String)
    (k : LinkedSymbolKey) : Wins defs name k ↔ Wins defs' name k := by
  have hg := keysOf_perm h .global name
  have hw := keysOf_perm h .weak name
  have hnil : keysOf defs .global name = [] ↔ keysOf defs' .global name = [] := by
    constructor
    · intro h0
      exact (h0 ▸ hg).nil_eq.symm
    · intro h0
      exact (h0 ▸ hg.symm).nil_eq.symm
  rw [Wins, Wins, isLowest_perm hg, isLowest_perm hw, hnil]

/-- What the table holds of a name: nothing if nothing defines it, else a winner with its
binding. -/
def RowOk (defs : List CrossCuDef) (name : String) : Option CrossCuDef → Prop
  | none => keysOf defs .global name = [] ∧ keysOf defs .weak name = []
  | some w =>
    w.binding = .global ∧ IsLowest (keysOf defs .global name) w.key ∨
      w.binding = .weak ∧ keysOf defs .global name = [] ∧ IsLowest (keysOf defs .weak name) w.key

def conflictsOf (conflicts : List CrossCuConflict) (name : String) : ℕ :=
  (conflicts.filter fun c => c.name = name).length

/-- The state after the definitions: every row is right, and every name has one conflict less than
it has strong definitions. -/
structure Resolved (defs : List CrossCuDef) (st : ResolveState) : Prop where
  row : ∀ name, RowOk defs name (st.table name)
  count : ∀ name, conflictsOf st.conflicts name = (keysOf defs .global name).length - 1

theorem resolved_nil : Resolved [] ⟨fun _ => none, [], []⟩ :=
  ⟨fun _ => ⟨rfl, rfl⟩, fun _ => rfl⟩

theorem keysOf_snoc_of_skipped {d : CrossCuDef} (h : d.binding = .«local» ∨ d.name = "")
    (pre : List CrossCuDef) (binding : SymbolBinding) (hb : binding ≠ .«local») (name : String) :
    keysOf (pre ++ [d]) binding name = keysOf pre binding name := by
  rw [keysOf_append, keysOf_singleton, if_neg, List.append_nil]
  rintro ⟨-, hne, hbind⟩
  rcases h with h | h
  · exact hb (hbind ▸ h)
  · exact hne h

theorem keysOf_snoc_other {d : CrossCuDef} (pre : List CrossCuDef) {binding : SymbolBinding}
    {name : String} (h : d.name ≠ name ∨ d.binding ≠ binding) :
    keysOf (pre ++ [d]) binding name = keysOf pre binding name := by
  rw [keysOf_append, keysOf_singleton, if_neg, List.append_nil]
  rintro ⟨hname, -, hbind⟩
  exact h.elim (· hname) (· hbind)

theorem keysOf_snoc_self {d : CrossCuDef} (pre : List CrossCuDef) (hname : d.name ≠ "") :
    keysOf (pre ++ [d]) d.binding d.name = keysOf pre d.binding d.name ++ [d.key] := by
  rw [keysOf_append, keysOf_singleton, if_pos ⟨rfl, hname, rfl⟩]

theorem RowOk.snoc_other {pre : List CrossCuDef} {d : CrossCuDef} {name : String}
    {row : Option CrossCuDef} (h : RowOk pre name row) (hname : d.name ≠ name) :
    RowOk (pre ++ [d]) name row := by
  cases row with
  | none =>
    obtain ⟨hg, hw⟩ := h
    exact ⟨(keysOf_snoc_other pre (.inl hname)).trans hg,
      (keysOf_snoc_other pre (.inl hname)).trans hw⟩
  | some w =>
    simp only [RowOk, keysOf_snoc_other pre (.inl hname)]
    exact h

theorem conflictsOf_snoc (conflicts : List CrossCuConflict) (c : CrossCuConflict) (name : String) :
    conflictsOf (conflicts ++ [c]) name =
      conflictsOf conflicts name + if c.name = name then 1 else 0 := by
  unfold conflictsOf
  rw [List.filter_append, List.length_append]
  split
  · next h => simp [h]
  · next h => simp [h]

theorem rows_update {pre : List CrossCuDef} {d : CrossCuDef} {st : ResolveState}
    {row : CrossCuDef} (h : ∀ name, RowOk pre name (st.table name))
    (hrow : RowOk (pre ++ [d]) d.name (some row)) (name : String) :
    RowOk (pre ++ [d]) name (Function.update st.table d.name (some row) name) := by
  by_cases hname : name = d.name
  · subst hname
    rw [Function.update_self]
    exact hrow
  · rw [Function.update_of_ne hname]
    exact (h name).snoc_other (Ne.symm hname)

theorem count_keep {pre : List CrossCuDef} {d : CrossCuDef} {st : ResolveState}
    (h : ∀ name, conflictsOf st.conflicts name = (keysOf pre .global name).length - 1)
    (hd : d.binding ≠ .global ∨ keysOf pre .global d.name = []) (name : String) :
    conflictsOf st.conflicts name = (keysOf (pre ++ [d]) .global name).length - 1 := by
  rw [h name]
  by_cases hg : d.binding = .global ∧ d.name = name
  · obtain ⟨hbind, rfl⟩ := hg
    have hnil := hd.resolve_left (· hbind)
    rw [keysOf_append, hnil, keysOf_singleton]
    split <;> simp
  · rw [keysOf_snoc_other pre]
    by_cases hname : d.name = name
    · exact .inr fun hbind => hg ⟨hbind, hname⟩
    · exact .inl hname

theorem step_resolved {pre : List CrossCuDef} {st : ResolveState} (h : Resolved pre st)
    (d : CrossCuDef) : Resolved (pre ++ [d]) (resolveStep st d) := by
  unfold resolveStep
  by_cases hskip : d.binding = .«local» ∨ d.name = ""
  · have hg := keysOf_snoc_of_skipped hskip pre .global (by decide)
    have hw := keysOf_snoc_of_skipped hskip pre .weak (by decide)
    have hres : Resolved (pre ++ [d]) st := by
      refine ⟨fun name => ?_, fun name => ?_⟩
      · have hrow := h.row name
        revert hrow
        cases st.table name <;> simp [RowOk, hg, hw]
      · rw [hg]
        exact h.count name
    rcases hskip with hskip | hskip
    · rw [if_pos hskip]
      exact hres
    · rw [if_pos hskip, ite_self]
      exact hres
  · obtain ⟨hbind, hname⟩ := not_or.mp hskip
    rw [if_neg hbind, if_neg hname]
    have hself := keysOf_snoc_self pre hname
    have hrow := h.row d.name
    cases htable : st.table d.name with
    | none =>
      rw [htable] at hrow
      obtain ⟨hg, hw⟩ := hrow
      refine ⟨rows_update h.row ?_, count_keep h.count (.inr hg)⟩
      -- the first definition of the name
      cases hb : d.binding with
      | «local» => exact absurd hb hbind
      | global =>
        rw [hb, hg] at hself
        exact .inl ⟨hb, hself ▸ isLowest_singleton d.key⟩
      | weak =>
        rw [hb, hw] at hself
        refine .inr ⟨hb, ?_, hself ▸ isLowest_singleton d.key⟩
        rw [keysOf_snoc_other pre (.inr (by simp [hb])), hg]
    | some cur =>
      rw [htable] at hrow
      dsimp only
      rcases hrow with ⟨hcur, hlow⟩ | ⟨hcur, hg, hlow⟩
      · by_cases hb : d.binding = .global
        · -- two strong definitions
          rw [if_pos ⟨hb, hcur⟩]
          rw [hb] at hself
          refine ⟨rows_update h.row (.inl ⟨?_, hself ▸ hlow.lower⟩), fun name => ?_⟩
          · unfold lower
            split <;> assumption
          · have hcount := h.count name
            show conflictsOf (st.conflicts ++ [_]) name = _
            rw [conflictsOf_snoc, hcount]
            by_cases hn : d.name = name
            · subst hn
              have hpos := List.length_pos_of_mem hlow.1
              rw [if_pos rfl, hself, List.length_append, List.length_singleton]
              omega
            · rw [if_neg hn, keysOf_snoc_other pre (.inl hn), Nat.add_zero]
        · -- a strong definition shadows the new weak one
          rw [if_neg (fun hc => hb hc.1), if_neg hb, if_neg (not_not.mpr hcur)]
          refine ⟨fun name => ?_, count_keep h.count (.inl hb)⟩
          by_cases hn : d.name = name
          · subst hn
            rw [htable]
            refine .inl ⟨hcur, ?_⟩
            rw [keysOf_snoc_other pre (.inr hb)]
            exact hlow
          · exact (h.row name).snoc_other hn
      · have hcur' : cur.binding ≠ .global := by rw [hcur]; decide
        rw [if_neg (fun hc => hcur' hc.2)]
        by_cases hb : d.binding = .global
        · -- a strong definition shadows the weak one
          rw [if_pos hb]
          rw [hb, hg] at hself
          exact ⟨rows_update h.row (.inl ⟨hb, hself ▸ isLowest_singleton d.key⟩),
            count_keep h.count (.inr hg)⟩
        · -- two weak definitions
          have hweak : d.binding = .weak := by
            cases hd : d.binding with
            | «local» => exact absurd hd hbind
            | global => exact absurd hd hb
            | weak => rfl
          rw [if_neg hb, if_pos hcur']
          rw [hweak] at hself
          refine ⟨rows_update h.row (.inr ⟨?_, ?_, hself ▸ hlow.lower⟩),
            count_keep h.count (.inl hb)⟩
          · unfold lower
            split <;> assumption
          · rw [keysOf_snoc_other pre (.inr hb), hg]

theorem resolveFold_resolved (defs : List CrossCuDef) : Resolved defs (resolveFold defs) := by
  induction defs using List.reverseRecOn with
  | nil => exact resolved_nil
  | append_singleton pre d ih =>
    rw [resolveFold, List.foldl_append]
    exact step_resolved ih d

theorem winners_eq_some_iff (defs : List CrossCuDef) (name : String) (k : LinkedSymbolKey) :
    (resolveCrossCuDefs defs).winners name = some k ↔ Wins defs name k := by
  have hrow := (resolveFold_resolved defs).row name
  show ((resolveFold defs).table name).map CrossCuDef.key = some k ↔ _
  cases htable : (resolveFold defs).table name with
  | none =>
    rw [htable] at hrow
    obtain ⟨hg, hw⟩ := hrow
    simp [Wins, IsLowest, hg, hw]
  | some w =>
    rw [htable] at hrow
    have hwins : Wins defs name w.key := by
      rcases hrow with ⟨-, hlow⟩ | ⟨-, hg, hlow⟩
      · exact .inl hlow
      · exact .inr ⟨hg, hlow⟩
    rw [Option.map_some, Option.some_inj]
    constructor
    · rintro rfl
      exact hwins
    · exact hwins.unique

/-- A permutation of the definitions changes neither the winners nor how many conflicts a name has;
the winner is the lowest strong definition of the name, or the lowest weak one if none is strong,
and there is one conflict less than there are strong definitions. -/
theorem resolveCrossCuDefs_perm {defs defs' : List CrossCuDef} (h : defs.Perm defs') :
    (resolveCrossCuDefs defs).winners = (resolveCrossCuDefs defs').winners ∧
    (∀ name k, (resolveCrossCuDefs defs).winners name = some k ↔ Wins defs name k) ∧
    ∀ name,
      conflictsOf (resolveCrossCuDefs defs).conflicts name =
        conflictsOf (resolveCrossCuDefs defs').conflicts name ∧
      conflictsOf (resolveCrossCuDefs defs).conflicts name =
        (keysOf defs .global name).length - 1 := by
  refine ⟨?_, winners_eq_some_iff defs, fun name => ⟨?_, (resolveFold_resolved defs).count name⟩⟩
  · funext name
    refine Option.ext fun k => ?_
    rw [winners_eq_some_iff, winners_eq_some_iff]
    exact wins_perm h name k
  · have hcount := (resolveFold_resolved defs).count name
    have hcount' := (resolveFold_resolved defs').count name
    rw [show (resolveCrossCuDefs defs).conflicts = (resolveFold defs).conflicts from rfl,
      show (resolveCrossCuDefs defs').conflicts = (resolveFold defs').conflicts from rfl,
      hcount, hcount', (keysOf_perm h .global name).length_eq]

/-- A weak definition, two strong ones and a local one of a name, in two orders. -/
theorem resolveCrossCuDefs_perm_mixed :
    let a : CrossCuDef := ⟨"f", .weak, ⟨0, 1⟩, .any, 0, []⟩
    let b : CrossCuDef := ⟨"f", .global, ⟨2, 1⟩, .any, 0, []⟩
    let c : CrossCuDef := ⟨"f", .global, ⟨1, 5⟩, .any, 0, []⟩
    let d : CrossCuDef := ⟨"f", .«local», ⟨0, 0⟩, .any, 0, []⟩
    (resolveCrossCuDefs [a, b, c, d]).winners "f" = some ⟨1, 5⟩ ∧
      (resolveCrossCuDefs [a, b, c, d]).winners = (resolveCrossCuDefs [d, c, a, b]).winners := by
  intro a b c d
  refine ⟨by decide, (resolveCrossCuDefs_perm ?_).1⟩
  have hperm : [0, 1, 2, 3].Perm [3, 2, 0, 1] := by decide
  exact hperm.map fun i => [a, b, c, d].getD i a

end DssPrime
