import DssPrime.Link.MergeModules

/-!
# The numbers of a merge

What the table of `mergeModules` holds after any part of the merge.  Only two kinds of symbols share
the number of another one: a definition that lost its name, and an import (`Foldable`).  Every other
symbol owns its number (`MergeInv`), so no two of them collide, and a number that was read once
stays (`mergedIdFor_settles`).
-/

namespace DssPrime.Linker

/-- What the modules of a link satisfy: the units are distinct, a symbol is declared once in its
unit, and names are names of definitions. -/
structure Linkable (modules : List AssembledModule) : Prop where
  units : (modules.map AssembledModule.cuId).Nodup
  declared : ∀ m ∈ modules, m.declared.Nodup
  named : ∀ m ∈ modules, ∀ ms ∈ m.symbols,
    ms.symbol ∈ m.functions.map (·.symbol) ∨ ms.symbol ∈ m.dataItems.map (·.symbol)

def AssembledModule.importSymbols (m : AssembledModule) : List ℕ :=
  m.externImports.flatMap fun ext =>
    ext.symbol :: if ext.addressSlotSymbol ≠ 0 then [ext.addressSlotSymbol] else []

theorem keyAt_inj {modules : List AssembledModule} (h : (modules.map AssembledModule.cuId).Nodup)
    {i j : ℕ} (hi : i < modules.length) (hj : j < modules.length) {s t : ℕ}
    (hk : keyAt modules i s = keyAt modules j t) : i = j ∧ s = t := by
  simp only [keyAt, moduleAt, LinkedSymbolKey.mk.injEq, List.getD_eq_getElem _ _ hi,
    List.getD_eq_getElem _ _ hj] at hk
  refine ⟨?_, hk.2⟩
  have hi' : i < (modules.map AssembledModule.cuId).length := by simpa using hi
  have hj' : j < (modules.map AssembledModule.cuId).length := by simpa using hj
  have hmap : (modules.map AssembledModule.cuId)[i] = (modules.map AssembledModule.cuId)[j] := by
    simpa using hk.1
  exact (List.Nodup.getElem_inj_iff h).mp hmap

section

variable (modules : List AssembledModule) (nameToId : List (String × ℕ))
  (winningKeys : List LinkedSymbolKey)

def Foldable (key : LinkedSymbolKey) : Prop :=
  ∃ i < modules.length, ∃ s, key = keyAt modules i s ∧
    (isShadowedAtom modules nameToId winningKeys i s = true ∨
      s ∈ (moduleAt modules i).importSymbols)

/-- The invariant of the merge. -/
structure MergeInv (st : MergeState) : Prop where
  naming : Naming (Foldable modules nameToId winningKeys) st.names
  bound : ∀ k id, st.names.table k = some id → id < st.nextId
  loose_bound : ∀ id ∈ st.names.loose, id < st.nextId
  winners : ∀ key ∈ winningKeys, (st.names.table key).isSome = true
  targets : ∀ p ∈ nameToId, ∃ key ∈ winningKeys, st.names.owner p.2 = some key

variable {modules nameToId winningKeys}

theorem MergeInv.unused {st : MergeState} (h : MergeInv modules nameToId winningKeys st) :
    st.names.Unused st.nextId := by
  refine ⟨fun k hk => absurd (h.bound k _ hk) (lt_irrefl _), ?_, fun hid => ?_⟩
  · cases howner : st.names.owner st.nextId with
    | none => rfl
    | some k => exact absurd (h.bound k _ (h.naming.mine _ _ howner)) (lt_irrefl _)
  · exact absurd (h.loose_bound _ hid) (lt_irrefl _)

theorem MergeInv.of_names {st st' : MergeState} (h : MergeInv modules nameToId winningKeys st)
    (hnames : st'.names = st.names) (hnext : st'.nextId = st.nextId) :
    MergeInv modules nameToId winningKeys st' := by
  constructor
  · rw [hnames]
    exact h.naming
  · rw [hnames, hnext]
    exact h.bound
  · rw [hnames, hnext]
    exact h.loose_bound
  · rw [hnames]
    exact h.winners
  · rw [hnames]
    exact h.targets

theorem MergeInv.fold {st : MergeState} (h : MergeInv modules nameToId winningKeys st)
    {key : LinkedSymbolKey} {k₀ : LinkedSymbolKey} {id : ℕ}
    (hF : Foldable modules nameToId winningKeys key) (hk : st.names.table key = none)
    (hid : st.names.owner id = some k₀) :
    MergeInv modules nameToId winningKeys { st with names := st.names.fold key id } := by
  have hext := Names.extends_fold hk id
  constructor
  · exact h.naming.fold hF hk hid
  · intro k id' hk'
    rcases Names.fold_table_cases hk' with ⟨-, rfl⟩ | hk'
    · exact h.bound k₀ id' (h.naming.mine id' k₀ hid)
    · exact h.bound k id' hk'
  · exact h.loose_bound
  · intro k hkw
    obtain ⟨id', hid'⟩ := Option.isSome_iff_exists.mp (h.winners k hkw)
    exact Option.isSome_iff_exists.mpr ⟨id', hext.table k id' hid'⟩
  · exact h.targets

theorem MergeInv.give {st : MergeState} (h : MergeInv modules nameToId winningKeys st)
    {key : LinkedSymbolKey} (hk : st.names.table key = none) :
    MergeInv modules nameToId winningKeys
      { st with names := st.names.give key st.nextId, nextId := st.nextId + 1 } := by
  have hext := Names.extends_give hk h.unused
  constructor
  · exact h.naming.give hk h.unused
  · intro k id hid
    rcases Names.give_table_cases hid with ⟨-, rfl⟩ | hid
    · exact Nat.lt_succ_self _
    · exact Nat.lt_succ_of_lt (h.bound k id hid)
  · exact fun id hid => Nat.lt_succ_of_lt (h.loose_bound id hid)
  · intro k hkw
    obtain ⟨id', hid'⟩ := Option.isSome_iff_exists.mp (h.winners k hkw)
    exact Option.isSome_iff_exists.mpr ⟨id', hext.table k id' hid'⟩
  · intro p hp
    obtain ⟨key', hkey', howner⟩ := h.targets p hp
    exact ⟨key', hkey', hext.owner _ _ howner⟩

theorem MergeInv.giveLoose {st : MergeState} (h : MergeInv modules nameToId winningKeys st) :
    MergeInv modules nameToId winningKeys
      { st with names := st.names.giveLoose st.nextId, nextId := st.nextId + 1 } where
  naming := h.naming.giveLoose h.unused
  bound k id hid := Nat.lt_succ_of_lt (h.bound k id hid)
  loose_bound id hid := by
    rcases List.mem_append.mp hid with hid | hid
    · exact Nat.lt_succ_of_lt (h.loose_bound id hid)
    · rw [List.mem_singleton.mp hid]
      exact Nat.lt_succ_self _
  winners := h.winners
  targets := h.targets

theorem mergedIdFor_run_some {i old id : ℕ} {st : MergeState}
    (h : st.names.table (keyAt modules i old) = some id) :
    (mergedIdFor modules nameToId i old).run st = (id, st) := by
  unfold mergedIdFor
  simp only [StateT.run_bind, StateT.run_get, pure_bind, h]
  rfl

theorem mergedIdFor_run_fresh {i old : ℕ} {st : MergeState}
    (h : st.names.table (keyAt modules i old) = none)
    (hfold : foldTargets nameToId (moduleAt modules i) old = []) :
    (mergedIdFor modules nameToId i old).run st =
      (st.nextId, { st with
        names := st.names.give (keyAt modules i old) st.nextId, nextId := st.nextId + 1 }) := by
  unfold mergedIdFor
  simp only [StateT.run_bind, StateT.run_get, pure_bind, h, hfold]
  rfl

theorem mergedIdFor_run_folded {i old id : ℕ} {name : String} {rest : List (String × ℕ)}
    {st : MergeState} (h : st.names.table (keyAt modules i old) = none)
    (hfold : foldTargets nameToId (moduleAt modules i) old = (name, id) :: rest) :
    ∃ errors, (mergedIdFor modules nameToId i old).run st =
      (id, { st with names := st.names.fold (keyAt modules i old) id, errors := errors }) := by
  unfold mergedIdFor
  simp only [StateT.run_bind, StateT.run_get, pure_bind, h, hfold]
  split
  · exact ⟨_, rfl⟩
  · exact ⟨_, rfl⟩

theorem mem_foldTargets {m : AssembledModule} {old : ℕ} {p : String × ℕ}
    (h : p ∈ foldTargets nameToId m old) :
    ∃ ms ∈ m.symbols, ms.symbol = old ∧ ms.binding ≠ .«local» ∧ p.1 = ms.name ∧
      nameToId.lookup ms.name = some p.2 := by
  obtain ⟨ms, hms, hp⟩ := List.mem_filterMap.mp h
  obtain ⟨id, hid, rfl⟩ := Option.map_eq_some_iff.mp hp
  have hms' := List.mem_filter.mp hms
  have hcond := of_decide_eq_true hms'.2
  exact ⟨ms, hms'.1, hcond.1, hcond.2, rfl, hid⟩

theorem shadowed_of_foldTargets {i old : ℕ} {p : String × ℕ}
    (h : p ∈ foldTargets nameToId (moduleAt modules i) old)
    (hkey : keyAt modules i old ∉ winningKeys) :
    isShadowedAtom modules nameToId winningKeys i old = true := by
  obtain ⟨ms, hms, hold, hbind, -, hlookup⟩ := mem_foldTargets h
  unfold isShadowedAtom
  rw [Bool.and_eq_true, decide_eq_true_eq, List.any_eq_true]
  refine ⟨hkey, ms, hms, ?_⟩
  simp [hold, hbind, hlookup]

theorem lookup_mem {name : String} {id : ℕ} (h : nameToId.lookup name = some id) :
    ∃ p ∈ nameToId, p.2 = id ∧ p.1 = name := by
  obtain ⟨l₁, l₂, hl, -⟩ := List.lookup_eq_some_iff.mp h
  exact ⟨(name, id), by simp [hl], rfl, rfl⟩

theorem mergedIdFor_step {i : ℕ} (hi : i < modules.length) (old : ℕ) {st : MergeState}
    (hst : MergeInv modules nameToId winningKeys st) :
    MergeInv modules nameToId winningKeys ((mergedIdFor modules nameToId i old).run st).2 ∧
      st.names.Extends ((mergedIdFor modules nameToId i old).run st).2.names ∧
      ((mergedIdFor modules nameToId i old).run st).2.names.table (keyAt modules i old) =
        some ((mergedIdFor modules nameToId i old).run st).1 := by
  cases htable : st.names.table (keyAt modules i old) with
  | some id =>
    rw [mergedIdFor_run_some htable]
    exact ⟨hst, .refl _, htable⟩
  | none =>
    cases hfold : foldTargets nameToId (moduleAt modules i) old with
    | nil =>
      rw [mergedIdFor_run_fresh htable hfold]
      exact ⟨hst.give htable, Names.extends_give htable hst.unused, Names.give_table_self _ _ _⟩
    | cons p rest =>
      obtain ⟨errors, hrun⟩ := mergedIdFor_run_folded htable hfold
      have hp : p ∈ foldTargets nameToId (moduleAt modules i) old := by simp [hfold]
      -- a winner has its number already
      have hkey : keyAt modules i old ∉ winningKeys := by
        intro hwin
        have := hst.winners _ hwin
        rw [htable] at this
        cases this
      have hF : Foldable modules nameToId winningKeys (keyAt modules i old) :=
        ⟨i, hi, old, rfl, .inl (shadowed_of_foldTargets hp hkey)⟩
      obtain ⟨ms, -, -, -, -, hlookup⟩ := mem_foldTargets hp
      obtain ⟨q, hq, hq2, -⟩ := lookup_mem hlookup
      obtain ⟨k₀, -, howner⟩ := hst.targets q hq
      rw [hq2] at howner
      rw [hrun]
      exact ⟨(hst.fold hF htable howner).of_names rfl rfl, Names.extends_fold htable _,
        Names.fold_table_self _ _ _⟩

theorem mergedIdFor_settles {P : Names LinkedSymbolKey → Prop} {i : ℕ} (hi : i < modules.length)
    (old : ℕ) :
    Settles MergeState.names (MergeInv modules nameToId winningKeys) P
      (mergedIdFor modules nameToId i old)
      fun n id => n.table (keyAt modules i old) = some id ∧ ∃ k, n.owner id = some k := by
  intro st hst _
  obtain ⟨hinv, hext, htable⟩ := mergedIdFor_step hi old hst
  obtain ⟨k, hk⟩ := hinv.naming.owned _ _ htable
  exact ⟨hinv, hext, fun n hn => ⟨hn.table _ _ htable, k, hn.owner _ _ hk⟩⟩

theorem freshId_settles {P : Names LinkedSymbolKey → Prop} :
    Settles MergeState.names (MergeInv modules nameToId winningKeys) P freshId
      fun n id => id ∈ n.loose := by
  intro st hst _
  refine ⟨hst.giveLoose, Names.extends_giveLoose _ _, fun n hn => hn.loose ?_⟩
  exact List.mem_append_right _ (List.mem_singleton_self _)

theorem modify_settles {P : Names LinkedSymbolKey → Prop} {f : MergeState → MergeState}
    (hnames : ∀ st, (f st).names = st.names) (hnext : ∀ st, (f st).nextId = st.nextId) :
    Settles MergeState.names (MergeInv modules nameToId winningKeys) P (modify f : MergeM Unit)
      fun n _ => P n := by
  intro st hst hP
  refine ⟨hst.of_names (hnames st) (hnext st), ?_, fun n hn => hP n ?_⟩
  · show Names.Extends st.names (f st).names
    rw [hnames]
    exact .refl _
  · have hn' : Names.Extends (f st).names n := hn
    rwa [hnames] at hn'

theorem retargetRelocs_settles {P : Names LinkedSymbolKey → Prop} {i : ℕ} (hi : i < modules.length)
    (relocs : List Relocation) :
    Settles MergeState.names (MergeInv modules nameToId winningKeys) P
      (retargetRelocs modules nameToId i relocs)
      fun n out => List.Forall₂ (fun rel rel' =>
        n.table (keyAt modules i rel.target) = some rel'.target ∧
          rel' = { rel with target := rel'.target }) relocs out := by
  refine Settles.mapM fun rel _ => ?_
  refine (mergedIdFor_settles hi rel.target).bind fun id => ?_
  exact settles_pure fun n hn => ⟨hn.2.1, rfl⟩

theorem emplaceId_settles {P : Names LinkedSymbolKey → Prop} {key : LinkedSymbolKey} {id : ℕ}
    (hF : Foldable modules nameToId winningKeys key)
    (hid : ∀ n, P n → ∃ k, n.owner id = some k) :
    Settles MergeState.names (MergeInv modules nameToId winningKeys) P (emplaceId key id)
      fun n _ => P n := by
  intro st hst hP
  obtain ⟨k, hk⟩ := hid _ (hP _ (.refl _))
  unfold emplaceId
  simp only [StateT.run_bind, StateT.run_get, pure_bind]
  cases htable : st.names.table key with
  | none =>
    have hext := Names.extends_fold htable id
    exact ⟨hst.fold hF htable hk, hext, fun n hn => hP n (hext.trans hn)⟩
  | some old =>
    dsimp only
    split
    · exact ⟨hst.of_names rfl rfl, .refl _, hP⟩
    · exact ⟨hst, .refl _, hP⟩

def OwnedId (n : Names LinkedSymbolKey) (id : ℕ) : Prop := ∃ k, n.owner id = some k

def RowsOwned (n : Names LinkedSymbolKey) (rows : List ExternImport) : Prop :=
  ∀ row ∈ rows, OwnedId n row.symbol ∧ (row.addressSlotSymbol ≠ 0 → OwnedId n row.addressSlotSymbol)

theorem mem_importSymbols {m : AssembledModule} {ext : ExternImport} (h : ext ∈ m.externImports) :
    ext.symbol ∈ m.importSymbols ∧
      (ext.addressSlotSymbol ≠ 0 → ext.addressSlotSymbol ∈ m.importSymbols) := by
  constructor
  · exact List.mem_flatMap.mpr ⟨ext, h, by simp⟩
  · intro hslot
    exact List.mem_flatMap.mpr ⟨ext, h, by simp [hslot]⟩

theorem foldSlot_settles {P : Names LinkedSymbolKey → Prop} {i : ℕ} (hi : i < modules.length)
    {kept slot : ℕ} (hslot : slot ≠ 0 → slot ∈ (moduleAt modules i).importSymbols)
    (hkept : ∀ n, P n → kept ≠ 0 → OwnedId n kept) :
    Settles MergeState.names (MergeInv modules nameToId winningKeys) P
      (foldSlot modules nameToId i kept slot) fun n id => id ≠ 0 → OwnedId n id := by
  unfold foldSlot
  split
  · exact settles_pure fun n hn => hkept n hn
  · rename_i hne
    split
    · exact (mergedIdFor_settles hi slot).mono (fun _ h => h) fun _ _ _ h _ => h.2
    · rename_i hk
      refine Settles.bind (emplaceId_settles ⟨i, hi, slot, rfl, .inr (hslot hne)⟩
        fun n hn => hkept n hn hk) fun _ => ?_
      exact settles_pure fun n hn => hkept n hn.1

theorem mergeImport_settles {P : Names LinkedSymbolKey → Prop} (b : Bound) {i : ℕ}
    (hi : i < modules.length) {rows : List ExternImport} {ext : ExternImport}
    (hext : ext ∈ (moduleAt modules i).externImports) (hrows : ∀ n, P n → RowsOwned n rows) :
    Settles MergeState.names (MergeInv modules nameToId winningKeys) P
      (mergeImport modules nameToId b i rows ext) RowsOwned := by
  obtain ⟨hsym, hslot⟩ := mem_importSymbols hext
  unfold mergeImport
  dsimp only
  split
  · exact settles_pure fun n hn => hrows n hn
  · cases hfind : rows.findIdx? (·.sameImport ext) with
    | none =>
      dsimp only
      refine (mergedIdFor_settles hi ext.symbol).bind fun id => ?_
      refine (foldSlot_settles hi hslot fun n _ h0 => absurd rfl h0).bind fun slot => ?_
      refine settles_pure fun n hn row hrow => ?_
      rcases List.mem_append.mp hrow with hrow | hrow
      · exact hrows n hn.1.1 row hrow
      · rw [List.mem_singleton.mp hrow]
        exact ⟨hn.1.2.2, hn.2⟩
    | some k =>
      dsimp only
      have hk : k < rows.length := (List.findIdx?_eq_some_iff_findIdx_eq.mp hfind).1
      have hmem : rows.getD k default ∈ rows := by
        rw [List.getD_eq_getElem _ _ hk]
        exact List.getElem_mem hk
      refine Settles.bind (emplaceId_settles ⟨i, hi, ext.symbol, rfl, .inr hsym⟩
        fun n hn => (hrows n hn _ hmem).1) fun _ => ?_
      refine Settles.bind (modify_settles (fun _ => rfl) fun _ => rfl) fun _ => ?_
      refine (foldSlot_settles hi hslot fun n hn => (hrows n hn.1.1 _ hmem).2).bind fun slot => ?_
      refine settles_pure fun n hn row hrow => ?_
      rcases List.mem_or_eq_of_mem_set hrow with hrow | rfl
      · exact hrows n hn.1.1.1 row hrow
      · exact ⟨(hrows n hn.1.1.1 _ hmem).1, hn.2⟩

theorem mergeImports_settles {P : Names LinkedSymbolKey → Prop} (b : Bound) :
    Settles MergeState.names (MergeInv modules nameToId winningKeys) P
      (mergeImports modules nameToId b) RowsOwned := by
  unfold mergeImports
  refine Settles.foldlM (J := fun _ => RowsOwned) (fun n _ row hrow => absurd hrow (by simp)) ?_
  intro done i rest rows hl
  have hi : i < modules.length := by
    have : i ∈ List.range modules.length := by simp [hl]
    exact List.mem_range.mp this
  refine Settles.foldlM (J := fun _ => RowsOwned) (fun n hn => hn.2) ?_
  intro done' ext rest' rows' hl'
  refine (mergeImport_settles b hi (by simp [hl']) fun n hn => hn.2).mono (fun _ h => h)
    fun _ _ _ h => h

theorem bindReference_step (absPtrKind : ℕ) (b : Bound) {ref : LinkedSymbolKey × LinkedSymbolKey}
    (hF : Foldable modules nameToId winningKeys ref.1) (hdef : ref.2 ∈ winningKeys)
    {st : MergeState} (hst : MergeInv modules nameToId winningKeys st)
    (hnone : st.names.table ref.1 = none) :
    MergeInv modules nameToId winningKeys
        ((bindReference modules nameToId absPtrKind b ref).run st).2 ∧
      st.names.Extends ((bindReference modules nameToId absPtrKind b ref).run st).2.names ∧
      ∀ k, k ≠ ref.1 → ((bindReference modules nameToId absPtrKind b ref).run st).2.names.table k =
        st.names.table k := by
  obtain ⟨id, hid⟩ := Option.isSome_iff_exists.mp (hst.winners _ hdef)
  obtain ⟨k₀, hk₀⟩ := hst.naming.owned _ _ hid
  unfold bindReference
  cases hfind : modules.findIdx? (·.cuId = ref.2.cuId) with
  | none => exact ⟨hst.of_names rfl rfl, .refl _, fun _ _ => rfl⟩
  | some dit =>
    -- the definition is a winner and has its number
    have hkey : keyAt modules dit ref.2.symbol = ref.2 := by
      obtain ⟨hlt, hcu⟩ := List.findIdx?_eq_some_iff_getElem.mp hfind
      have := of_decide_eq_true hcu.1
      show LinkedSymbolKey.mk _ _ = _
      rw [moduleAt, List.getD_eq_getElem _ _ hlt, this]
    have hrun : (mergedIdFor modules nameToId dit ref.2.symbol).run st = (id, st) :=
      mergedIdFor_run_some (hkey.symm ▸ hid)
    simp only [StateT.run_bind, hrun]
    cases hread : referenceReadsThroughSlot modules ref.1 with
    | none => exact ⟨hst.of_names rfl rfl, .refl _, fun _ _ => rfl⟩
    | some through =>
      cases through with
      | false =>
        refine ⟨hst.fold hF hnone hk₀, Names.extends_fold hnone id, fun k hk => ?_⟩
        exact Names.fold_table_ne _ hk id
      | true =>
        have hloose := hst.giveLoose
        have hext := Names.extends_giveLoose st.names st.nextId
        have hnone' : (st.names.giveLoose st.nextId).table ref.1 = none := hnone
        refine ⟨hloose.fold hF hnone' hk₀, hext.trans (Names.extends_fold hnone' id),
          fun k hk => ?_⟩
        exact Names.fold_table_ne _ hk id

theorem bindReferences_step (absPtrKind : ℕ) (refs : List (LinkedSymbolKey × LinkedSymbolKey))
    (hnodup : (refs.map Prod.fst).Nodup)
    (hF : ∀ ref ∈ refs, Foldable modules nameToId winningKeys ref.1)
    (hdef : ∀ ref ∈ refs, ref.2 ∈ winningKeys) (b : Bound) {st : MergeState}
    (hst : MergeInv modules nameToId winningKeys st)
    (hnone : ∀ ref ∈ refs, st.names.table ref.1 = none) :
    MergeInv modules nameToId winningKeys
        ((refs.foldlM (bindReference modules nameToId absPtrKind) b).run st).2 ∧
      st.names.Extends
        ((refs.foldlM (bindReference modules nameToId absPtrKind) b).run st).2.names := by
  induction refs generalizing b st with
  | nil => exact ⟨hst, .refl _⟩
  | cons ref refs ih =>
    rw [List.map_cons, List.nodup_cons] at hnodup
    obtain ⟨h₁, h₂, h₃⟩ := bindReference_step absPtrKind b (hF ref (by simp)) (hdef ref (by simp))
      hst (hnone ref (by simp))
    rw [List.foldlM_cons, StateT.run_bind]
    have hrest := ih hnodup.2 (fun r hr => hF r (by simp [hr])) (fun r hr => hdef r (by simp [hr]))
      ((bindReference modules nameToId absPtrKind b ref).run st).1 h₁ ?_
    · exact ⟨hrest.1, h₂.trans hrest.2⟩
    · intro r hr
      have hne : r.1 ≠ ref.1 := by
        intro heq
        exact hnodup.1 (heq ▸ List.mem_map_of_mem hr)
      rw [h₃ _ hne]
      exact hnone r (by simp [hr])

theorem retargetCodeRelocs_settles {P : Names LinkedSymbolKey → Prop} (b : Bound) {i : ℕ}
    (hi : i < modules.length) (relocs : List Relocation) :
    Settles MergeState.names (MergeInv modules nameToId winningKeys) P
      (retargetCodeRelocs modules nameToId b i relocs)
      fun n out => List.Forall₂ (fun rel rel' =>
        b.codeSlotByReference.lookup (keyAt modules i rel.target) = some rel'.target ∨
          n.table (keyAt modules i rel.target) = some rel'.target) relocs out := by
  refine Settles.mapM fun rel _ => ?_
  cases hslot : b.codeSlotByReference.lookup (keyAt modules i rel.target) with
  | some slotId => exact settles_pure fun n _ => .inl rfl
  | none =>
    refine (mergedIdFor_settles hi rel.target).bind fun id => ?_
    exact settles_pure fun n hn => .inr hn.2.1

theorem emittedId_settles {P : Names LinkedSymbolKey → Prop} {i : ℕ} (hi : i < modules.length)
    (symbol : ℕ) :
    Settles MergeState.names (MergeInv modules nameToId winningKeys) P
      (emittedId modules nameToId winningKeys i symbol)
      fun n id => if isShadowedAtom modules nameToId winningKeys i symbol = true then id ∈ n.loose
        else n.table (keyAt modules i symbol) = some id := by
  unfold emittedId
  split
  · exact freshId_settles
  · exact (mergedIdFor_settles hi symbol).mono (fun _ h => h) fun _ _ _ h => h.1

theorem emitFunction_settles {P : Names LinkedSymbolKey → Prop} (b : Bound) {i : ℕ}
    (hi : i < modules.length) (out : Emitted) (fn : AssembledFunction) :
    Settles MergeState.names (MergeInv modules nameToId winningKeys) P
      (emitFunction modules nameToId winningKeys b i out fn) fun _ _ => True := by
  unfold emitFunction
  dsimp only
  split
  · exact settles_pure fun _ _ => trivial
  · refine (emittedId_settles hi fn.symbol).bind fun id => ?_
    refine Settles.bind (Q := fun _ _ => True) ?_ fun blocks => ?_
    · refine Settles.mono (Settles.mapM (R := fun _ _ _ => True) fun bs _ => ?_) (fun _ h => h)
        fun _ _ _ _ => trivial
      refine (mergedIdFor_settles hi bs.symbol).bind fun id => ?_
      exact settles_pure fun _ _ => trivial
    · refine (retargetCodeRelocs_settles b hi fn.relocations).bind fun relocs => ?_
      exact settles_pure fun _ _ => trivial

theorem emitData_settles {P : Names LinkedSymbolKey → Prop} {i : ℕ} (hi : i < modules.length)
    (out : Emitted) (di : AssembledData) :
    Settles MergeState.names (MergeInv modules nameToId winningKeys) P
      (emitData modules nameToId winningKeys i out di) fun _ _ => True := by
  unfold emitData
  dsimp only
  split
  · exact settles_pure fun _ _ => trivial
  · refine (emittedId_settles hi di.symbol).bind fun id => ?_
    refine (retargetRelocs_settles hi di.relocations).bind fun relocs => ?_
    exact settles_pure fun _ _ => trivial

theorem emitSymbol_settles {P : Names LinkedSymbolKey → Prop} {i : ℕ} (hi : i < modules.length)
    (defs : List (String × LinkedSymbolKey)) (out : Emitted) (ms : ModuleSymbol) :
    Settles MergeState.names (MergeInv modules nameToId winningKeys) P
      (emitSymbol modules nameToId winningKeys defs i out ms) fun _ _ => True := by
  unfold emitSymbol
  split
  · exact settles_pure fun _ _ => trivial
  · split
    · exact settles_pure fun _ _ => trivial
    · split
      · exact settles_pure fun _ _ => trivial
      · refine (mergedIdFor_settles hi ms.symbol).bind fun id => ?_
        split
        · exact settles_pure fun _ _ => trivial
        · exact settles_pure fun _ _ => trivial

theorem emitModule_settles {P : Names LinkedSymbolKey → Prop} (b : Bound) {i : ℕ}
    (hi : i < modules.length) (defs : List (String × LinkedSymbolKey)) (out : Emitted) :
    Settles MergeState.names (MergeInv modules nameToId winningKeys) P
      (emitModule modules nameToId winningKeys defs b out i) fun _ _ => True := by
  unfold emitModule
  refine Settles.bind (Settles.foldlM (J := fun _ _ _ => True) (fun _ _ => trivial)
    fun _ fn _ out _ => emitFunction_settles b hi out fn) fun out => ?_
  refine Settles.bind (Settles.foldlM (J := fun _ _ _ => True) (fun _ _ => trivial)
    fun _ di _ out _ => emitData_settles hi out di) fun out => ?_
  exact Settles.foldlM (J := fun _ _ _ => True) (fun _ _ => trivial)
    fun _ ms _ out _ => emitSymbol_settles hi defs out ms

theorem lt_of_range_eq {n i : ℕ} {done rest : List ℕ} (h : List.range n = done ++ i :: rest) :
    i < n := by
  have : i ∈ List.range n := by simp [h]
  exact List.mem_range.mp this

theorem mergeEntry_settles {P : Names LinkedSymbolKey → Prop} :
    Settles MergeState.names (MergeInv modules nameToId winningKeys) P
      (mergeEntry modules nameToId) fun _ _ => True := by
  unfold mergeEntry
  refine Settles.foldlM (J := fun _ _ _ => True) (fun _ _ => trivial) ?_
  intro done i rest entry hl
  have hi := lt_of_range_eq hl
  cases (moduleAt modules i).userEntrySymbol with
  | none => exact settles_pure fun _ _ => trivial
  | some symbol =>
    cases entry with
    | some id =>
      refine Settles.bind (modify_settles (fun _ => rfl) fun _ => rfl) fun _ => ?_
      exact settles_pure fun _ _ => trivial
    | none =>
      show Settles _ _ _ (mergedIdFor modules nameToId i symbol >>= fun id => pure (some id)) _
      refine (mergedIdFor_settles hi symbol).bind fun id => ?_
      exact settles_pure fun _ _ => trivial

def scheduleEntries (modules : List AssembledModule) : List (ℕ × LirStaticInitEntry) :=
  (List.range modules.length).flatMap fun i =>
    (moduleAt modules i).staticInitSchedule.map fun e => (i, e)

theorem mergeSchedule_settles {P : Names LinkedSymbolKey → Prop} :
    Settles MergeState.names (MergeInv modules nameToId winningKeys) P
      (mergeSchedule modules nameToId) fun n schedule =>
        List.Forall₂ (fun p e => n.table (keyAt modules p.1 p.2.symbol) = some e.symbol ∧
          e.schedule = p.2.schedule) (scheduleEntries modules) schedule := by
  unfold mergeSchedule scheduleEntries
  refine Settles.foldlM (J := fun done n (schedule : List LirStaticInitEntry) =>
    List.Forall₂ (fun p e => n.table (keyAt modules p.1 p.2.symbol) = some e.symbol ∧
      e.schedule = p.2.schedule)
      (done.flatMap fun i => (moduleAt modules i).staticInitSchedule.map fun e => (i, e)) schedule)
    (fun _ _ => .nil) ?_
  intro done i rest schedule hl
  have hi := lt_of_range_eq hl
  refine Settles.mono (Settles.foldlM (J := fun done' n (schedule : List LirStaticInitEntry) =>
    List.Forall₂ (fun p e => n.table (keyAt modules p.1 p.2.symbol) = some e.symbol ∧
      e.schedule = p.2.schedule)
      ((done.flatMap fun i => (moduleAt modules i).staticInitSchedule.map fun e => (i, e)) ++
        done'.map fun e => (i, e)) schedule) (fun n hn => ?_) ?_) (fun _ h => h) fun n out _ h => ?_
  · simpa using hn.2
  · intro done' e rest' schedule' _
    refine (mergedIdFor_settles hi e.symbol).bind fun id => ?_
    refine settles_pure fun n hn => ?_
    have hold := hn.1.2
    rw [List.map_append, ← List.append_assoc]
    exact List.rel_append hold (.cons ⟨hn.2.1, rfl⟩ .nil)
  · simpa using h

end

/-- The winners have their numbers. -/
structure WinnersGiven (done : List (String × LinkedSymbolKey))
    (acc : MergeState × List (String × ℕ)) :
    Prop where
  naming : Naming (fun _ => False) acc.1.names
  bound : ∀ k id, acc.1.names.table k = some id → id < acc.1.nextId
  loose : acc.1.names.loose = []
  only : ∀ k id, acc.1.names.table k = some id → k ∈ done.map Prod.snd
  names : List.Forall₂ (fun d p => p.1 = d.1 ∧ acc.1.names.table d.2 = some p.2) done acc.2

theorem assignWinners_given (defs : List (String × LinkedSymbolKey)) :
    WinnersGiven defs (assignWinners defs) := by
  unfold assignWinners
  induction defs using List.reverseRecOn with
  | nil =>
    refine ⟨Naming.empty, ?_, rfl, ?_, .nil⟩ <;> simp [Names.empty]
  | append_singleton done d ih =>
    rw [List.foldl_append, List.foldl_cons, List.foldl_nil]
    generalize hacc : List.foldl _ _ done = acc at ih ⊢
    cases htable : acc.1.names.table d.2 with
    | some id =>
      refine ⟨ih.naming, ih.bound, ih.loose, fun k id' hk => ?_, ?_⟩
      · simp [ih.only k id' hk]
      · exact List.rel_append ih.names (.cons ⟨rfl, htable⟩ .nil)
    | none =>
      have hunused : acc.1.names.Unused acc.1.nextId := by
        refine ⟨fun k hk => absurd (ih.bound k _ hk) (lt_irrefl _), ?_, by simp [ih.loose]⟩
        cases howner : acc.1.names.owner acc.1.nextId with
        | none => rfl
        | some k => exact absurd (ih.bound k _ (ih.naming.mine _ _ howner)) (lt_irrefl _)
      have hext := Names.extends_give htable hunused
      refine ⟨ih.naming.give htable hunused, fun k id hk => ?_, ih.loose, fun k id hk => ?_, ?_⟩
      · by_cases hkk : k = d.2
        · subst hkk
          simp only [Names.give_table_self] at hk
          cases hk
          exact Nat.lt_succ_self _
        · rw [Names.give_table_ne _ hkk] at hk
          exact Nat.lt_succ_of_lt (ih.bound k id hk)
      · by_cases hkk : k = d.2
        · simp [hkk]
        · rw [Names.give_table_ne _ hkk] at hk
          simp [ih.only k id hk]
      · refine List.rel_append (ih.names.imp fun e p hp => ⟨hp.1, hext.table _ _ hp.2⟩) ?_
        exact .cons ⟨rfl, Names.give_table_self _ _ _⟩ .nil

theorem forall₂_mem_left {α β : Type} {R : α → β → Prop} {l : List α} {l' : List β}
    (h : List.Forall₂ R l l') {a : α} (ha : a ∈ l) : ∃ b ∈ l', R a b := by
  induction h with
  | nil => simp at ha
  | cons hab _ ih =>
    rcases List.mem_cons.mp ha with rfl | ha
    · exact ⟨_, List.mem_cons_self, hab⟩
    · obtain ⟨b, hb, hR⟩ := ih ha
      exact ⟨b, List.mem_cons_of_mem _ hb, hR⟩

theorem forall₂_mem_right {α β : Type} {R : α → β → Prop} {l : List α} {l' : List β}
    (h : List.Forall₂ R l l') {b : β} (hb : b ∈ l') : ∃ a ∈ l, R a b :=
  forall₂_mem_left h.flip hb

theorem assignWinners_inv (modules : List AssembledModule)
    (defs : List (String × LinkedSymbolKey)) :
    MergeInv modules (assignWinners defs).2 (defs.map Prod.snd) (assignWinners defs).1 := by
  have h := assignWinners_given defs
  constructor
  · exact ⟨h.naming.owned, h.naming.mine, fun k id _ => h.naming.own k id (fun hF => hF),
      h.naming.loose_unowned, h.naming.loose_nodup⟩
  · exact h.bound
  · simp [h.loose]
  · intro key hkey
    obtain ⟨d, hd, rfl⟩ := List.mem_map.mp hkey
    obtain ⟨p, -, -, htable⟩ := forall₂_mem_left h.names hd
    exact Option.isSome_iff_exists.mpr ⟨p.2, htable⟩
  · intro p hp
    obtain ⟨d, hd, -, htable⟩ := forall₂_mem_right h.names hp
    exact ⟨d.2, List.mem_map_of_mem hd, h.naming.own _ _ (fun hF => hF) htable⟩

/-- What the resolution promises of a link: a winner is the key of a name of a unit, an import that
is bound is an import of its unit that occurs once, and it is bound to a winner. -/
structure Resolves (modules : List AssembledModule) (image : LinkedImage) : Prop where
  winners : ∀ d ∈ image.resolvedGlobalDefs, ∃ i < modules.length,
    ∃ ms ∈ (moduleAt modules i).symbols, d.2 = keyAt modules i ms.symbol
  nodup : (image.resolvedCrossCuRefs.map Prod.fst).Nodup
  references : ∀ ref ∈ image.resolvedCrossCuRefs, ∃ i < modules.length,
    ∃ ext ∈ (moduleAt modules i).externImports, ref.1 = keyAt modules i ext.symbol
  definitions : ∀ ref ∈ image.resolvedCrossCuRefs, ref.2 ∈ image.resolvedGlobalDefs.map Prod.snd

def AssembledModule.definitionSymbols (m : AssembledModule) : List ℕ :=
  m.functions.map (·.symbol) ++ m.functions.flatMap (fun fn => fn.blockSymbols.map (·.symbol)) ++
  m.dataItems.map (·.symbol)

theorem Linkable.not_import {modules : List AssembledModule} (h : Linkable modules) {i : ℕ}
    (hi : i < modules.length) {s : ℕ} (hs : s ∈ (moduleAt modules i).definitionSymbols) :
    s ∉ (moduleAt modules i).importSymbols := by
  have hm : moduleAt modules i ∈ modules := by
    rw [moduleAt, List.getD_eq_getElem _ _ hi]
    exact List.getElem_mem hi
  have hnodup := h.declared _ hm
  exact fun himp => (List.nodup_append.mp hnodup).2.2 s hs s himp rfl

theorem Linkable.moduleAt_mem {modules : List AssembledModule} {i : ℕ} (hi : i < modules.length) :
    moduleAt modules i ∈ modules := by
  rw [moduleAt, List.getD_eq_getElem _ _ hi]
  exact List.getElem_mem hi

theorem Linkable.named_mem {modules : List AssembledModule} (h : Linkable modules) {i : ℕ}
    (hi : i < modules.length) {ms : ModuleSymbol} (hms : ms ∈ (moduleAt modules i).symbols) :
    ms.symbol ∈ (moduleAt modules i).definitionSymbols := by
  unfold AssembledModule.definitionSymbols
  rcases h.named _ (Linkable.moduleAt_mem hi) ms hms with hfn | hdi
  · exact List.mem_append_left _ (List.mem_append_left _ hfn)
  · exact List.mem_append_right _ hdi

theorem Resolves.unassigned {modules : List AssembledModule} {image : LinkedImage}
    (hl : Linkable modules) (h : Resolves modules image)
    {ref : LinkedSymbolKey × LinkedSymbolKey} (href : ref ∈ image.resolvedCrossCuRefs) :
    (assignWinners image.resolvedGlobalDefs).1.names.table ref.1 = none := by
  have hgiven := assignWinners_given image.resolvedGlobalDefs
  obtain ⟨i, hi, ext, hext, hkey⟩ := h.references ref href
  rw [Option.eq_none_iff_forall_ne_some]
  intro id hid
  obtain ⟨d, hd, hd2⟩ := List.mem_map.mp (hgiven.only _ id hid)
  obtain ⟨j, hj, ms, hms, hkey'⟩ := h.winners d hd
  obtain ⟨rfl, hsym⟩ := keyAt_inj hl.units hj hi (hkey'.symm.trans (hd2.trans hkey))
  exact hl.not_import hj (hl.named_mem hj hms) (hsym ▸ (mem_importSymbols hext).1)

def SlotsExpressible (modules : List AssembledModule) (image : LinkedImage)
    (absPtrKind : Option ℕ) : Prop :=
  ¬ ((image.resolvedCrossCuRefs.any fun ref =>
    (referenceReadsThroughSlot modules ref.1).getD false) = true ∧ absPtrKind = none)

theorem mergeModules_schedule {modules : List AssembledModule} {image : LinkedImage}
    {absPtrKind : Option ℕ} (hl : Linkable modules) (h : Resolves modules image)
    (hslots : SlotsExpressible modules image absPtrKind) :
    MergeInv modules (assignWinners image.resolvedGlobalDefs).2
        (image.resolvedGlobalDefs.map Prod.snd) (mergeModules modules image absPtrKind).2 ∧
      List.Forall₂ (fun p e =>
        (mergeModules modules image absPtrKind).2.names.table (keyAt modules p.1 p.2.symbol) =
            some e.symbol ∧ e.schedule = p.2.schedule)
        (scheduleEntries modules) (mergeModules modules image absPtrKind).1.staticInitSchedule := by
  have hrun : mergeModules modules image absPtrKind =
      (mergeRest modules image (assignWinners image.resolvedGlobalDefs).2 (absPtrKind.getD 0)).run
        (assignWinners image.resolvedGlobalDefs).1 := by
    unfold mergeModules
    exact if_neg hslots
  rw [hrun]
  generalize hnames : (assignWinners image.resolvedGlobalDefs).2 = nameToId
  have hinv := assignWinners_inv modules image.resolvedGlobalDefs
  rw [hnames] at hinv
  obtain ⟨hbound, hext⟩ := bindReferences_step (absPtrKind.getD 0) image.resolvedCrossCuRefs
    h.nodup (fun ref href => by
      obtain ⟨i, hi, ext, hext, hkey⟩ := h.references ref href
      exact ⟨i, hi, ext.symbol, hkey, .inr (mem_importSymbols hext).1⟩) h.definitions {} hinv
    fun ref href => h.unassigned hl href
  unfold mergeRest
  rw [StateT.run_bind]
  set b := (StateT.run (image.resolvedCrossCuRefs.foldlM
    (bindReference modules nameToId (absPtrKind.getD 0)) {})
      (assignWinners image.resolvedGlobalDefs).1).1 with hb
  -- the rest of the merge keeps the invariant and reads the schedule from the table
  have hrest : Settles MergeState.names
      (MergeInv modules nameToId (image.resolvedGlobalDefs.map Prod.snd)) (fun _ => True)
      (do
        let externs ← mergeImports modules nameToId b
        let out ← (List.range modules.length).foldlM
          (emitModule modules nameToId (image.resolvedGlobalDefs.map Prod.snd)
            image.resolvedGlobalDefs b) {}
        let entry ← mergeEntry modules nameToId
        let schedule ← mergeSchedule modules nameToId
        return ({
          functions := orderUnits out.functions
          dataItems := b.slots ++ out.dataItems
          externImports := externs
          symbols := out.symbols
          userEntrySymbol := entry
          staticInitSchedule := schedule } : AssembledModule))
      fun n m => List.Forall₂ (fun p e => n.table (keyAt modules p.1 p.2.symbol) = some e.symbol ∧
        e.schedule = p.2.schedule) (scheduleEntries modules) m.staticInitSchedule := by
    refine (mergeImports_settles b).bind fun externs => ?_
    refine Settles.bind (Settles.foldlM (J := fun _ _ _ => True) (fun _ _ => trivial)
      fun _ i _ out hi => emitModule_settles b (lt_of_range_eq hi) _ out) fun out => ?_
    refine mergeEntry_settles.bind fun entry => ?_
    refine mergeSchedule_settles.bind fun schedule => ?_
    exact settles_pure fun n hn => hn.2
  obtain ⟨h₁, -, h₃⟩ := hrest _ hbound fun _ _ => trivial
  exact ⟨h₁, h₃ _ (.refl _)⟩

end DssPrime.Linker
