import DssPrime.Link.MirMerge

/-!
# What the plan of a merge guarantees

Every function of a unit gets a number, and the numbers keep apart the functions that survive: a
private function owns its number, and a function that won a name has the number of the name, which
the name owns (`PlanInv`).  So two functions that are cloned never share a number
(`mergePlan_inj`).
-/

namespace DssPrime.Linker

/-- What the units of a program satisfy: they come in the order of their identifiers, a symbol is
declared once in its unit, and no symbol is the invalid one. -/
structure UnitsOk (units : List CompiledUnit) : Prop where
  order : (units.map CompiledUnit.cuId).Pairwise (· < ·)
  declared : ∀ u ∈ units, (u.functions.map (·.symbol) ++ u.globals.map (·.symbol) ++
    u.externImports.map (·.symbol) ++ u.blockExports).Nodup
  valid : ∀ u ∈ units, 0 ∉ u.functions.map (·.symbol) ++ u.globals.map (·.symbol) ++
    u.externImports.map (·.symbol) ++ u.blockExports ++ u.synthRecipes.map Prod.fst

theorem firstFree_not_mem {used : List ℕ} {fuel n : ℕ}
    (h : (used.filter (n ≤ ·)).length < fuel) : firstFree used fuel n ∉ used := by
  induction fuel generalizing n with
  | zero => omega
  | succ fuel ih =>
    rw [firstFree]
    split
    · rename_i hmem
      refine ih ?_
      -- the number that is taken counts no more
      have hlt : (used.filter (n + 1 ≤ ·)).length < (used.filter (n ≤ ·)).length := by
        have hfilter : used.filter (n + 1 ≤ ·) = (used.filter (n ≤ ·)).filter (n + 1 ≤ ·) := by
          rw [List.filter_filter]
          refine List.filter_congr fun x _ => ?_
          rw [Bool.eq_iff_iff, Bool.and_eq_true, decide_eq_true_eq, decide_eq_true_eq]
          omega
        rw [hfilter]
        refine List.length_filter_lt_length_iff_exists.mpr ⟨n, ?_, by simp⟩
        exact List.mem_filter.mpr ⟨hmem, by simp⟩
      omega
    · assumption

theorem le_firstFree (used : List ℕ) (fuel n : ℕ) : n ≤ firstFree used fuel n := by
  induction fuel generalizing n with
  | zero => exact le_rfl
  | succ fuel ih =>
    rw [firstFree]
    split
    · exact (Nat.le_succ n).trans (ih (n + 1))
    · exact le_rfl

theorem MergePlan.freshNumber_not_mem (p : MergePlan) : p.freshNumber ∉ p.used := by
  refine firstFree_not_mem ?_
  exact Nat.lt_succ_of_le (List.length_filter_le _ _)

section

variable (units : List CompiledUnit)

def PrivateFunction (f : UnitFunction) : Prop := f.binding = .«local» ∨ f.name = ""

def PlanFoldable : MergeKey → Prop
  | .name _ => False
  | .symbol i s => ∀ u, units[i]? = some u → ∀ f ∈ u.functions, f.symbol = s → ¬ PrivateFunction f
  | _ => True

/-- The invariant of the plan. -/
structure PlanInv (p : MergePlan) : Prop where
  naming : Naming (PlanFoldable units) p.names
  used : ∀ k id, p.names.table k = some id → id ∈ p.used
  loose : p.names.loose = []
  valid : ∀ k id, p.names.table k = some id → id ≠ 0
  /-- The search for a number starts above the invalid one. -/
  next : 0 < p.next
  named : ∀ i u, units[i]? = some u → ∀ f ∈ u.functions, ¬ PrivateFunction f →
    ∀ id, p.names.table (.symbol i f.symbol) = some id → p.names.table (.name f.name) = some id

variable {units}

theorem PlanInv.unused {p : MergePlan} (h : PlanInv units p) {id : ℕ} (hid : id ∉ p.used) :
    p.names.Unused id := by
  refine ⟨fun k hk => hid (h.used k id hk), ?_, by simp [h.loose]⟩
  cases howner : p.names.owner id with
  | none => rfl
  | some k => exact absurd (h.used k id (h.naming.mine _ _ howner)) hid

theorem PlanInv.give {p : MergePlan} (h : PlanInv units p) {key : MergeKey} {id next : ℕ}
    (hkey : p.names.table key = none) (hid : id ∉ p.used) (h0 : id ≠ 0) (hnext : 0 < next)
    (hnamed : ∀ i u, units[i]? = some u → ∀ f ∈ u.functions, ¬ PrivateFunction f →
      key ≠ .symbol i f.symbol) :
    PlanInv units ⟨p.names.give key id, id :: p.used, next⟩ := by
  have hext := Names.extends_give hkey (h.unused hid)
  refine ⟨h.naming.give hkey (h.unused hid), fun k id' hk => ?_, h.loose, fun k id' hk => ?_, hnext,
    fun i u hu f hf hprivate id' hk => ?_⟩
  · rcases Names.give_table_cases hk with ⟨-, rfl⟩ | hk
    · exact List.mem_cons_self
    · exact List.mem_cons_of_mem _ (h.used k id' hk)
  · rcases Names.give_table_cases hk with ⟨-, rfl⟩ | hk
    · exact h0
    · exact h.valid k id' hk
  · rcases Names.give_table_cases hk with ⟨heq, -⟩ | hk
    · exact absurd heq.symm (hnamed i u hu f hf hprivate)
    · exact hext.table _ _ (h.named i u hu f hf hprivate id' hk)

theorem PlanInv.fold {p : MergePlan} (h : PlanInv units p) {key k₀ : MergeKey} {id : ℕ}
    (hF : PlanFoldable units key) (hkey : p.names.table key = none)
    (hid : p.names.table k₀ = some id)
    (hnamed : ∀ i u, units[i]? = some u → ∀ f ∈ u.functions, ¬ PrivateFunction f →
      key = .symbol i f.symbol → p.names.table (.name f.name) = some id) :
    PlanInv units { p with names := p.names.fold key id } := by
  have hext := Names.extends_fold hkey id
  obtain ⟨k₁, hk₁⟩ := h.naming.owned k₀ id hid
  refine ⟨h.naming.fold hF hkey hk₁, fun k id' hk => ?_, h.loose, fun k id' hk => ?_, h.next,
    fun i u hu f hf hprivate id' hk => ?_⟩
  · rcases Names.fold_table_cases hk with ⟨-, rfl⟩ | hk
    · exact h.used k₀ id' hid
    · exact h.used k id' hk
  · rcases Names.fold_table_cases hk with ⟨-, rfl⟩ | hk
    · exact h.valid k₀ id' hid
    · exact h.valid k id' hk
  · rcases Names.fold_table_cases hk with ⟨heq, rfl⟩ | hk
    · exact hext.table _ _ (hnamed i u hu f hf hprivate heq.symm)
    · exact hext.table _ _ (h.named i u hu f hf hprivate id' hk)

theorem giveNumber_step {p : MergePlan} (h : PlanInv units p) {key : MergeKey} (unit : ℕ)
    {symbol : ℕ}
    (hkey : p.names.table key = none) (hsymbol : symbol ≠ 0)
    (hnamed : ∀ i u, units[i]? = some u → ∀ f ∈ u.functions, ¬ PrivateFunction f →
      key ≠ .symbol i f.symbol) :
    PlanInv units ((giveNumber key unit symbol).run p).2 ∧
      p.names.Extends ((giveNumber key unit symbol).run p).2.names ∧
      ((giveNumber key unit symbol).run p).2.names.table key =
        some ((giveNumber key unit symbol).run p).1 := by
  unfold giveNumber
  simp only [StateT.run_bind, StateT.run_get, pure_bind]
  split
  · rename_i hfree
    exact ⟨h.give hkey hfree.2 hsymbol h.next hnamed,
      Names.extends_give hkey (h.unused hfree.2), Names.give_table_self _ _ _⟩
  · have hfresh := p.freshNumber_not_mem
    have hpos : p.freshNumber ≠ 0 :=
      (h.next.trans_le (le_firstFree _ _ _)).ne'
    exact ⟨h.give hkey hfresh hpos (Nat.succ_pos _) hnamed,
      Names.extends_give hkey (h.unused hfresh), Names.give_table_self _ _ _⟩

theorem emplace_step {p : MergePlan} (h : PlanInv units p) {key k₀ : MergeKey} {id : ℕ}
    (hF : PlanFoldable units key) (hid : p.names.table k₀ = some id)
    (hnamed : ∀ i u, units[i]? = some u → ∀ f ∈ u.functions, ¬ PrivateFunction f →
      key = .symbol i f.symbol → p.names.table (.name f.name) = some id) :
    PlanInv units ((emplace key id).run p).2 ∧
      p.names.Extends ((emplace key id).run p).2.names ∧
      (((emplace key id).run p).2.names.table key).isSome = true := by
  unfold emplace
  simp only [StateT.run_bind, StateT.run_get, pure_bind]
  cases hkey : p.names.table key with
  | some old => exact ⟨h, .refl _, by simp [StateT.run, hkey, pure, StateT.pure]⟩
  | none =>
    exact ⟨h.fold hF hkey hid hnamed, Names.extends_fold hkey id, by
      show ((p.names.fold key id).table key).isSome = true
      simp⟩

def NamesGiven (units : List CompiledUnit) (n : Names MergeKey) : Prop :=
  ∀ d ∈ mirDefs units, (n.table (.name d.name)).isSome = true

theorem mem_mirDefs {i : ℕ} {u : CompiledUnit} (hu : units[i]? = some u) {f : UnitFunction}
    (hf : f ∈ u.functions) (hprivate : ¬ PrivateFunction f) :
    (⟨f.name, f.binding, ⟨i + 1, f.symbol⟩, .any, 0, []⟩ : CrossCuDef) ∈ mirDefs units := by
  have hcond : ¬ (f.name = "" ∨ f.binding = .«local») := fun h => hprivate (h.symm)
  refine List.mem_flatMap.mpr ⟨(u, i), List.mem_zipIdx_iff_getElem?.mpr hu, ?_⟩
  refine List.mem_filterMap.mpr ⟨(f.symbol, f.name, f.binding), ?_, if_neg hcond⟩
  exact List.mem_append_left _ (List.mem_map.mpr ⟨f, hf, rfl⟩)

theorem emplace_other_step {p : MergePlan} (h : PlanInv units p) (key : MergeKey) {k₀ : MergeKey}
    {id : ℕ}
    (hF : PlanFoldable units key) (hid : p.names.table k₀ = some id)
    (hkey : ∀ i s, key ≠ .symbol i s) :
    PlanInv units ((emplace key id).run p).2 ∧
      p.names.Extends ((emplace key id).run p).2.names := by
  obtain ⟨h₁, h₂, -⟩ := emplace_step h hF hid fun i u _ f _ _ heq => absurd heq (hkey i f.symbol)
  exact ⟨h₁, h₂⟩

theorem freshSymbol_step {p : MergePlan} (h : PlanInv units p) {unit old : ℕ} {name : String}
    {ffiRow : Option ExternImport} (hkey : p.names.table (.symbol unit old) = none)
    (hold : old ≠ 0)
    (hnamed : ∀ i u, units[i]? = some u → ∀ f ∈ u.functions, ¬ PrivateFunction f →
      MergeKey.symbol unit old ≠ .symbol i f.symbol) :
    PlanInv units ((freshSymbol unit old name ffiRow).run p).2 ∧
      p.names.Extends ((freshSymbol unit old name ffiRow).run p).2.names ∧
      (((freshSymbol unit old name ffiRow).run p).2.names.table (.symbol unit old)).isSome =
        true := by
  obtain ⟨h₁, h₂, h₃⟩ := giveNumber_step h unit hkey hold hnamed
  unfold freshSymbol
  simp only [StateT.run_bind]
  cases ffiRow with
  | none => exact ⟨h₁, h₂, Option.isSome_iff_exists.mpr ⟨_, h₃⟩⟩
  | some row =>
    dsimp only
    split
    · exact ⟨h₁, h₂, Option.isSome_iff_exists.mpr ⟨_, h₃⟩⟩
    · obtain ⟨h₄, h₅⟩ := emplace_other_step h₁ (ffiImportKey row) trivial h₃
        fun i s heq => by cases heq
      have h₃' := h₅.table _ _ h₃
      obtain ⟨h₆, h₇⟩ := emplace_other_step h₄ (.importedName name) trivial h₃'
        fun i s heq => by cases heq
      exact ⟨h₆, h₂.trans (h₅.trans h₇), Option.isSome_iff_exists.mpr ⟨_, h₇.table _ _ h₃'⟩⟩

theorem settles_of_step {p p' : MergePlan} {k : MergeKey}
    (h : PlanInv units p' ∧ p.names.Extends p'.names ∧ (p'.names.table k).isSome = true) :
    PlanInv units p' ∧ p.names.Extends p'.names ∧
      ∀ n, p'.names.Extends n → (n.table k).isSome = true := by
  obtain ⟨h₁, h₂, h₃⟩ := h
  obtain ⟨id, hid⟩ := Option.isSome_iff_exists.mp h₃
  exact ⟨h₁, h₂, fun n hn => Option.isSome_iff_exists.mpr ⟨id, hn.table _ _ hid⟩⟩

theorem assignSymbol_settles {P : Names MergeKey → Prop} {unit old : ℕ} {name : String}
    {ffiRow : Option ExternImport} {isLocalDef : Bool} (hold : old ≠ 0)
    (hP : ∀ n, P n → NamesGiven units n)
    (hF : name ≠ "" → isLocalDef = false → PlanFoldable units (.symbol unit old))
    (hnamed : ∀ u, units[unit]? = some u → ∀ f ∈ u.functions, ¬ PrivateFunction f →
      f.symbol = old → name = f.name ∧ isLocalDef = false) :
    Settles MergePlan.names (PlanInv units) P (assignSymbol unit old name ffiRow isLocalDef)
      fun n _ => (n.table (.symbol unit old)).isSome = true := by
  intro p hp hP'
  have hgiven := hP _ (hP' _ (.refl _))
  -- a function that can be named shares the number of its name
  have hshares : ∀ i u, units[i]? = some u → ∀ f ∈ u.functions, ¬ PrivateFunction f →
      MergeKey.symbol unit old = .symbol i f.symbol →
      name = f.name ∧ isLocalDef = false ∧ (p.names.table (.name f.name)).isSome = true := by
    intro i u hu f hf hprivate heq
    obtain ⟨rfl, rfl⟩ := MergeKey.symbol.inj heq
    obtain ⟨h₁, h₂⟩ := hnamed u hu f hf hprivate rfl
    exact ⟨h₁, h₂, hgiven _ (mem_mirDefs hu hf hprivate)⟩
  unfold assignSymbol
  simp only [StateT.run_bind, StateT.run_get, pure_bind]
  cases hkey : p.names.table (.symbol unit old) with
  | some id =>
    refine ⟨hp, .refl _, fun n hn => ?_⟩
    exact Option.isSome_iff_exists.mpr ⟨id, hn.table _ _ hkey⟩
  | none =>
    dsimp only
    by_cases hcond : name ≠ "" ∧ (!isLocalDef) = true
    · rw [if_pos hcond]
      have hlocal : isLocalDef = false := by simpa using hcond.2
      cases hshared : (p.names.table (.name name)).orElse fun _ =>
          ffiRow.bind fun row => p.names.table (ffiImportKey row) with
      | some id =>
        -- the number comes from the name or from the dynamic symbol
        have hfrom : ∃ k₀, p.names.table k₀ = some id := by
          cases hname : p.names.table (.name name) with
          | some id' =>
            rw [hname] at hshared
            exact ⟨_, hname.trans hshared⟩
          | none =>
            rw [hname] at hshared
            obtain ⟨row, -, hrow⟩ := Option.bind_eq_some_iff.mp hshared
            exact ⟨_, hrow⟩
        obtain ⟨k₀, hk₀⟩ := hfrom
        refine settles_of_step (emplace_step hp (hF hcond.1 hlocal) hk₀ ?_)
        intro i u hu f hf hprivate heq
        obtain ⟨rfl, -, hsome⟩ := hshares i u hu f hf hprivate heq
        obtain ⟨id', hid'⟩ := Option.isSome_iff_exists.mp hsome
        rw [hid'] at hshared
        exact hid'.trans hshared
      | none =>
        -- no function that can be named gets here
        have hnone : p.names.table (.name name) = none := by
          cases hname : p.names.table (.name name) with
          | none => rfl
          | some id' =>
            rw [hname] at hshared
            cases hshared
        have hnot : ∀ i u, units[i]? = some u → ∀ f ∈ u.functions, ¬ PrivateFunction f →
            MergeKey.symbol unit old ≠ .symbol i f.symbol := by
          intro i u hu f hf hprivate heq
          obtain ⟨rfl, -, hsome⟩ := hshares i u hu f hf hprivate heq
          rw [hnone] at hsome
          cases hsome
        exact settles_of_step (freshSymbol_step hp hkey hold hnot)
    · rw [if_neg hcond]
      refine settles_of_step (freshSymbol_step hp hkey hold ?_)
      intro i u hu f hf hprivate heq
      obtain ⟨rfl, hlocal, -⟩ := hshares i u hu f hf hprivate heq
      exact hcond ⟨fun hname => hprivate (.inr hname), by simp [hlocal]⟩

def FunctionsGiven (n : Names MergeKey) (i : ℕ) (u : CompiledUnit) : Prop :=
  ∀ f ∈ u.functions, (n.table (.symbol i f.symbol)).isSome = true

theorem UnitsOk.function_inj (h : UnitsOk units) {u : CompiledUnit} (hu : u ∈ units)
    {f g : UnitFunction} (hf : f ∈ u.functions) (hg : g ∈ u.functions)
    (hfg : f.symbol = g.symbol) : f = g := by
  have hnodup : (u.functions.map (·.symbol)).Nodup := by
    have := h.declared u hu
    exact ((List.nodup_append.mp (List.nodup_append.mp (List.nodup_append.mp this).1).1).1)
  exact List.inj_on_of_nodup_map hnodup hf hg hfg

theorem UnitsOk.not_function (h : UnitsOk units) {u : CompiledUnit} (hu : u ∈ units) {s : ℕ}
    (hs : s ∈ u.globals.map (·.symbol) ∨ s ∈ u.externImports.map (·.symbol) ∨ s ∈ u.blockExports)
    {f : UnitFunction} (hf : f ∈ u.functions) : f.symbol ≠ s := by
  rintro rfl
  have hmem : f.symbol ∈ u.functions.map (·.symbol) := List.mem_map_of_mem hf
  have h₁ := List.nodup_append.mp (h.declared u hu)
  have h₂ := List.nodup_append.mp h₁.1
  have h₃ := List.nodup_append.mp h₂.1
  rcases hs with hs | hs | hs
  · exact h₃.2.2 _ hmem _ hs rfl
  · exact h₂.2.2 _ (List.mem_append_left _ hmem) _ hs rfl
  · exact h₁.2.2 _ (List.mem_append_left _ (List.mem_append_left _ hmem)) _ hs rfl

theorem mem_of_getElem? {i : ℕ} {u : CompiledUnit} (hu : units[i]? = some u) : u ∈ units :=
  List.mem_of_getElem? hu

theorem assignOther_settles {P : Names MergeKey → Prop} (hok : UnitsOk units) {i : ℕ}
    {u : CompiledUnit} (hu : units[i]? = some u) {s : ℕ} {name : String}
    {ffiRow : Option ExternImport} {isLocalDef : Bool} (hP : ∀ n, P n → NamesGiven units n)
    (hs : s ∈ u.globals.map (·.symbol) ∨ s ∈ u.externImports.map (·.symbol) ∨
      s ∈ u.blockExports) :
    Settles MergePlan.names (PlanInv units) P (assignSymbol i s name ffiRow isLocalDef)
      fun n _ => P n := by
  have hmem := mem_of_getElem? hu
  have hs0 : s ≠ 0 := by
    rintro rfl
    have := hok.valid u hmem
    simp only [List.mem_append, not_or] at this
    rcases hs with hs | hs | hs
    · exact this.1.1.1.2 hs
    · exact this.1.1.2 hs
    · exact this.1.2 hs
  refine (assignSymbol_settles hs0 hP (fun _ _ => ?_) ?_).mono (fun _ h => h) fun n _ hn _ => hn
  · intro u' hu' f hf hfs
    rw [hu] at hu'
    cases hu'
    exact absurd hfs (hok.not_function hmem hs hf)
  · intro u' hu' f hf _ hfs
    rw [hu] at hu'
    cases hu'
    exact absurd hfs (hok.not_function hmem hs hf)

theorem assignUnit_settles {P : Names MergeKey → Prop} (hok : UnitsOk units) {i : ℕ}
    {u : CompiledUnit} (hu : units[i]? = some u) (hP : ∀ n, P n → NamesGiven units n) :
    Settles MergePlan.names (PlanInv units) P (assignUnit i u)
      fun n _ => P n ∧ FunctionsGiven n i u := by
  have hmem := mem_of_getElem? hu
  unfold assignUnit
  have hfuns : Settles MergePlan.names (PlanInv units) P
      (u.functions.forM fun f => assignSymbol i f.symbol f.name none (f.binding = .«local»))
      fun n _ => P n ∧ FunctionsGiven n i u := by
    refine Settles.mono (Settles.forM (J := fun (done : List UnitFunction) n => P n ∧
      ∀ f ∈ done, (n.table (.symbol i f.symbol)).isSome = true) (fun n hn => ⟨hn, by simp⟩) ?_)
      (fun _ h => h) fun _ _ _ h => h
    intro done f rest hl
    have hf : f ∈ u.functions := by simp [hl]
    have hf0 : f.symbol ≠ 0 := by
      intro h0
      have := hok.valid u hmem
      simp only [List.mem_append, not_or] at this
      exact this.1.1.1.1 (h0 ▸ List.mem_map_of_mem hf)
    refine (assignSymbol_settles hf0 (fun n hn => hP n hn.1) (fun hname hlocal => ?_) ?_).mono
      (fun _ h => h) fun n _ hn hsome => ⟨hn.1, ?_⟩
    · -- the function can be named
      intro u' hu' g hg hgs
      rw [hu] at hu'
      cases hu'
      rw [hok.function_inj hmem hg hf hgs]
      rintro (hbind | hname')
      · simp [hbind] at hlocal
      · exact hname hname'
    · intro u' hu' g hg hprivate hgs
      rw [hu] at hu'
      cases hu'
      rw [hok.function_inj hmem hg hf hgs] at hprivate ⊢
      exact ⟨rfl, decide_eq_false fun hbind => hprivate (.inl hbind)⟩
    · intro g hg
      rcases List.mem_append.mp hg with hg | hg
      · exact hn.2.2 g hg
      · rw [List.mem_singleton.mp hg]
        exact hsome
  refine hfuns.bind fun _ => ?_
  refine Settles.bind (Settles.forM (J := fun _ n => P n ∧ FunctionsGiven n i u)
    (fun n hn => hn.2) fun done g rest hl => ?_) fun _ => ?_
  · refine (assignOther_settles hok hu (fun n hn => hP n hn.1.1) (.inl ?_)).mono (fun _ h => h)
      fun n _ hn _ => hn.2
    simp [hl]
  refine Settles.bind (Settles.forM (J := fun _ n => P n ∧ FunctionsGiven n i u)
    (fun n hn => hn.2) fun done e rest hl => ?_) fun _ => ?_
  · refine (assignOther_settles hok hu (fun n hn => hP n hn.2.1) (.inr (.inl ?_))).mono
      (fun _ h => h) fun n _ hn _ => hn.2
    simp [hl]
  refine Settles.mono (Settles.forM (J := fun _ n => P n ∧ FunctionsGiven n i u)
    (fun n hn => hn.2) fun done s rest hl => ?_) (fun _ h => h) fun _ _ _ h => h
  refine (assignOther_settles hok hu (fun n hn => hP n hn.2.1) (.inr (.inr ?_))).mono
    (fun _ h => h) fun n _ hn _ => hn.2
  simp [hl]

theorem assignShim_settles {P : Names MergeKey → Prop} {unit : ℕ} {shim : ℕ × String}
    (hshim : shim.1 ≠ 0)
    (hP : ∀ n, P n → ∀ i u, units[i]? = some u → FunctionsGiven n i u) :
    Settles MergePlan.names (PlanInv units) P (assignShim unit shim) fun n _ => P n := by
  intro p hp hP'
  have hgiven := hP _ (hP' _ (.refl _))
  suffices hstep : PlanInv units ((assignShim unit shim).run p).2 ∧
      p.names.Extends ((assignShim unit shim).run p).2.names from
    ⟨hstep.1, hstep.2, fun n hn => hP' n (hstep.2.trans hn)⟩
  unfold assignShim
  simp only [StateT.run_bind, StateT.run_get, pure_bind]
  cases hkey : p.names.table (.symbol unit shim.1) with
  | some id => exact ⟨hp, .refl _⟩
  | none =>
    -- every function has its number, so the shim is none
    have hnot : ∀ u, units[unit]? = some u → ∀ f ∈ u.functions, f.symbol ≠ shim.1 := by
      intro u hu f hf hfs
      have hsome := hgiven unit u hu f hf
      rw [hfs, hkey] at hsome
      cases hsome
    have hF : PlanFoldable units (.symbol unit shim.1) :=
      fun u hu f hf hfs => absurd hfs (hnot u hu f hf)
    have hnamed : ∀ i u, units[i]? = some u → ∀ f ∈ u.functions, ¬ PrivateFunction f →
        MergeKey.symbol unit shim.1 ≠ .symbol i f.symbol := by
      intro i u hu f hf _ heq
      obtain ⟨rfl, hsym⟩ := MergeKey.symbol.inj heq
      exact hnot u hu f hf hsym.symm
    dsimp only
    split
    · exact ⟨hp, .refl _⟩
    · cases hshared : (p.names.table (.name shim.2)).orElse fun _ =>
          (p.names.table (.importedName shim.2)).orElse fun _ => p.names.table (.shim shim.2) with
      | some id =>
        have hfrom : ∃ k₀, p.names.table k₀ = some id := by
          cases h₁ : p.names.table (.name shim.2) with
          | some id' =>
            rw [h₁] at hshared
            exact ⟨_, h₁.trans hshared⟩
          | none =>
            rw [h₁] at hshared
            cases h₂ : p.names.table (.importedName shim.2) with
            | some id' =>
              rw [h₂] at hshared
              exact ⟨_, h₂.trans hshared⟩
            | none =>
              rw [h₂] at hshared
              exact ⟨_, hshared⟩
        obtain ⟨k₀, hk₀⟩ := hfrom
        obtain ⟨h₁, h₂, -⟩ := emplace_step hp hF hk₀ fun i u hu f hf hprivate heq =>
          absurd heq (hnamed i u hu f hf hprivate)
        exact ⟨h₁, h₂⟩
      | none =>
        obtain ⟨h₁, h₂, h₃⟩ := giveNumber_step hp unit hkey hshim hnamed
        obtain ⟨h₄, h₅⟩ := emplace_other_step h₁ (.shim shim.2) trivial h₃
          fun i s heq => by cases heq
        exact ⟨h₄, h₂.trans h₅⟩

theorem giveNumber_table_ne {p : MergePlan} {key k : MergeKey} (hk : k ≠ key) (unit symbol : ℕ) :
    ((giveNumber key unit symbol).run p).2.names.table k = p.names.table k := by
  unfold giveNumber
  simp only [StateT.run_bind, StateT.run_get, pure_bind]
  split
  · exact Names.give_table_ne _ hk _
  · exact Names.give_table_ne _ hk _

theorem assignName_step {winners : String → Option LinkedSymbolKey} {name : String}
    (hvalid : ∀ key, winners name = some key → key.symbol ≠ 0) {p : MergePlan}
    (hp : PlanInv units p) (hnone : p.names.table (.name name) = none) :
    PlanInv units ((assignName winners name).run p).2 ∧
      p.names.Extends ((assignName winners name).run p).2.names ∧
      ((winners name).isSome = true →
        (((assignName winners name).run p).2.names.table (.name name)).isSome = true) ∧
      ∀ k, k ≠ .name name →
        ((assignName winners name).run p).2.names.table k = p.names.table k := by
  unfold assignName
  cases hwin : winners name with
  | none => exact ⟨hp, .refl _, fun h => absurd h (by simp), fun _ _ => rfl⟩
  | some key =>
    obtain ⟨h₁, h₂, h₃⟩ := giveNumber_step hp (key.cuId - 1) hnone (hvalid key hwin)
      fun i u _ f _ _ heq => by cases heq
    refine ⟨h₁, h₂, fun _ => Option.isSome_iff_exists.mpr ⟨_, h₃⟩, fun k hk => ?_⟩
    exact giveNumber_table_ne hk _ _

theorem assignNames_step (winners : String → Option LinkedSymbolKey) {names : List String}
    (hnodup : names.Nodup)
    (hvalid : ∀ name ∈ names, ∀ key, winners name = some key → key.symbol ≠ 0)
    {p : MergePlan} (hp : PlanInv units p)
    (hnone : ∀ name ∈ names, p.names.table (.name name) = none) :
    PlanInv units ((assignNames winners names).run p).2 ∧
      p.names.Extends ((assignNames winners names).run p).2.names ∧
      ∀ name ∈ names, (winners name).isSome = true →
        (((assignNames winners names).run p).2.names.table (.name name)).isSome = true := by
  unfold assignNames
  induction names generalizing p with
  | nil => exact ⟨hp, .refl _, by simp⟩
  | cons name names ih =>
    rw [List.nodup_cons] at hnodup
    obtain ⟨h₁, h₂, h₃, h₄⟩ := assignName_step (hvalid name (by simp)) hp (hnone name (by simp))
    have hrest := ih hnodup.2 (fun n hn => hvalid n (by simp [hn])) h₁ ?_
    · obtain ⟨h₅, h₆, h₇⟩ := hrest
      refine ⟨h₅, h₂.trans h₆, fun n hn hwin => ?_⟩
      rcases List.mem_cons.mp hn with rfl | hn
      · obtain ⟨id, hid⟩ := Option.isSome_iff_exists.mp (h₃ hwin)
        exact Option.isSome_iff_exists.mpr ⟨id, h₆.table _ _ hid⟩
      · exact h₇ n hn hwin
    · intro n hn
      have hne : MergeKey.name n ≠ .name name := by
        intro heq
        exact hnodup.1 (MergeKey.name.inj heq ▸ hn)
      rw [h₄ _ hne]
      exact hnone n (by simp [hn])

theorem mem_mirDefs_iff {d : CrossCuDef} (hd : d ∈ mirDefs units) :
    d.name ≠ "" ∧ d.binding ≠ .«local» ∧ ∃ i u, units[i]? = some u ∧ d.key.cuId = i + 1 ∧
      d.key.symbol ∈ u.functions.map (·.symbol) ++ u.globals.map (·.symbol) := by
  obtain ⟨⟨u, i⟩, hu, hd⟩ := List.mem_flatMap.mp hd
  obtain ⟨e, he, hd⟩ := List.mem_filterMap.mp hd
  split at hd
  · cases hd
  · rename_i hcond
    cases hd
    obtain ⟨hname, hbind⟩ := not_or.mp hcond
    refine ⟨hname, hbind, i, u, List.mem_zipIdx_iff_getElem?.mp hu, rfl, ?_⟩
    rcases List.mem_append.mp he with he | he
    · obtain ⟨f, hf, rfl⟩ := List.mem_map.mp he
      exact List.mem_append_left _ (List.mem_map_of_mem hf)
    · obtain ⟨g, hg, rfl⟩ := List.mem_map.mp he
      exact List.mem_append_right _ (List.mem_map_of_mem hg)

theorem wins_mem {defs : List CrossCuDef} {name : String} {k : LinkedSymbolKey}
    (h : Wins defs name k) : ∃ d ∈ defs, d.name = name ∧ d.name ≠ "" ∧ d.key = k := by
  have hkeys : ∃ b, k ∈ keysOf defs b name := by
    rcases h with h | h
    · exact ⟨_, h.1⟩
    · exact ⟨_, h.2.1⟩
  obtain ⟨b, hk⟩ := hkeys
  obtain ⟨d, hd, rfl⟩ := List.mem_map.mp hk
  have hd' := List.mem_filter.mp hd
  have hcond := of_decide_eq_true hd'.2
  exact ⟨d, hd'.1, hcond.1, hcond.2.1, rfl⟩

theorem winners_isSome {defs : List CrossCuDef} {d : CrossCuDef} (hd : d ∈ defs)
    (hname : d.name ≠ "") (hbind : d.binding ≠ .«local») :
    ((resolveCrossCuDefs defs).winners d.name).isSome = true := by
  by_contra hnone
  have hnone' : (resolveCrossCuDefs defs).winners d.name = none := by simpa using hnone
  have hrow := (resolveFold_resolved defs).row d.name
  have htable : (resolveFold defs).table d.name = none := by
    have : ((resolveFold defs).table d.name).map CrossCuDef.key = none := hnone'
    simpa using this
  rw [htable] at hrow
  obtain ⟨hg, hw⟩ := hrow
  cases hb : d.binding with
  | «local» => exact hbind hb
  | global =>
    have : d.key ∈ keysOf defs .global d.name :=
      List.mem_map.mpr ⟨d, List.mem_filter.mpr ⟨hd, by simp [hname, hb]⟩, rfl⟩
    rw [hg] at this
    cases this
  | weak =>
    have : d.key ∈ keysOf defs .weak d.name :=
      List.mem_map.mpr ⟨d, List.mem_filter.mpr ⟨hd, by simp [hname, hb]⟩, rfl⟩
    rw [hw] at this
    cases this

theorem planInv_empty {next : ℕ} (h : 0 < next) : PlanInv units ⟨.empty, [], next⟩ := by
  refine ⟨Naming.empty, ?_, rfl, ?_, h, ?_⟩ <;> simp [Names.empty]

theorem mergePlan_spec (hok : UnitsOk units) :
    PlanInv units (mergePlan units) ∧ NamesGiven units (mergePlan units).names ∧
      ∀ i u, units[i]? = some u → FunctionsGiven (mergePlan units).names i u := by
  have h0 : PlanInv units ⟨.empty, [], maxSymbol (units.headD default) + 1⟩ :=
    planInv_empty (Nat.succ_pos _)
  have hmem : ∀ name ∈ winnerNames units, ∃ d ∈ mirDefs units, d.name = name := by
    intro name hname
    have := (List.mem_insertionSort _).mp hname
    obtain ⟨d, hd, rfl⟩ := List.mem_map.mp (List.mem_dedup.mp this)
    exact ⟨d, hd, rfl⟩
  have hnodup : (winnerNames units).Nodup :=
    (List.perm_insertionSort _ _).nodup_iff.mpr (List.nodup_dedup _)
  obtain ⟨h₁, -, h₃⟩ := assignNames_step (resolveCrossCuDefs (mirDefs units)).winners hnodup
    (by
      intro name _ key hkey
      obtain ⟨d, hd, -, -, rfl⟩ := wins_mem ((winners_eq_some_iff _ _ _).mp hkey)
      obtain ⟨-, -, i, u, hu, -, hsym⟩ := mem_mirDefs_iff hd
      intro h0
      have := hok.valid u (mem_of_getElem? hu)
      rw [h0] at hsym
      exact this (List.mem_append_left _ (List.mem_append_left _ (List.mem_append_left _ hsym))))
    h0 (fun name _ => rfl)
  have hgiven : NamesGiven units ((assignNames (resolveCrossCuDefs (mirDefs units)).winners
      (winnerNames units)).run ⟨.empty, [], maxSymbol (units.headD default) + 1⟩).2.names := by
    intro d hd
    obtain ⟨hname, hbind, -⟩ := mem_mirDefs_iff hd
    refine h₃ d.name ?_ (winners_isSome hd hname hbind)
    exact (List.mem_insertionSort _).mpr (List.mem_dedup.mpr (List.mem_map_of_mem hd))
  -- names stay given
  have hstays : ∀ {n n' : Names MergeKey}, n.Extends n' → NamesGiven units n →
      NamesGiven units n' := by
    intro n n' hext hn d hd
    obtain ⟨id, hid⟩ := Option.isSome_iff_exists.mp (hn d hd)
    exact Option.isSome_iff_exists.mpr ⟨id, hext.table _ _ hid⟩
  have hrest : Settles MergePlan.names (PlanInv units) (NamesGiven units) (do
      units.zipIdx.forM fun p => assignUnit p.2 p.1
      units.zipIdx.forM fun p => assignShims p.2 p.1)
      fun n _ => NamesGiven units n ∧ ∀ i u, units[i]? = some u → FunctionsGiven n i u := by
    refine Settles.bind (Q := fun n _ => NamesGiven units n ∧
      ∀ i u, units[i]? = some u → FunctionsGiven n i u) ?_ fun _ => ?_
    · refine Settles.mono (Settles.forM (J := fun (done : List (CompiledUnit × ℕ)) n =>
        NamesGiven units n ∧ ∀ p ∈ done, FunctionsGiven n p.2 p.1) (fun n hn => ⟨hn, by simp⟩) ?_)
        (fun _ h => h) ?_
      · intro done p rest hl
        have hp : units[p.2]? = some p.1 :=
          List.mem_zipIdx_iff_getElem?.mp (by simp [hl])
        refine (assignUnit_settles hok hp fun n hn => hn.1).mono (fun _ h => h) ?_
        intro n _ hn hfun
        refine ⟨hn.1, fun q hq => ?_⟩
        rcases List.mem_append.mp hq with hq | hq
        · exact hn.2.2 q hq
        · rw [List.mem_singleton.mp hq]
          exact hfun.2
      · intro n _ _ hn
        exact ⟨hn.1, fun i u hu => hn.2 (u, i) (List.mem_zipIdx_iff_getElem?.mpr hu)⟩
    · refine Settles.mono (Settles.forM (J := fun _ n => NamesGiven units n ∧
        ∀ i u, units[i]? = some u → FunctionsGiven n i u) (fun n hn => hn.2) ?_) (fun _ h => h)
        fun _ _ _ h => h
      intro done p rest hl
      have hp : units[p.2]? = some p.1 := List.mem_zipIdx_iff_getElem?.mp (by simp [hl])
      unfold assignShims
      refine Settles.mono (Settles.forM (J := fun _ n => NamesGiven units n ∧
        ∀ i u, units[i]? = some u → FunctionsGiven n i u) (fun n hn => hn.2) ?_) (fun _ h => h)
        fun _ _ _ h => h
      intro done' shim rest' hl'
      refine (assignShim_settles ?_ fun n hn => hn.2.2).mono (fun _ h => h) fun n _ hn _ => hn.2
      intro h0
      have := hok.valid p.1 (mem_of_getElem? hp)
      refine this (List.mem_append_right _ (List.mem_map.mpr ⟨shim, by simp [hl'], h0⟩))
  obtain ⟨h₄, -, h₅⟩ := hrest _ h₁ fun n hn => hstays hn hgiven
  exact ⟨h₄, h₅ _ (.refl _)⟩

end

def Survives (units : List CompiledUnit) (i : ℕ) (f : UnitFunction) : Prop :=
  PrivateFunction f ∨ Wins (mirDefs units) f.name ⟨i + 1, f.symbol⟩

theorem isShadowedLoser_iff {units : List CompiledUnit} {i : ℕ} {u : CompiledUnit}
    (hu : units[i]? = some u) {f : UnitFunction} (hf : f ∈ u.functions) :
    isShadowedLoser (resolveCrossCuDefs (mirDefs units)).winners i f = true ↔
      ¬ Survives units i f := by
  unfold isShadowedLoser Survives PrivateFunction
  by_cases hname : f.name = ""
  · simp [hname]
  · by_cases hbind : f.binding = .«local»
    · simp [hname, hbind]
    · rw [if_neg hname, if_neg hbind]
      have hprivate : ¬ PrivateFunction f := fun h => h.elim hbind hname
      have hd := mem_mirDefs hu hf hprivate
      obtain ⟨key, hkey⟩ := Option.isSome_iff_exists.mp (winners_isSome hd hname hbind)
      dsimp only at hkey
      have hwins := (winners_eq_some_iff _ _ _).mp hkey
      obtain ⟨d, hd', -, -, hdkey⟩ := wins_mem hwins
      obtain ⟨-, -, j, -, -, hj, -⟩ := mem_mirDefs_iff hd'
      rw [hdkey] at hj
      rw [hkey]
      have hiff : Wins (mirDefs units) f.name ⟨i + 1, f.symbol⟩ ↔ key = ⟨i + 1, f.symbol⟩ := by
        constructor
        · exact fun h => hwins.unique h
        · rintro rfl
          exact hwins
      simp only [hiff, hbind, hname, false_or]
      obtain ⟨cuId, symbol⟩ := key
      simp only at hj
      subst hj
      simp only [add_tsub_cancel_right, Bool.not_eq_true', Bool.and_eq_false_iff,
        decide_eq_false_iff_not, LinkedSymbolKey.mk.injEq, add_left_inj]
      tauto

theorem mergePlan_inj {units : List CompiledUnit} (hok : UnitsOk units) {i j : ℕ}
    {u v : CompiledUnit} (hu : units[i]? = some u) (hv : units[j]? = some v) {f g : UnitFunction}
    (hf : f ∈ u.functions) (hg : g ∈ v.functions) (hsf : Survives units i f)
    (hsg : Survives units j g) {id : ℕ}
    (hidf : mergedSymbolOf (mergePlan units) i f.symbol = some id)
    (hidg : mergedSymbolOf (mergePlan units) j g.symbol = some id) : i = j ∧ f = g := by
  obtain ⟨hinv, -, -⟩ := mergePlan_spec hok
  -- a private function owns its number, and the name of another function owns its number
  have howner : ∀ {i : ℕ} {u : CompiledUnit} {f : UnitFunction}, units[i]? = some u →
      f ∈ u.functions → mergedSymbolOf (mergePlan units) i f.symbol = some id →
      PrivateFunction f ∧ (mergePlan units).names.owner id = some (.symbol i f.symbol) ∨
        ¬ PrivateFunction f ∧ (mergePlan units).names.owner id = some (.name f.name) := by
    intro i u f hu hf hid
    by_cases hprivate : PrivateFunction f
    · refine .inl ⟨hprivate, hinv.naming.own _ _ (fun hF => ?_) hid⟩
      exact hF u hu f hf rfl hprivate
    · refine .inr ⟨hprivate, hinv.naming.own _ _ (fun hF => hF) ?_⟩
      exact hinv.named i u hu f hf hprivate id hid
  have heq : i = j ∧ f.symbol = g.symbol := by
    rcases howner hu hf hidf with ⟨hpf, hof⟩ | ⟨hpf, hof⟩
    · rcases howner hv hg hidg with ⟨hpg, hog⟩ | ⟨hpg, hog⟩
      · rw [hof] at hog
        exact MergeKey.symbol.inj (Option.some_inj.mp hog)
      · rw [hof] at hog
        cases hog
    · rcases howner hv hg hidg with ⟨hpg, hog⟩ | ⟨hpg, hog⟩
      · rw [hof] at hog
        cases hog
      · rw [hof] at hog
        have hname := MergeKey.name.inj (Option.some_inj.mp hog)
        have hwf := hsf.resolve_left hpf
        have hwg := hsg.resolve_left hpg
        rw [← hname] at hwg
        have hkey := hwf.unique hwg
        simp only [LinkedSymbolKey.mk.injEq] at hkey
        exact ⟨by omega, hkey.2⟩
  obtain ⟨rfl, hsym⟩ := heq
  rw [hu] at hv
  cases hv
  exact ⟨rfl, hok.function_inj (mem_of_getElem? hu) hf hg hsym⟩

end DssPrime.Linker
