import DssPrime.Mir.LazyImport
import DssPrime.Run.Agree
import DssPrime.Run.Outcome

/-!
# The prefetch depth is invisible

The depth of the policy cuts the closure of the importable callees into fetch batches and decides
nothing else.  A level takes names or ends the closure (`takeLevel_progress`), so the closure ends
on every call graph, cycles included, and ends in the same state for every depth
(`takeClosure_levels`).  The rest of the driver never reads the number of batches (`Alike`), and so
two runs that differ in the depth differ in that number only.
-/

namespace DssPrime.Mirsum

section

variable {importer : ℕ} {cus : List LazyImportCu} {summaries : List ModuleSummary}
  {index : SummaryIndex} {policy : SummaryIndexPolicy}

theorem takeName_ok {st st' : Closure} {name : String}
    (h : takeName importer cus summaries index policy st name = .ok st') :
    st' = st ∨ ∃ site, name ∉ st.taken ∧ index.definitionOf name = some site ∧
      isImportable importer name cus summaries index policy = .ok true ∧
      st'.taken = st.taken ++ [name] ∧
      st'.frontier = st.frontier ++ directCallees (calleeOf summaries site) ∧
      st'.picked = pushPicked st.picked site.moduleIndex name := by
  unfold takeName at h
  split at h
  · cases h
    exact .inl rfl
  · rename_i hnew
    cases himp : isImportable importer name cus summaries index policy with
    | error e =>
      rw [himp] at h
      cases h
    | ok importable =>
      rw [himp] at h
      cases importable with
      | false =>
        cases h
        exact .inl rfl
      | true =>
        cases hdef : index.definitionOf name with
        | none =>
          simp only [hdef] at h
          cases h
          exact .inl rfl
        | some site =>
          simp only [hdef] at h
          by_cases hbudget : policy.perModuleImportInstBudget ≠ 0 ∧
              st.spent + (calleeOf summaries site).instCount > policy.perModuleImportInstBudget
          · have : st = st' := by
              simpa [hbudget, bind, Except.bind, pure, Except.pure] using h
            exact .inl this.symm
          · simp only [bind, Except.bind, pure, Except.pure, Bool.not_true, Bool.false_eq_true,
              if_false, if_neg hbudget] at h
            cases h
            exact .inr ⟨site, hnew, rfl, rfl, rfl, rfl, rfl⟩

theorem takeName_cases {st st' : Closure} {name : String}
    (h : takeName importer cus summaries index policy st name = .ok st') :
    st' = st ∨ name ∉ st.taken ∧ (index.definitionOf name).isSome = true ∧
      st'.taken = st.taken ++ [name] := by
  rcases takeName_ok h with heq | ⟨site, hnew, hdef, -, htaken, -, -⟩
  · exact .inl heq
  · exact .inr ⟨hnew, by rw [hdef]; rfl, htaken⟩

def untaken (index : SummaryIndex) (taken : List String) : Finset String :=
  (index.winners.map Prod.fst).toFinset \ taken.toFinset

theorem untaken_card_le (taken : List String) :
    (untaken index taken).card ≤ index.winners.length :=
  calc (untaken index taken).card ≤ (index.winners.map Prod.fst).toFinset.card :=
        Finset.card_le_card Finset.sdiff_subset
    _ ≤ (index.winners.map Prod.fst).length := List.toFinset_card_le _
    _ = index.winners.length := List.length_map _

theorem untaken_subset {taken taken' : List String} (h : taken ⊆ taken') :
    untaken index taken' ⊆ untaken index taken := by
  refine Finset.sdiff_subset_sdiff (Finset.Subset.refl _) ?_
  intro n hn
  exact List.mem_toFinset.mpr (h (List.mem_toFinset.mp hn))

theorem mem_untaken {taken : List String} {name : String} (hnew : name ∉ taken)
    (hdef : (index.definitionOf name).isSome = true) : name ∈ untaken index taken := by
  obtain ⟨p, hp, hname⟩ := List.lookup_isSome_iff.mp hdef
  have hfst : p.1 = name := (eq_of_beq hname).symm
  refine Finset.mem_sdiff.mpr ⟨List.mem_toFinset.mpr (List.mem_map.mpr ⟨p, hp, hfst⟩), ?_⟩
  exact fun hmem => hnew (List.mem_toFinset.mp hmem)

/-- What a level does to the closure: it takes nothing and leaves nothing to do, or it takes a name
that was still to be taken. -/
structure LevelMade (index : SummaryIndex) (st st' : Closure) : Prop where
  kept : st.taken ⊆ st'.taken
  progress : st'.frontier = [] ∨
    ∃ name ∈ untaken index st.taken, name ∈ st'.taken

theorem takeLevel_progress {st st' : Closure}
    (h : takeLevel importer cus summaries index policy st = .ok st') : LevelMade index st st' := by
  unfold takeLevel at h
  -- the invariant of the walk over the level
  have hwalk : ∀ (names : List String) (cur : Closure), LevelMade index st cur →
      names.foldlM (takeName importer cus summaries index policy) cur = .ok st' →
      LevelMade index st st' := by
    intro names
    induction names with
    | nil =>
      intro cur hcur hfold
      cases hfold
      exact hcur
    | cons name names ih =>
      intro cur hcur hfold
      rw [List.foldlM_cons] at hfold
      obtain ⟨next, hname, hrest⟩ := exists_of_bind_eq_ok hfold
      refine ih next ?_ hrest
      rcases takeName_cases hname with rfl | ⟨hnew, hdef, htaken⟩
      · exact hcur
      · constructor
        · rw [htaken]
          exact fun n hn => List.mem_append_left _ (hcur.kept hn)
        · refine .inr ⟨name, mem_untaken (fun hn => hnew (hcur.kept hn)) hdef, ?_⟩
          rw [htaken]
          simp
  exact hwalk _ { st with frontier := [] } ⟨List.Subset.refl _, .inl rfl⟩ h

def levelsLeft (index : SummaryIndex) (st : Closure) : ℕ :=
  if st.frontier = [] then 0 else (untaken index st.taken).card + 1

theorem levelsLeft_lowers :
    Chunked.Lowers (fun st : Closure => !st.frontier.isEmpty)
      (takeLevel importer cus summaries index policy) (levelsLeft index) where
  pos st hmore := by
    have hne : st.frontier ≠ [] := by simpa using hmore
    rw [levelsLeft, if_neg hne]
    omega
  step st st' hmore hstep := by
    have hne : st.frontier ≠ [] := by simpa using hmore
    have hmade := takeLevel_progress hstep
    rw [levelsLeft, levelsLeft, if_neg hne]
    split
    · omega
    · rename_i hfrontier
      obtain ⟨name, hname, htaken⟩ := hmade.progress.resolve_left hfrontier
      -- the name taken was still to be taken, and no longer is
      have hlt : untaken index st'.taken ⊂ untaken index st.taken := by
        refine Finset.ssubset_iff_subset_ne.mpr ⟨untaken_subset hmade.kept, fun heq => ?_⟩
        rw [← heq] at hname
        exact (Finset.mem_sdiff.mp hname).2 (List.mem_toFinset.mpr htaken)
      have := Finset.card_lt_card hlt
      omega

theorem levelsLeft_le (st : Closure) : levelsLeft index st ≤ index.winners.length + 1 := by
  have : (untaken index st.taken).card ≤ index.winners.length := untaken_card_le st.taken
  unfold levelsLeft
  split <;> omega

theorem takeClosure_levels {levels levels' : ℕ} (hl : 0 < levels) (hl' : 0 < levels')
    (frontier taken : List String) (spent : UInt32) (batches batches' : ℕ) :
    (takeClosure importer cus summaries index policy frontier levels taken spent batches).map
        Prod.fst =
      (takeClosure importer cus summaries index policy frontier levels' taken spent batches').map
        Prod.fst := by
  unfold takeClosure
  rw [Chunked.chunked_eq_upTo levelsLeft_lowers _ hl (levelsLeft_le _),
    Chunked.chunked_eq_upTo levelsLeft_lowers _ hl' (levelsLeft_le _)]

def Ends {α : Type} (x : Except Stop α) : Prop := Holds (fun e => e ≠ .outOfFuel) (fun _ => True) x

theorem ends_ok {α : Type} (a : α) : Ends (.ok a) := trivial

theorem ends_aborted {α : Type} : Ends (.error .aborted : Except Stop α) := by
  show Stop.aborted ≠ .outOfFuel
  decide

theorem Ends.ne {α : Type} {x : Except Stop α} (h : Ends x) : x ≠ .error .outOfFuel :=
  fun hx => h.of_error hx rfl

theorem Ends.bind {α β : Type} {x : Except Stop α} {k : α → Except Stop β} (h : Ends x)
    (hk : ∀ a, Ends (k a)) : Ends (x >>= k) :=
  Holds.bind h fun a _ => hk a

theorem isImportable_ends (name : String) :
    Ends (isImportable importer name cus summaries index policy) := by
  unfold isImportable
  dsimp only
  repeat' split
  all_goals first | exact ends_ok _ | exact ends_aborted

theorem takeName_ends (st : Closure) (name : String) :
    Ends (takeName importer cus summaries index policy st name) := by
  unfold takeName
  split
  · exact ends_ok _
  · refine (isImportable_ends name).bind fun importable => ?_
    dsimp only
    repeat' split
    all_goals exact ends_ok _

theorem takeLevel_ends (st : Closure) :
    Ends (takeLevel importer cus summaries index policy st) :=
  Holds.foldlM (I := fun _ _ => True) trivial fun _ name _ cur _ _ => takeName_ends cur name

theorem takeClosure_ends {levels : ℕ} (hl : 0 < levels) (frontier taken : List String)
    (spent : UInt32) (batches : ℕ) :
    Ends (takeClosure importer cus summaries index policy frontier levels taken spent batches) := by
  have hlevel : ∀ st, takeLevel importer cus summaries index policy st ≠ .error .outOfFuel :=
    fun st => (takeLevel_ends st).ne
  have hne := Chunked.chunked_ne_out levelsLeft_lowers .outOfFuel hl
    (levelsLeft_le ⟨frontier, taken, spent, [], 0⟩) batches hlevel
  unfold takeClosure
  cases hrun : Chunked.chunked (fun st : Closure => !st.frontier.isEmpty)
    (takeLevel importer cus summaries index policy) .outOfFuel levels
    (index.winners.length + 1) ⟨frontier, taken, spent, [], 0⟩ batches with
  | ok r => exact ends_ok r
  | error e =>
    show e ≠ .outOfFuel
    rintro rfl
    exact hne hrun

end

section

variable {Lattice Callback : Type} {tools : Tools Lattice Callback} {importer : ℕ}
  {cus : List LazyImportCu} {summaries : List ModuleSummary} {index : SummaryIndex}
  {policy : SummaryIndexPolicy} {ownerCu : ℕ} {sourceLanguage : String}
  {recipeByName : List (String × String)}

def LazyImportOutcome.withBatches (out : LazyImportOutcome Lattice) (b : ℕ) :
    LazyImportOutcome Lattice := { out with importBatches := b }

def Live.withBatches (live : Live Lattice Callback) (b : ℕ) : Live Lattice Callback :=
  { live with out := live.out.withBatches b }

def Alike (live live' : Live Lattice Callback) : Prop := ∃ b, live' = live.withBatches b

def AlikeStep (r r' : Bool × Live Lattice Callback) : Prop := r.1 = r'.1 ∧ Alike r.2 r'.2

theorem Alike.finished {live live' : Live Lattice Callback} (h : Alike live live') :
    Alike (finished live) (finished live') := by
  obtain ⟨b, rfl⟩ := h
  refine ⟨b, ?_⟩
  show Mirsum.finished (live.withBatches b) = _
  unfold Mirsum.finished
  show (if live.out.importedBodies ≠ 0 then _ else _) = Live.withBatches (if _ then _ else _) b
  split <;> rfl

theorem mergeBatch_alike {live live' : Live Lattice Callback} (h : Alike live live')
    (batch : ImportBatch) :
    Agree AlikeStep
      (mergeBatch tools importer cus summaries index ownerCu sourceLanguage recipeByName live batch)
      (mergeBatch tools importer cus summaries index ownerCu sourceLanguage recipeByName live'
        batch) := by
  obtain ⟨b, rfl⟩ := h
  unfold mergeBatch
  -- the cloner is given the same modules
  show Agree AlikeStep (mergeInputs cus live batch >>= _) (mergeInputs cus live batch >>= _)
  refine Agree.bind_same fun inputs => Agree.bind_same fun r => ?_
  obtain ⟨merged, reporter⟩ := r
  cases merged with
  | none => exact .ok ⟨rfl, b, rfl⟩
  | some merged =>
    refine Agree.bind_same fun externs => ?_
    exact .ok ⟨rfl, b, rfl⟩

theorem batchLevels_pos (depth : UInt32) : 0 < if depth = 0 then 1 else depth.toNat := by
  split
  · exact Nat.one_pos
  · rename_i hd
    exact Nat.pos_of_ne_zero fun h0 => hd (UInt32.toNat_inj.mp h0)

theorem importRound_alike {live live' : Live Lattice Callback} (h : Alike live live')
    (depth : UInt32) :
    Agree AlikeStep
      (importRound tools importer cus summaries index policy ownerCu sourceLanguage recipeByName
        live)
      (importRound tools importer cus summaries index { policy with maxImportDepth := depth }
        ownerCu sourceLanguage recipeByName live') := by
  obtain ⟨b, rfl⟩ := h
  unfold importRound
  refine (agree_of_map_eq (takeClosure_levels (batchLevels_pos _) (batchLevels_pos depth)
      _ _ _ _ _)).bind ?_
  rintro ⟨st, batches⟩ ⟨_, batches'⟩ rfl
  dsimp only
  split
  · exact mergeBatch_alike ⟨batches', rfl⟩ (batchOf st)
  · exact .ok ⟨rfl, batches', rfl⟩

theorem optimizeRound_alike {live live' : Live Lattice Callback} (h : Alike live live')
    (depth : UInt32) :
    Agree (fun r r' => r.1 = r'.1 ∧ Alike r.2 r'.2)
      (optimizeRound tools importer cus summaries index policy ownerCu sourceLanguage recipeByName
        live)
      (optimizeRound tools importer cus summaries index { policy with maxImportDepth := depth }
        ownerCu sourceLanguage recipeByName live') := by
  unfold optimizeRound
  refine (importRound_alike h depth).bind ?_
  rintro ⟨cloned, live₁⟩ ⟨_, live₁'⟩ ⟨rfl, b, rfl⟩
  cases cloned with
  | false => exact .ok ⟨rfl, b, rfl⟩
  | true =>
    simp only [Bool.not_true, Bool.false_eq_true, if_false]
    by_cases hnone : live₁.out.importedBodies = 0
    · rw [if_pos hnone, if_pos (show (live₁.withBatches b).out.importedBodies = 0 from hnone)]
      exact .ok ⟨rfl, Alike.finished ⟨b, rfl⟩⟩
    · rw [if_neg hnone, if_neg (show ¬ (live₁.withBatches b).out.importedBodies = 0 from hnone)]
      refine Agree.bind_same fun r => ?_
      obtain ⟨optimized, mir, callback⟩ := r
      cases optimized with
      | false => exact .ok ⟨rfl, b, rfl⟩
      | true =>
        refine Agree.bind_same fun fresh => ?_
        cases hfresh : fresh.isEmpty with
        | true =>
          simp only [if_true]
          exact .ok ⟨rfl, Alike.finished ⟨b, rfl⟩⟩
        | false =>
          simp only [Bool.false_eq_true, if_false]
          exact .ok ⟨rfl, b, rfl⟩

theorem importRounds_alike (depth : UInt32) (left : ℕ) {live live' : Live Lattice Callback}
    (h : Alike live live') :
    Agree Alike
      (importRounds tools importer cus summaries index policy ownerCu sourceLanguage recipeByName
        left live)
      (importRounds tools importer cus summaries index { policy with maxImportDepth := depth }
        ownerCu sourceLanguage recipeByName left live') := by
  induction left generalizing live live' with
  | zero =>
    unfold importRounds
    refine (optimizeRound_alike h depth).bind ?_
    rintro ⟨exposed, live₁⟩ ⟨_, live₁'⟩ ⟨rfl, b, rfl⟩
    cases exposed with
    | none => exact .ok ⟨b, rfl⟩
    | some fresh => exact .ok (Alike.finished ⟨b, rfl⟩)
  | succ left ih =>
    unfold importRounds
    refine (optimizeRound_alike h depth).bind ?_
    rintro ⟨exposed, live₁⟩ ⟨_, live₁'⟩ ⟨rfl, b, rfl⟩
    cases exposed with
    | none => exact .ok ⟨b, rfl⟩
    | some fresh => exact ih ⟨b, rfl⟩

theorem orAbort_ends {α : Type} (x : Option α) : Ends (orAbort x) := by
  cases x with
  | none => exact ends_aborted
  | some a => exact ends_ok a

theorem mapM_ends {α β : Type} {f : α → Except Stop β} (hf : ∀ a, Ends (f a)) (l : List α) :
    Ends (l.mapM f) :=
  Holds.imp (Holds.mapM (R := fun _ _ => True) fun a _ => hf a) fun _ _ => trivial

theorem mergeBatch_ends (live : Live Lattice Callback) (batch : ImportBatch) :
    Ends (mergeBatch tools importer cus summaries index ownerCu sourceLanguage recipeByName live
      batch) := by
  unfold mergeBatch mergeInputs declareUndefinedReferences
  refine Ends.bind (Ends.bind (mapM_ends (fun p => ?_) _) fun _ => ends_ok _) fun inputs => ?_
  · exact (orAbort_ends _).bind fun _ => (orAbort_ends _).bind fun _ => (orAbort_ends _).bind
      fun _ => ends_ok _
  · refine (orAbort_ends _).bind fun r => ?_
    obtain ⟨merged, reporter⟩ := r
    cases merged with
    | none => exact ends_ok _
    | some merged =>
      refine Ends.bind ((mapM_ends (fun v => ?_) _).bind fun _ => ends_ok _) fun _ => ends_ok _
      unfold undefinedRow
      repeat' split
      all_goals first | exact ends_ok _ | exact ends_aborted

theorem importRound_ends (live : Live Lattice Callback) :
    Ends (importRound tools importer cus summaries index policy ownerCu sourceLanguage recipeByName
      live) := by
  unfold importRound
  refine Ends.bind (takeClosure_ends (batchLevels_pos _) _ _ _ _) fun r => ?_
  dsimp only
  split
  · exact mergeBatch_ends _ _
  · exact ends_ok _

theorem exposed_ends (taken fresh : List String) (n : String) :
    Ends (exposed importer cus summaries index policy taken fresh n) := by
  unfold exposed
  split
  · exact ends_ok _
  · refine (isImportable_ends n).bind fun importable => ?_
    cases importable <;> exact ends_ok _

theorem optimizeRound_ends (live : Live Lattice Callback) :
    Ends (optimizeRound tools importer cus summaries index policy ownerCu sourceLanguage
      recipeByName live) := by
  unfold optimizeRound
  refine (importRound_ends live).bind fun r => ?_
  obtain ⟨cloned, live₁⟩ := r
  dsimp only
  split
  · exact ends_ok _
  · split
    · exact ends_ok _
    · refine (orAbort_ends _).bind fun r => ?_
      obtain ⟨optimized, mir, callback⟩ := r
      dsimp only
      split
      · exact ends_ok _
      · refine Ends.bind (Holds.foldlM (I := fun _ _ => True) trivial
          fun _ n _ fresh _ _ => exposed_ends _ fresh n) fun fresh => ?_
        split <;> exact ends_ok _

theorem importRounds_ends (left : ℕ) (live : Live Lattice Callback) :
    Ends (importRounds tools importer cus summaries index policy ownerCu sourceLanguage recipeByName
      left live) := by
  induction left generalizing live with
  | zero =>
    unfold importRounds
    refine (optimizeRound_ends live).bind fun r => ?_
    obtain ⟨exposed, live₁⟩ := r
    cases exposed <;> exact ends_ok _
  | succ left ih =>
    unfold importRounds
    refine (optimizeRound_ends live).bind fun r => ?_
    obtain ⟨exposed, live₁⟩ := r
    cases exposed with
    | none => exact ends_ok _
    | some fresh => exact ih live₁

def apartFromBatches
    (r : LazyImportOutcome Lattice × List ParseDiagnostic × Callback × List ImportBatch) :
    LazyImportOutcome Lattice × List ParseDiagnostic × Callback × List ImportBatch :=
  (r.1.withBatches 0, r.2)

/-- The prefetch depth never changes the result: two runs that differ in it give the same module,
names, rows, recipes and diagnostics from the same merges, and leave the callback in the same state.
-/
theorem lazyImportOptimize_depth (tools : Tools Lattice Callback) (importer : ℕ)
    (cus : List LazyImportCu) (summaries : List ModuleSummary) (index : SummaryIndex)
    (policy : SummaryIndexPolicy) (sourceLanguage : String) (callback : Callback)
    (reporter : List ParseDiagnostic) (depth : UInt32) :
    (lazyImportOptimize tools importer cus summaries index { policy with maxImportDepth := depth }
        sourceLanguage callback reporter).map apartFromBatches =
      (lazyImportOptimize tools importer cus summaries index policy sourceLanguage callback
        reporter).map apartFromBatches ∧
    lazyImportOptimize tools importer cus summaries index policy sourceLanguage callback reporter ≠
      .error .outOfFuel := by
  unfold lazyImportOptimize
  dsimp only
  split
  · exact ⟨rfl, (ends_ok _).ne⟩
  · split
    · constructor
      · refine (Agree.map_eq (R := fun a b => apartFromBatches a = apartFromBatches b) ?_
          fun _ _ hab => hab).symm
        refine (importRounds_alike depth _ ⟨0, rfl⟩).bind ?_
        rintro live _ ⟨b, rfl⟩
        exact .ok rfl
      · exact (Ends.bind (importRounds_ends _ _) fun _ => ends_ok _).ne
    · exact ⟨rfl, (ends_ok _).ne⟩

end

end DssPrime.Mirsum
