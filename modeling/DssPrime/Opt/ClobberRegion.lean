import DssPrime.Opt.ClobberCover

/-!
# The index answers as the plain walkers do

`mirRegionBetween` walks the control-flow graph forward from one block and backward from another and
returns the blocks in both walks, the ends left out; `mirAnyMayAliasingStoreInRegion` then scans
every instruction of a list of blocks. The index answers the same two questions from its ledger and
its memo.
-/

namespace DssPrime

section Walkers

variable (m : MirData) (t : TypeInterner)

/-- The edges of the two walks: forward along successors, backward along the predecessor map. -/
def regionNext (preds : List (List ℕ)) (forward : Bool) (b : ℕ) : List ℕ :=
  (if forward then m.blockSuccessors b else preds.getD b []).filter
    fun x => x ≠ 0 ∧ x < m.blockCount

/-- The blocks strictly between two blocks, in ascending order.  `none` is an abort: a foreign
predecessor map, or a walk over its step cap. -/
def mirRegionBetween (loadBlock useBlock : ℕ) (preds : List (List ℕ)) : Option (List ℕ) :=
  if loadBlock = 0 ∨ useBlock = 0 then some []
  else if m.blockCount = 0 then some []
  else if preds.length ≠ m.blockCount then none
  else do
    let stepCap := m.blockCount * 4 + 4
    let fwd ← Worklist.run (regionNext m preds true) stepCap [loadBlock] [loadBlock]
    let bwd ← Worklist.run (regionNext m preds false) stepCap [useBlock] [useBlock]
    let smaller := if fwd.length ≤ bwd.length then fwd else bwd
    let larger := if fwd.length ≤ bwd.length then bwd else fwd
    return (smaller.filter fun v =>
      ¬ (v < 1 ∨ m.blockCount ≤ v) ∧ ¬ (v = loadBlock ∨ v = useBlock) ∧ v ∈ larger).mergeSort
        (· ≤ ·)

/-- Some instruction of the listed blocks may clobber the load: the scan stops at the first. -/
def mirAnyMayAliasingStoreInRegion (mode : MirAliasMode) (escape : Option MirPointerEscape)
    (loadPtr : ℕ) (region : List ℕ) : Option Bool :=
  region.anyM fun b => (List.range (m.blockInstCount b)).anyM fun i =>
    mirInstClobbersLoadPtr m t mode escape loadPtr (m.blockInstAt b i)

def mirAnyMayAliasingStoreInLoop (mode : MirAliasMode) (escape : Option MirPointerEscape)
    (loadPtr : ℕ) (loopBody : List ℕ) : Option Bool :=
  mirAnyMayAliasingStoreInRegion m t mode escape loadPtr loopBody

end Walkers

section Scans

variable {α β : Type*} {p : α → Option Bool}

theorem anyM_append (xs ys : List α) :
    (xs ++ ys).anyM p = (xs.anyM p).bind fun v => if v then some true else ys.anyM p := by
  induction xs with
  | nil => rfl
  | cons x xs ih =>
    simp only [List.cons_append, List.anyM_cons, Option.bind_eq_bind]
    cases p x with
    | none => rfl
    | some v =>
      cases v with
      | true => rfl
      | false => simpa using ih

theorem anyM_flatMap (f : β → List α) (bs : List β) :
    (bs.flatMap f).anyM p = bs.anyM fun b => (f b).anyM p := by
  induction bs with
  | nil => rfl
  | cons b bs ih =>
    rw [List.flatMap_cons, anyM_append, ih, List.anyM_cons]
    cases (f b).anyM p with
    | none => rfl
    | some v => cases v <;> rfl

theorem anyM_filter {q : α → Bool} {xs : List α} (h : ∀ x ∈ xs, q x = false → p x = some false) :
    (xs.filter q).anyM p = xs.anyM p := by
  induction xs with
  | nil => rfl
  | cons x xs ih =>
    have ih := ih fun y hy => h y (List.mem_cons_of_mem _ hy)
    cases hq : q x with
    | true =>
      rw [List.filter_cons_of_pos hq, List.anyM_cons, List.anyM_cons, ih]
    | false =>
      rw [List.filter_cons_of_neg (by simp [hq]), List.anyM_cons, h x List.mem_cons_self hq, ih]
      rfl

theorem anyM_map (f : β → α) (bs : List β) : (bs.map f).anyM p = bs.anyM fun b => p (f b) := by
  induction bs with
  | nil => rfl
  | cons b bs ih => rw [List.map_cons, List.anyM_cons, List.anyM_cons, ih]

end Scans

namespace Worklist

variable {α : Type*} [DecidableEq α] {next : α → List α}

theorem nodup_run {fuel : ℕ} {work seen r : List α} (h : run next fuel work seen = some r)
    (hn : seen.Nodup) : r.Nodup := by
  induction fuel generalizing work seen with
  | zero =>
    cases work with
    | nil => exact Option.some.inj h ▸ hn
    | cons b work => cases h
  | succ fuel ih =>
    cases work with
    | nil => exact Option.some.inj h ▸ hn
    | cons b work => exact ih h (nodup_pushNew hn)

end Worklist

theorem mergeSort_eq_filter_range {l : List ℕ} {n : ℕ} {q : ℕ → Bool} (hn : l.Nodup)
    (h : ∀ v, v ∈ l ↔ v < n ∧ q v = true) :
    l.mergeSort (· ≤ ·) = (List.range n).filter q := by
  have hsorted := @List.pairwise_mergeSort ℕ (fun a b => decide (a ≤ b))
    (by simp only [decide_eq_true_eq]; omega)
    (by simp only [Bool.or_eq_true, decide_eq_true_eq]; omega) l
  have hrange : ((List.range n).filter q).Pairwise (· ≤ ·) :=
    (List.pairwise_lt_range.imp fun hab => hab.le).filter _
  refine List.Perm.eq_of_pairwise' (r := (· ≤ ·)) (hsorted.imp fun hab => of_decide_eq_true hab)
    hrange ?_
  refine (List.mergeSort_perm _ _).trans ?_
  rw [List.perm_ext_iff_of_nodup hn (List.nodup_range.filter _)]
  intro v
  rw [h v, List.mem_filter, List.mem_range]

namespace MirMemoryClobbers

variable {cap : ℕ} {ix : MirMemoryClobbers} {t : TypeInterner} {mode : MirAliasMode}
  {loadPtr : ℕ} {s : ClobberMemo}

theorem verdict_of_not_clobbering {d : ℕ}
    (hd : opcodeClobbersMemory (ix.mir.instOpcode d) = false) :
    ix.verdict t mode loadPtr d = some false := by
  have hs : ix.mir.instOpcode d ≠ .store := by
    intro hs
    rw [hs] at hd
    cases hd
  rw [verdict, mirInstClobbersLoadPtr, if_pos hs, hd]

theorem anyM_blockClobbers (hi : IsIndex ix) (b : ℕ) :
    ((ix.blockClobbers b).anyM fun d => ix.verdict t mode loadPtr d.inst) =
      (List.range (ix.mir.blockInstCount b)).anyM fun i =>
        ix.verdict t mode loadPtr (ix.mir.blockInstAt b i) := by
  by_cases hb : ix.mir.IsBlock b
  · rw [blockClobbers_eq hi hb, blockLedger, List.map_map, anyM_map]
    exact anyM_filter fun i _ hq => verdict_of_not_clobbering hq
  · have h0 : ix.mir.blockInstCount b = 0 := ix.mir.blockInstCount_eq_zero hb
    have hnil : ix.blockClobbers b = [] := by
      rw [List.eq_nil_iff_forall_not_mem]
      intro d hd
      have hlt := ((mem_blockClobbers hi).1 hd).1
      omega
    rw [hnil, h0]
    rfl

theorem defClobbers_fst (hs : MemoOk ix t s) (d : ℕ) :
    (ix.defClobbers cap t mode loadPtr d s).map Prod.fst = ix.verdict t mode loadPtr d := by
  cases hv : ix.verdict t mode loadPtr d with
  | some v =>
    obtain ⟨⟨w, s'⟩, hw⟩ := Option.isSome_iff_exists.1
      (defClobbers_isSome cap hs (by rw [hv]; rfl))
    rw [hw, Option.map_some, ← (defClobbers_ok hs hw).2, hv]
  | none =>
    cases hw : ix.defClobbers cap t mode loadPtr d s with
    | none => rfl
    | some r =>
      have := (defClobbers_ok hs hw).2
      rw [hv] at this
      cases this

theorem anyDefClobbers_fst (hs : MemoOk ix t s) (ds : List MirMemoryDef) :
    (ix.anyDefClobbers cap t mode loadPtr ds s).map Prod.fst =
      ds.anyM fun d => ix.verdict t mode loadPtr d.inst := by
  induction ds generalizing s with
  | nil => rfl
  | cons d ds ih =>
    have hd : (ix.defClobbers cap t mode loadPtr d.inst s).map Prod.fst =
        ix.verdict t mode loadPtr d.inst := defClobbers_fst hs d.inst
    rw [anyDefClobbers, List.anyM_cons, ← hd]
    cases hr : ix.defClobbers cap t mode loadPtr d.inst s with
    | none => rfl
    | some r =>
      obtain ⟨v, s'⟩ := r
      cases v with
      | true => rfl
      | false => exact ih (defClobbers_ok hs hr).1

/-- **The loop query is the scan of the loop's body.** -/
theorem anyClobberInBlocks_fst (hi : IsIndex ix) (hs : MemoOk ix t s) (blocks : List ℕ) :
    (ix.anyClobberInBlocks cap t mode loadPtr blocks s).map Prod.fst =
      mirAnyMayAliasingStoreInRegion ix.mir.toMirData t mode (some ix.escape) loadPtr blocks := by
  rw [anyClobberInBlocks, anyDefClobbers_fst hs, anyM_flatMap, mirAnyMayAliasingStoreInRegion]
  simp only [anyM_blockClobbers hi]
  rfl

def betweenBlocks (ix : MirMemoryClobbers) (cb ub : ℕ) (fwd bwd : List ℕ) : List ℕ :=
  (List.range ix.mir.blockCount).filter fun v =>
    1 ≤ v ∧ v ≠ cb ∧ v ≠ ub ∧ v ∈ fwd ∧ v ∈ bwd

theorem mirRegionBetween_eq (hi : IsIndex ix) {cb ub : ℕ} {fwd bwd : List ℕ} (hc : cb ≠ 0)
    (hu : ub ≠ 0) (hn : ix.mir.blockCount ≠ 0) (hfwd : ix.walk true cb = some fwd)
    (hbwd : ix.walk false ub = some bwd) :
    mirRegionBetween ix.mir.toMirData cb ub ix.preds =
      some (betweenBlocks ix cb ub fwd bwd) := by
  have hlen : ix.preds.length = ix.mir.blockCount := by
    rw [hi.preds_eq, length_mirBuildPredecessors]
  have hf : Worklist.run (regionNext ix.mir.toMirData ix.preds true) (ix.mir.blockCount * 4 + 4)
      [cb] [cb] = some fwd := hfwd
  have hb : Worklist.run (regionNext ix.mir.toMirData ix.preds false) (ix.mir.blockCount * 4 + 4)
      [ub] [ub] = some bwd := hbwd
  rw [mirRegionBetween, if_neg (by simp [hc, hu]), if_neg hn, if_neg (not_not.2 hlen)]
  simp only [hf, hb, Option.bind_eq_bind, Option.bind_some, Option.pure_def]
  congr 1
  apply mergeSort_eq_filter_range
  · refine List.Nodup.filter _ ?_
    split_ifs
    · exact Worklist.nodup_run hfwd (List.nodup_singleton cb)
    · exact Worklist.nodup_run hbwd (List.nodup_singleton ub)
  · intro v
    simp only [List.mem_filter, decide_eq_true_eq]
    split_ifs
    · constructor
      · rintro ⟨hvf, hr, he, hvb⟩
        exact ⟨by omega, by omega, by omega, by omega, hvf, hvb⟩
      · rintro ⟨hv, h1, hvc, hvu, hvf, hvb⟩
        exact ⟨hvf, by omega, by omega, hvb⟩
    · constructor
      · rintro ⟨hvb, hr, he, hvf⟩
        exact ⟨by omega, by omega, by omega, by omega, hvf, hvb⟩
      · rintro ⟨hv, h1, hvc, hvu, hvf, hvb⟩
        exact ⟨hvb, by omega, by omega, hvf⟩

theorem anyM_clobberBearing (hi : IsIndex ix) {q : ℕ → Bool} :
    ((ix.clobberBearingBlocks.filter q).anyM fun b =>
      (ix.blockClobbers b).anyM fun d => ix.verdict t mode loadPtr d.inst) =
      mirAnyMayAliasingStoreInRegion ix.mir.toMirData t mode (some ix.escape) loadPtr
        ((List.range ix.mir.blockCount).filter q) := by
  rw [clobberBearingBlocks, List.filter_filter, mirAnyMayAliasingStoreInRegion]
  simp only [anyM_blockClobbers hi]
  have hcomm : (List.range ix.mir.blockCount).filter
      (fun b => q b && !(ix.blockClobbers b).isEmpty) =
      ((List.range ix.mir.blockCount).filter q).filter fun b => !(ix.blockClobbers b).isEmpty := by
    rw [List.filter_filter]
    exact List.filter_congr fun b _ => Bool.and_comm _ _
  rw [hcomm]
  refine anyM_filter fun b _ hb => ?_
  have hnil : ix.blockClobbers b = [] := by simpa using hb
  rw [← anyM_blockClobbers hi, hnil]
  rfl

theorem reach_eq (hs : MemoOk ix t s) (root : ℕ) (forward : Bool) :
    (ix.walk forward root = none ∧ ix.reach root forward s = none) ∨
      ∃ r s', ix.walk forward root = some r ∧ ix.reach root forward s = some (r, s') ∧
        MemoOk ix t s' := by
  cases hr : ix.reach root forward s with
  | some w =>
    obtain ⟨r, s'⟩ := w
    obtain ⟨hs', hw⟩ := reach_ok hs hr
    exact .inr ⟨r, s', hw, rfl, hs'⟩
  | none =>
    refine .inl ⟨?_, rfl⟩
    rw [reach] at hr
    split at hr
    · cases hr
    · simp only [Option.bind_eq_bind, Option.bind_eq_none_iff] at hr
      rw [walk, Option.eq_none_iff_forall_ne_some]
      intro r hrun
      have := hr r hrun
      cases forward <;> cases this

theorem mirRegionBetween_eq_bind (hi : IsIndex ix) {cb ub : ℕ} (hc : cb ≠ 0) (hu : ub ≠ 0)
    (hn : ix.mir.blockCount ≠ 0) :
    mirRegionBetween ix.mir.toMirData cb ub ix.preds =
      (ix.walk true cb).bind fun fwd => (ix.walk false ub).bind fun bwd =>
        some (betweenBlocks ix cb ub fwd bwd) := by
  have h0 : ¬ (cb = 0 ∨ ub = 0) := fun h => h.elim hc hu
  have hlen : ix.preds.length = ix.mir.blockCount := by
    rw [hi.preds_eq, length_mirBuildPredecessors]
  cases hfwd : ix.walk true cb with
  | none =>
    have hf : Worklist.run (regionNext ix.mir.toMirData ix.preds true)
        (ix.mir.blockCount * 4 + 4) [cb] [cb] = none := hfwd
    rw [mirRegionBetween, if_neg h0, if_neg hn, if_neg (not_not.2 hlen)]
    simp only [hf, Option.bind_eq_bind, Option.bind_none]
  | some fwd =>
    cases hbwd : ix.walk false ub with
    | none =>
      have hf : Worklist.run (regionNext ix.mir.toMirData ix.preds true)
          (ix.mir.blockCount * 4 + 4) [cb] [cb] = some fwd := hfwd
      have hb : Worklist.run (regionNext ix.mir.toMirData ix.preds false)
          (ix.mir.blockCount * 4 + 4) [ub] [ub] = none := hbwd
      rw [mirRegionBetween, if_neg h0, if_neg hn, if_neg (not_not.2 hlen)]
      simp only [hf, hb, Option.bind_eq_bind, Option.bind_none, Option.bind_some]
    | some bwd => exact mirRegionBetween_eq hi hc hu hn hfwd hbwd

/-- **The region query is the scan of the plain region.** -/
theorem anyClobberBetween_fst (hi : IsIndex ix) (hs : MemoOk ix t s) (cb ub : ℕ) :
    (ix.anyClobberBetween cap t mode loadPtr cb ub s).map Prod.fst =
      (mirRegionBetween ix.mir.toMirData cb ub ix.preds).bind fun region =>
        mirAnyMayAliasingStoreInRegion ix.mir.toMirData t mode (some ix.escape) loadPtr region := by
  by_cases h0 : cb = 0 ∨ ub = 0
  · rw [anyClobberBetween, if_pos h0, mirRegionBetween, if_pos h0]
    rfl
  by_cases hn : ix.mir.blockCount = 0
  · rw [anyClobberBetween, if_neg h0, if_pos hn, mirRegionBetween, if_neg h0, if_pos hn]
    rfl
  have hc : cb ≠ 0 := fun hc => h0 (.inl hc)
  have hu : ub ≠ 0 := fun hu => h0 (.inr hu)
  rw [mirRegionBetween_eq_bind hi hc hu hn, anyClobberBetween, if_neg h0, if_neg hn]
  obtain ⟨hw, hr⟩ | ⟨fwd, s₁, hw, hr, hs₁⟩ := reach_eq hs cb true
  · rw [hw, hr]
    rfl
  obtain ⟨hw', hr'⟩ | ⟨bwd, s₂, hw', hr', hs₂⟩ := reach_eq hs₁ ub false
  · simp only [hw, hr, hw', hr', Option.bind_eq_bind, Option.bind_some, Option.bind_none,
      Option.map_none]
  simp only [hw, hr, hw', hr', Option.bind_eq_bind, Option.bind_some]
  rw [anyDefClobbers_fst hs₂, anyM_flatMap, anyM_clobberBearing hi]
  rfl

/-- **Both indexed queries answer what the plain walkers answer**, for every pointer, every pair
of blocks and every list of blocks of the module, whatever was asked before and however many
verdicts the memo has room for. -/
theorem queries_eq_plainWalkers (hi : IsIndex ix) {qs : List Query}
    (hqs : ix.askAll cap t qs .fresh = some s) (mode : MirAliasMode) (loadPtr : ℕ) :
    (∀ canonicalBlock useBlock,
      (ix.anyClobberBetween cap t mode loadPtr canonicalBlock useBlock s).map Prod.fst =
        (mirRegionBetween ix.mir.toMirData canonicalBlock useBlock ix.preds).bind
          (mirAnyMayAliasingStoreInRegion ix.mir.toMirData t mode (some ix.escape) loadPtr)) ∧
    ∀ loopBody, (ix.anyClobberInBlocks cap t mode loadPtr loopBody s).map Prod.fst =
      mirAnyMayAliasingStoreInLoop ix.mir.toMirData t mode (some ix.escape) loadPtr loopBody := by
  have hs := askAll_ok hi memoOk_fresh hqs
  exact ⟨fun cb ub => anyClobberBetween_fst hi hs cb ub,
    fun body => anyClobberInBlocks_fst hi hs body⟩

/-- In `storeLoop`, asked about the loop's block alone and about the region between the first and
the last block after another query: the store in the loop is found, by the index and so by the
plain walkers. -/
theorem queries_eq_plainWalkers_storeLoop :
    ∃ s, storeLoopIndex.askAll 1 storeLoopTypes [.reachesItself 2 1, .between ⟨false, true⟩ 1 1 3]
        .fresh = some s ∧
      (mirRegionBetween storeLoop.toMirData 1 3 storeLoopIndex.preds).bind
        (mirAnyMayAliasingStoreInRegion storeLoop.toMirData storeLoopTypes ⟨false, true⟩
          (some storeLoopIndex.escape) 1) = some true ∧
      mirAnyMayAliasingStoreInLoop storeLoop.toMirData storeLoopTypes ⟨false, true⟩
        (some storeLoopIndex.escape) 1 [2] = some true := by
  have hi : IsIndex storeLoopIndex := ⟨rfl⟩
  have hanswers : ((storeLoopIndex.askAll 1 storeLoopTypes
      [.reachesItself 2 1, .between ⟨false, true⟩ 1 1 3] .fresh).bind fun s =>
        (storeLoopIndex.anyClobberBetween 1 storeLoopTypes ⟨false, true⟩ 1 1 3 s).map Prod.fst) =
      some true ∧ ((storeLoopIndex.askAll 1 storeLoopTypes
      [.reachesItself 2 1, .between ⟨false, true⟩ 1 1 3] .fresh).bind fun s =>
        (storeLoopIndex.anyClobberInBlocks 1 storeLoopTypes ⟨false, true⟩ 1 [2] s).map Prod.fst) =
      some true := by
    decide
  obtain ⟨s, hs⟩ : ∃ s, storeLoopIndex.askAll 1 storeLoopTypes
      [.reachesItself 2 1, .between ⟨false, true⟩ 1 1 3] .fresh = some s :=
    Option.isSome_iff_exists.1 (by decide)
  rw [hs, Option.bind_some, Option.bind_some] at hanswers
  obtain ⟨hbetween, hloop⟩ := queries_eq_plainWalkers hi hs ⟨false, true⟩ 1
  refine ⟨s, hs, ?_, ?_⟩
  · exact (hbetween 1 3).symm.trans hanswers.1
  · exact (hloop [2]).symm.trans hanswers.2

end MirMemoryClobbers

end DssPrime
