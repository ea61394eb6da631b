import DssPrime.Opt.ClobberMemo

/-!
# The clobber index covers the reference walk

The argument about paths is the *re-execution lemma*: a block is entered only at its first
instruction, so a path that avoids the program point `from` and enters its block can never leave it
again.
-/

namespace DssPrime

def points (m : MirData) : Finset Point :=
  ((List.range m.blockCount).flatMap fun b =>
    (List.range (m.blockInstCount b + 1)).map fun i => (b, i)).toFinset

theorem mem_points {m : MirData} {p : Point} :
    p ∈ points m ↔ p.1 < m.blockCount ∧ p.2 ≤ m.blockInstCount p.1 := by
  simp only [points, List.mem_toFinset, List.mem_flatMap, List.mem_range, List.mem_map]
  constructor
  · rintro ⟨b, hb, i, hi, rfl⟩
    exact ⟨hb, Nat.lt_succ_iff.1 hi⟩
  · rintro ⟨hb, hi⟩
    exact ⟨p.1, hb, p.2, by omega, rfl⟩

theorem card_points_le (m : MirData) : (points m).card ≤ pointCount m := by
  refine (List.toFinset_card_le _).trans ?_
  simp [List.length_flatMap, pointCount]

theorem points_closed_succs {m : MirData} (barrier : Point) {p q : Point} (hp : p ∈ points m)
    (hq : q ∈ pointSuccs m barrier p) : q ∈ points m := by
  rw [mem_points] at hp ⊢
  rw [pointSuccs, List.mem_filter] at hq
  obtain ⟨hq, -⟩ := hq
  split_ifs at hq with hlt
  · rw [List.mem_singleton] at hq
    subst hq
    exact ⟨hp.1, hlt⟩
  · simp only [List.mem_map, List.mem_filter, decide_eq_true_eq] at hq
    obtain ⟨s, ⟨-, -, hs⟩, rfl⟩ := hq
    exact ⟨hs, Nat.zero_le _⟩

theorem points_closed_preds {m : MirData} (preds : List (List ℕ)) (barrier : Point) {p q : Point}
    (hp : p ∈ points m) (hq : q ∈ pointPreds m preds barrier p) : q ∈ points m := by
  rw [mem_points] at hp ⊢
  rw [pointPreds, List.mem_filter] at hq
  obtain ⟨hq, -⟩ := hq
  split_ifs at hq with hlt
  · rw [List.mem_singleton] at hq
    subst hq
    exact ⟨hp.1, by simp only; omega⟩
  · simp only [List.mem_map, List.mem_filter, decide_eq_true_eq] at hq
    obtain ⟨s, ⟨-, -, hs⟩, rfl⟩ := hq
    exact ⟨hs, le_rfl⟩

theorem pointWalk_isSome {m : MirData} {next : Point → List Point}
    (hc : ∀ p ∈ points m, ∀ q ∈ next p, q ∈ points m) {p : Point} (hp : p ∈ points m) :
    ∃ r, Worklist.run next (pointCount m) [p] [p] = some r := by
  refine Worklist.run_isSome (U := points m) hc (by simpa using hp) (by simp) (by simp) ?_
  have := card_points_le m
  simp only [List.length_singleton]
  omega

theorem anyM_eq_some_true {α : Type*} {p : α → Option Bool} {xs : List α}
    (h : xs.anyM p = some true) : ∃ x ∈ xs, p x = some true := by
  induction xs with
  | nil => simp at h
  | cons x xs ih =>
    simp only [List.anyM_cons, Option.bind_eq_bind, Option.bind_eq_some_iff] at h
    obtain ⟨b, hb, h⟩ := h
    cases b with
    | true => exact ⟨x, List.mem_cons_self, hb⟩
    | false =>
      obtain ⟨y, hy, hp⟩ := ih (by simpa using h)
      exact ⟨y, List.mem_cons_of_mem _ hy, hp⟩

theorem anyM_isSome {α : Type*} {p : α → Option Bool} {xs : List α}
    (h : ∀ x ∈ xs, (p x).isSome) : (xs.anyM p).isSome := by
  induction xs with
  | nil => rfl
  | cons x xs ih =>
    obtain ⟨b, hb⟩ := Option.isSome_iff_exists.1 (h x List.mem_cons_self)
    simp only [List.anyM_cons, hb, Option.bind_eq_bind, Option.bind_some]
    cases b with
    | true => rfl
    | false => exact ih fun y hy => h y (List.mem_cons_of_mem _ hy)

theorem mirInstClobbersLoadPtr_isSome {m : Mir} {t : TypeInterner} {mode : MirAliasMode}
    {escape : Option MirPointerEscape} {loadPtr inst : ℕ} (hp : m.IsInst loadPtr)
    (hi : m.IsInst inst) :
    (mirInstClobbersLoadPtr m.toMirData t mode escape loadPtr inst).isSome := by
  rw [mirInstClobbersLoadPtr]
  split_ifs with hs
  · rfl
  · rw [not_not] at hs
    have hb := m.instBuilt hi
    have harity := hb.arity
    rw [hs] at harity
    obtain ⟨w, q, h⟩ := List.length_eq_two.1 (le_antisymm (harity.2 2 rfl) harity.1)
    have hq : m.IsInst q := hb.operands q (by simp [h])
    have h0 : ¬ (loadPtr = 0 ∨ q = 0) := by simp [hp.1, hq.1]
    simp only [h, Option.isSome_map, mirMayAlias, if_neg h0]
    split_ifs <;> rfl

namespace MirMemoryClobbers

variable {cap : ℕ} {ix : MirMemoryClobbers} {t : TypeInterner} {mode : MirAliasMode}
  {loadPtr fb fi tb ti : ℕ}

theorem verdict_isSome {b i : ℕ} (hp : ix.mir.IsInst loadPtr)
    (hi : i < ix.mir.blockInstCount b) :
    (ix.verdict t mode loadPtr (ix.mir.blockInstAt b i)).isSome :=
  mirInstClobbersLoadPtr_isSome hp (ix.mir.isInst_blockInstAt hi)

theorem mirAnyClobberOnPathBetweenPoints_isSome (t : TypeInterner) (mode : MirAliasMode)
    (hi : IsIndex ix) (hp : ix.mir.IsInst loadPtr)
    (hf : fi < ix.mir.blockInstCount fb) (ht : ti < ix.mir.blockInstCount tb)
    (ho : fb = tb → fi < ti) :
    (mirAnyClobberOnPathBetweenPoints ix.mir.toMirData t mode (some ix.escape) ix.preds loadPtr
      fb fi tb ti).isSome := by
  have hlen : ix.preds.length = ix.mir.blockCount := by
    rw [hi.preds_eq, length_mirBuildPredecessors]
  obtain ⟨fwd, hfwd⟩ := pointWalk_isSome
    (fun p hp q hq => points_closed_succs (fb, fi) hp hq)
    (p := (fb, fi + 1)) (mem_points.2 ⟨(ix.mir.isBlock_of_lt hf).2, hf⟩)
  obtain ⟨bwd, hbwd⟩ := pointWalk_isSome
    (fun p hp q hq => points_closed_preds ix.preds (fb, fi) hp hq)
    (p := (tb, ti)) (mem_points.2 ⟨(ix.mir.isBlock_of_lt ht).2, ht.le⟩)
  rw [mirAnyClobberOnPathBetweenPoints, if_neg (not_not.2 hlen), if_neg (by omega),
    if_neg (fun h => by have := ho h.1; omega)]
  simp only [hfwd, hbwd, Option.bind_eq_bind, Option.bind_some]
  refine anyM_isSome fun p hq => ?_
  simp only [List.mem_filter, decide_eq_true_eq] at hq
  exact verdict_isSome hp hq.2.2.1

section Paths

theorem reaches_fst_of_fwd {p : Point}
    (h : Worklist.Reaches (pointSuccs ix.mir.toMirData (fb, fi)) (fb, fi + 1) p) :
    Worklist.Reaches (ix.reachNext true) fb p.1 ∧ p ≠ (fb, fi) := by
  induction h with
  | refl => exact ⟨.refl, by simp⟩
  | @tail p q _ hpq ih =>
    rw [Worklist.Edge, pointSuccs, List.mem_filter, decide_eq_true_eq] at hpq
    obtain ⟨hq, hne⟩ := hpq
    refine ⟨?_, hne⟩
    split_ifs at hq with hlt
    · rw [List.mem_singleton] at hq
      rw [hq]
      exact ih.1
    · obtain ⟨s, hs, rfl⟩ := List.mem_map.1 hq
      exact ih.1.tail hs

theorem reaches_fst_of_bwd {p : Point}
    (h : Worklist.Reaches (pointPreds ix.mir.toMirData ix.preds (fb, fi)) (tb, ti) p) :
    Worklist.Reaches (ix.reachNext false) tb p.1 := by
  induction h with
  | refl => exact .refl
  | @tail p q _ hpq ih =>
    rw [Worklist.Edge, pointPreds, List.mem_filter, decide_eq_true_eq] at hpq
    obtain ⟨hq, -⟩ := hpq
    split_ifs at hq with hlt
    · rw [List.mem_singleton] at hq
      rw [hq]
      exact ih
    · obtain ⟨s, hs, rfl⟩ := List.mem_map.1 hq
      exact ih.tail hs

theorem bwd_same_block (hlt : fi < ti) {p : Point}
    (h : Worklist.Reaches (pointPreds ix.mir.toMirData ix.preds (fb, fi)) (fb, ti) p) :
    p.1 = fb ∧ fi < p.2 ∧ p.2 ≤ ti := by
  induction h with
  | refl => exact ⟨rfl, hlt, le_rfl⟩
  | @tail p q _ hpq ih =>
    rw [Worklist.Edge, pointPreds, List.mem_filter, decide_eq_true_eq,
      if_pos (by omega), List.mem_singleton] at hpq
    obtain ⟨rfl, hne⟩ := hpq
    obtain ⟨h1, h2, h3⟩ := ih
    have : p.2 - 1 ≠ fi := fun h => hne (by rw [h1, h])
    exact ⟨h1, by simp only; omega, by simp only; omega⟩

/-- The re-execution lemma: walking back without passing `from`, its block is left only at its
end, so only its tail is met. -/
theorem bwd_fromBlock (hb : fb ≠ tb) (hf : fi < ix.mir.blockInstCount fb) {p : Point}
    (h : Worklist.Reaches (pointPreds ix.mir.toMirData ix.preds (fb, fi)) (tb, ti) p) :
    p.1 = fb → fi < p.2 := by
  induction h with
  | refl => exact fun h => absurd h.symm hb
  | @tail p q _ hpq ih =>
    rw [Worklist.Edge, pointPreds, List.mem_filter, decide_eq_true_eq] at hpq
    obtain ⟨hq, hne⟩ := hpq
    intro hq1
    split_ifs at hq with hlt
    · rw [List.mem_singleton] at hq
      subst hq
      have h2 : fi < p.2 := ih hq1
      have : p.2 - 1 ≠ fi := fun h => hne (by rw [← hq1, ← h])
      show fi < p.2 - 1
      omega
    · obtain ⟨s, hs, rfl⟩ := List.mem_map.1 hq
      obtain rfl : s = fb := hq1
      exact hf

/-- Walking back from `to` without passing `from`, a point is in the head of `to`'s block or
its block leads to `to`'s block outside `from`'s block. -/
theorem bwd_cycle (hi : IsIndex ix) (hb : fb ≠ tb) (hf : fi < ix.mir.blockInstCount fb)
    {p : Point}
    (h : Worklist.Reaches (pointPreds ix.mir.toMirData ix.preds (fb, fi)) (tb, ti) p) :
    (p.1 = tb ∧ p.2 ≤ ti) ∨ Relation.TransGen (ix.SelfEdge fb) p.1 tb := by
  induction h with
  | refl => exact .inl ⟨rfl, le_rfl⟩
  | @tail p q hp hpq ih =>
    rw [Worklist.Edge, pointPreds, List.mem_filter, decide_eq_true_eq] at hpq
    obtain ⟨hq, -⟩ := hpq
    split_ifs at hq with hlt
    · rw [List.mem_singleton] at hq
      subst hq
      refine ih.imp_left fun h => ⟨h.1, ?_⟩
      show p.2 - 1 ≤ ti
      omega
    · obtain ⟨s, hs, rfl⟩ := List.mem_map.1 hq
      rw [List.mem_filter, hi.preds_eq] at hs
      obtain ⟨-, -, -, hsucc⟩ := mem_mirBuildPredecessors.1 hs.1
      have hpb := (ix.mir.isBlock_of_mem_succs hsucc).2
      have hne : p.1 ≠ fb := fun h => by
        have := bwd_fromBlock hb hf hp h
        omega
      have hedge : ix.SelfEdge fb s p.1 := ⟨hsucc, hpb.1, hpb.2, fun h => hne h.2⟩
      rcases ih with ⟨h1, -⟩ | ih
      · exact .inr (h1 ▸ .single hedge)
      · exact .inr (.head hedge ih)

theorem slice_of_path (hi : IsIndex ix) (hf : fi < ix.mir.blockInstCount fb)
    (ht : ti < ix.mir.blockInstCount tb) (ho : fb = tb → fi < ti) {p : Point}
    (hfwd : Worklist.Reaches (pointSuccs ix.mir.toMirData (fb, fi)) (fb, fi + 1) p)
    (hbwd : Worklist.Reaches (pointPreds ix.mir.toMirData ix.preds (fb, fi)) (tb, ti)
      (p.1, p.2 + 1))
    (hne : p ≠ (tb, ti)) (hc : p.2 < ix.mir.blockInstCount p.1) :
    Slice ix fb fi tb ti p.1 p.2 := by
  obtain ⟨b, i⟩ := p
  simp only at hbwd hc ⊢
  obtain ⟨hreach, hbar⟩ := reaches_fst_of_fwd hfwd
  by_cases hb : fb = tb
  · subst hb
    obtain ⟨h1, h2, h3⟩ := bwd_same_block (ho rfl) hbwd
    obtain rfl : b = fb := h1
    have : i ≠ fi := fun h => hbar (by rw [h])
    exact .range rfl (by omega) (by omega)
  · by_cases hbf : b = fb
    · subst hbf
      have h2 : fi < i + 1 := bwd_fromBlock hb hf hbwd rfl
      have : i ≠ fi := fun h => hbar (by rw [h])
      exact .fromTail hb (by omega) hc
    · by_cases hbt : b = tb
      · subst hbt
        have : i ≠ ti := fun h => hne (by rw [h])
        rcases lt_or_gt_of_ne this with hlt | hgt
        · exact .toHead hb hlt
        · rcases bwd_cycle hi hb hf hbwd with ⟨-, hle⟩ | hcyc
          · have : i + 1 ≤ ti := hle
            omega
          · exact .toTail hb hgt hc hcyc
      · have hblk := ix.mir.isBlock_of_lt hc
        exact .between hb (Nat.pos_of_ne_zero hblk.1) hblk.2 (ix.mir.isBlock_of_lt hf).1
          (ix.mir.isBlock_of_lt ht).1 hbf hbt hreach (reaches_fst_of_bwd hbwd)

end Paths

variable {s : ClobberMemo}

theorem exists_slice_of_path (hi : IsIndex ix) (hf : fi < ix.mir.blockInstCount fb)
    (ht : ti < ix.mir.blockInstCount tb) (ho : fb = tb → fi < ti)
    (h : mirAnyClobberOnPathBetweenPoints ix.mir.toMirData t mode (some ix.escape) ix.preds
      loadPtr fb fi tb ti = some true) :
    ∃ b, ∃ d ∈ ix.blockClobbers b, Slice ix fb fi tb ti b d.instIdxInBlock ∧
      ix.verdict t mode loadPtr d.inst = some true := by
  have hlen : ix.preds.length = ix.mir.blockCount := by
    rw [hi.preds_eq, length_mirBuildPredecessors]
  rw [mirAnyClobberOnPathBetweenPoints, if_neg (not_not.2 hlen), if_neg (by omega),
    if_neg (fun h => by have := ho h.1; omega)] at h
  simp only [Option.bind_eq_bind, Option.bind_eq_some_iff] at h
  obtain ⟨fwd, hfwd, bwd, hbwd, h⟩ := h
  obtain ⟨p, hp, hv⟩ := anyM_eq_some_true h
  simp only [List.mem_filter, decide_eq_true_eq] at hp
  obtain ⟨hpf, hne, hc, hpb⟩ := hp
  obtain ⟨p₀, hp₀, hpf⟩ := (Worklist.mem_run_iff hfwd).1 hpf
  obtain ⟨q₀, hq₀, hpb⟩ := (Worklist.mem_run_iff hbwd).1 hpb
  rw [List.mem_singleton] at hp₀ hq₀
  subst hp₀ hq₀
  refine ⟨p.1, ⟨ix.mir.blockInstAt p.1 p.2, p.2⟩, (mem_blockClobbers hi).2 ⟨hc, rfl, ?_⟩,
    slice_of_path hi hf ht ho hpf hpb hne hc, hv⟩
  rw [mirInstClobbersLoadPtr] at hv
  split_ifs at hv with hs
  · simpa using hv
  · rw [not_not] at hs
    simp only [hs]
    rfl

theorem anyClobberBetweenPoints_isSome (cap : ℕ) (mode : MirAliasMode) (hi : IsIndex ix)
    (hs : MemoOk ix t s) (hp : ix.mir.IsInst loadPtr) (hf : fi < ix.mir.blockInstCount fb)
    (ht : ti < ix.mir.blockInstCount tb) (ho : fb = tb → fi < ti) :
    (ix.anyClobberBetweenPoints cap t mode loadPtr fb fi tb ti s).isSome := by
  have hdef : ∀ b, ∀ d ∈ ix.blockClobbers b, (ix.verdict t mode loadPtr d.inst).isSome := by
    intro b d hd
    obtain ⟨hlt, he, -⟩ := (mem_blockClobbers hi).1 hd
    rw [he]
    exact verdict_isSome hp hlt
  have hrange : ∀ {s : ClobberMemo} (b lo up : ℕ), MemoOk ix t s →
      (ix.anyClobberInBlockRange cap t mode loadPtr b lo up s).isSome := fun b lo up hs =>
    anyDefClobbers_isSome hs fun d hd =>
      hdef b d ((mem_defsInRange (pairwise_blockClobbers hi b)).1 hd).1
  have hbetween : ∀ {s : ClobberMemo}, MemoOk ix t s →
      (ix.anyClobberBetween cap t mode loadPtr fb tb s).isSome := by
    intro s hs
    rw [anyClobberBetween]
    split_ifs
    · rfl
    · rfl
    · obtain ⟨⟨fwd, s₁⟩, hfwd⟩ := Option.isSome_iff_exists.1
        (ix.reach_isSome (ix.mir.isBlock_of_lt hf).2 true s)
      obtain ⟨⟨bwd, s₂⟩, hbwd⟩ := Option.isSome_iff_exists.1
        (ix.reach_isSome (ix.mir.isBlock_of_lt ht).2 false s₁)
      simp only [hfwd, hbwd, Option.bind_eq_bind, Option.bind_some]
      refine anyDefClobbers_isSome (reach_ok (reach_ok hs hfwd).1 hbwd).1 fun d hd => ?_
      obtain ⟨b, -, hd⟩ := List.mem_flatMap.1 hd
      exact hdef b d hd
  rw [anyClobberBetweenPoints, if_neg (by omega)]
  split_ifs with hb hle
  · have := ho hb
    omega
  · exact hrange _ _ _ hs
  · obtain ⟨⟨a, s₁⟩, ha⟩ := Option.isSome_iff_exists.1 (hrange fb (fi + 1)
      (ix.mir.blockInstCount fb) hs)
    have hs₁ := (anyClobberInBlockRange_ok hi hs ha).1
    obtain ⟨⟨b, s₂⟩, hb⟩ := Option.isSome_iff_exists.1 (hbetween hs₁)
    have hs₂ := (anyClobberBetween_ok hs₁ hb).1
    obtain ⟨⟨c, s₃⟩, hc⟩ := Option.isSome_iff_exists.1 (hrange tb 0 ti hs₂)
    have hs₃ := (anyClobberInBlockRange_ok hi hs₂ hc).1
    obtain ⟨⟨d, s₄⟩, hd⟩ := Option.isSome_iff_exists.1 (hrange tb (ti + 1)
      (ix.mir.blockInstCount tb) hs₃)
    have hs₄ := (anyClobberInBlockRange_ok hi hs₃ hd).1
    simp only [ha, hb, hc, hd, Option.bind_eq_bind, Option.bind_some]
    split_ifs
    · rfl
    · rfl
    · rfl
    · rfl
    · exact blockReachesItselfAvoiding_isSome hs₄ _ _

/-- **The point-to-point query never misses what the reference walk finds**, whatever queries
were asked before and whatever the capacity of the memo.  Both answer on every pair of program
points in program order. -/
theorem anyClobberBetweenPoints_cover (mode : MirAliasMode) (hi : IsIndex ix) {qs : List Query}
    (hqs : ix.askAll cap t qs .fresh = some s) (hp : ix.mir.IsInst loadPtr)
    (hf : fi < ix.mir.blockInstCount fb) (ht : ti < ix.mir.blockInstCount tb)
    (ho : fb = tb → fi < ti) :
    ∃ v w s', mirAnyClobberOnPathBetweenPoints ix.mir.toMirData t mode (some ix.escape)
        ix.preds loadPtr fb fi tb ti = some v ∧
      ix.anyClobberBetweenPoints cap t mode loadPtr fb fi tb ti s = some (w, s') ∧
      (v = true → w = true) := by
  have hs := askAll_ok hi memoOk_fresh hqs
  obtain ⟨v, hv⟩ := Option.isSome_iff_exists.1
    (mirAnyClobberOnPathBetweenPoints_isSome t mode hi hp hf ht ho)
  obtain ⟨⟨w, s'⟩, hw⟩ := Option.isSome_iff_exists.1
    (anyClobberBetweenPoints_isSome cap mode hi hs hp hf ht ho)
  refine ⟨v, w, s', hv, hw, fun htrue => ?_⟩
  subst htrue
  obtain ⟨b, d, hd, hsl, hd₁⟩ := exists_slice_of_path hi hf ht ho hv
  by_contra hfalse
  have hd₂ := (anyClobberBetweenPoints_ok hi hs hw).2 (by simpa using hfalse) b d hd hsl
  rw [hd₁] at hd₂
  simp at hd₂

/-- A loop that loads through a pointer argument and then stores through it: the entry loads
once and enters the loop. -/
def storeLoop : Mir where
  insts := [default,
    ⟨.arg, default, 2, [], [], 0, 0⟩, ⟨.load, default, 1, [1], [], 0, 0⟩,
    ⟨.br, default, 0, [], [], 0, 0⟩,
    ⟨.load, default, 1, [1], [], 0, 0⟩, ⟨.store, default, 0, [2, 1], [], 0, 0⟩,
    ⟨.condBr, default, 0, [4], [], 0, 0⟩,
    ⟨.ret, default, 0, [], [], 0, 0⟩]
  instBlocks := [0, 1, 1, 1, 2, 2, 2, 3]
  blocks := [default, ⟨1, 3, [2], 1⟩, ⟨4, 3, [2, 3], 1⟩, ⟨7, 1, [], 1⟩]
  funcs := [default, ⟨0, 1, 3, 1, .global, .default, false, false, false, false⟩]
  globals := [default]
  literals := []
  aliasingMode := .permissive
  charTypesAliasAll := true
  built := by decide

def storeLoopTypes : TypeInterner where
  id := 1
  kind ty := if ty = 2 then .ptr else .i32
  operands ty := if ty = 2 then [1] else []

def storeLoopIndex : MirMemoryClobbers where
  mir := storeLoop
  preds := mirBuildPredecessors storeLoop.toMirData
  escape := (MirPointerEscape.build storeLoop.toMirData).getD default
  ledger := storeLoop.moduleFuncs.flatMap fun f =>
    (storeLoop.funcBlocks f).flatMap (blockLedger storeLoop.toMirData)

/-- The store after the loop's load reaches that load along the back edge: the reference walk
finds it and so does the query, even with a memo of capacity `0` and after another query. -/
theorem anyClobberBetweenPoints_cover_storeLoop :
    mirAnyClobberOnPathBetweenPoints storeLoop.toMirData storeLoopTypes ⟨false, true⟩
      (some storeLoopIndex.escape) storeLoopIndex.preds 1 1 1 2 0 = some true ∧
    ((storeLoopIndex.askAll 0 storeLoopTypes [.reachesItself 2 1] .fresh).bind fun s =>
      (storeLoopIndex.anyClobberBetweenPoints 0 storeLoopTypes ⟨false, true⟩ 1 1 1 2 0 s).map
        Prod.fst) = some true := by
  have hspec : mirAnyClobberOnPathBetweenPoints storeLoop.toMirData storeLoopTypes ⟨false, true⟩
      (some storeLoopIndex.escape) storeLoopIndex.preds 1 1 1 2 0 = some true := by decide
  have hi : IsIndex storeLoopIndex := ⟨rfl⟩
  obtain ⟨s, hs⟩ : ∃ s, storeLoopIndex.askAll 0 storeLoopTypes [.reachesItself 2 1] .fresh =
      some s := Option.isSome_iff_exists.1 (by decide)
  obtain ⟨v, w, s', hv, hw, h⟩ := anyClobberBetweenPoints_cover ⟨false, true⟩ hi hs
    (show storeLoop.IsInst 1 by decide) (show 1 < storeLoop.blockInstCount 1 by decide)
    (show 0 < storeLoop.blockInstCount 2 by decide) (by decide)
  have hv' : v = true := Option.some.inj (hv.symm.trans hspec)
  refine ⟨hspec, ?_⟩
  rw [hs, Option.bind_some, hw, h hv']
  rfl

end MirMemoryClobbers

end DssPrime
