import DssPrime.Opt.Clobbers

/-!
# The queries of the clobber index do not depend on their memo

Whatever was asked before, and whatever the capacity of the verdict tables, the queries of
`MirMemoryClobbers` compute what they would compute without a memo.  `MemoOk` is the invariant
that every remembered answer is the answer; each query keeps it (`MirMemoryClobbers.ask_ok`),
so it holds after every sequence of queries (`MirMemoryClobbers.askAll_ok`).
-/

namespace DssPrime.MirMemoryClobbers

variable {cap : ℕ} {ix : MirMemoryClobbers} {t : TypeInterner}

theorem nodup_allBlocks (m : Mir) : (m.moduleFuncs.flatMap m.funcBlocks).Nodup := by
  rw [List.nodup_flatMap]
  refine ⟨fun f _ => ?_, ?_⟩
  · exact (List.nodup_range).map fun i j h => by simpa [MirData.funcBlockAt] using h
  · have hn : m.moduleFuncs.Nodup :=
      (List.nodup_range).map fun i j h => by simpa [MirData.funcAt] using h
    refine hn.imp_of_mem fun {f g} hf hg hne => ?_
    intro b hbf hbg
    apply hne
    rw [← (m.funcBuilt (m.mem_moduleFuncs.1 hf)).owner b hbf,
      ← (m.funcBuilt (m.mem_moduleFuncs.1 hg)).owner b hbg]

theorem flatMap_ite_eq {α β : Type*} [DecidableEq α] {l : List α} {a : α} {X : List β}
    (hn : l.Nodup) (ha : a ∈ l) : (l.flatMap fun x => if x = a then X else []) = X := by
  induction l with
  | nil => simp at ha
  | cons x l ih =>
    rw [List.flatMap_cons]
    obtain ⟨hx, hn⟩ := List.nodup_cons.1 hn
    rcases List.mem_cons.1 ha with rfl | ha
    · have : (l.flatMap fun y => if y = a then X else []) = [] :=
        List.flatMap_eq_nil_iff.2 fun y hy => if_neg (by rintro rfl; exact hx hy)
      rw [if_pos rfl, this, List.append_nil]
    · rw [if_neg (by rintro rfl; exact hx ha), List.nil_append, ih hn ha]

theorem filter_blockLedger (m : MirData) (b c : ℕ) :
    (blockLedger m c).filter (·.1 = b) = if c = b then blockLedger m b else [] := by
  split_ifs with h
  · subst h
    rw [List.filter_eq_self]
    intro e he
    obtain ⟨i, -, rfl⟩ := List.mem_map.1 he
    simp
  · rw [List.filter_eq_nil_iff]
    intro e he
    obtain ⟨i, -, rfl⟩ := List.mem_map.1 he
    simpa using h

/-- The index is one that was built. -/
structure IsIndex (ix : MirMemoryClobbers) : Prop where
  built : build ix.mir (mirBuildPredecessors ix.mir.toMirData) = some ix

theorem IsIndex.ledger_eq (h : IsIndex ix) : ix.ledger =
    ix.mir.moduleFuncs.flatMap fun f =>
      (ix.mir.funcBlocks f).flatMap (blockLedger ix.mir.toMirData) := by
  have hb := h.built
  simp only [build, Option.bind_eq_bind, Option.bind_eq_some_iff] at hb
  obtain ⟨e, -, he⟩ := hb
  split_ifs at he with hl
  simp only [Option.pure_def, Option.some.injEq] at he
  rw [← he]

theorem IsIndex.preds_eq (h : IsIndex ix) :
    ix.preds = mirBuildPredecessors ix.mir.toMirData := by
  have hb := h.built
  simp only [build, Option.bind_eq_bind, Option.bind_eq_some_iff] at hb
  obtain ⟨e, -, he⟩ := hb
  split_ifs at he with hl
  simp only [Option.pure_def, Option.some.injEq] at he
  rw [← he]

theorem blockClobbers_eq (h : IsIndex ix) {b : ℕ} (hb : ix.mir.IsBlock b) :
    ix.blockClobbers b = (blockLedger ix.mir.toMirData b).map Prod.snd := by
  rw [blockClobbers, h.ledger_eq, List.filter_flatMap]
  simp only [List.filter_flatMap, filter_blockLedger]
  rw [← List.flatMap_assoc,
    flatMap_ite_eq (nodup_allBlocks ix.mir) (List.mem_flatMap.2
      ⟨_, (ix.mir.mem_funcBlocks_blockFunc hb).1, (ix.mir.mem_funcBlocks_blockFunc hb).2⟩)]

theorem mem_blockClobbers (h : IsIndex ix) {b : ℕ} {d : MirMemoryDef} :
    d ∈ ix.blockClobbers b ↔ d.instIdxInBlock < ix.mir.blockInstCount b ∧
      d.inst = ix.mir.blockInstAt b d.instIdxInBlock ∧
      opcodeClobbersMemory (ix.mir.instOpcode d.inst) = true := by
  by_cases hb : ix.mir.IsBlock b
  · rw [blockClobbers_eq h hb, blockLedger, List.map_map]
    simp only [List.mem_map, List.mem_filter, List.mem_range, Function.comp_apply]
    constructor
    · rintro ⟨i, ⟨hi, hc⟩, rfl⟩; exact ⟨hi, rfl, hc⟩
    · rintro ⟨hi, he, hc⟩
      refine ⟨d.instIdxInBlock, ⟨hi, he ▸ hc⟩, ?_⟩
      rw [← he]
  · have h0 : ix.mir.blockInstCount b = 0 := ix.mir.blockInstCount_eq_zero hb
    simp only [h0, Nat.not_lt_zero, false_and, iff_false]
    rw [blockClobbers, h.ledger_eq]
    simp only [List.filter_flatMap, filter_blockLedger, List.mem_map, List.mem_flatMap]
    intro hd
    obtain ⟨e, ⟨f, -, c, -, he⟩, -⟩ := hd
    split_ifs at he with hcb
    · simp [blockLedger, h0] at he
    · simp at he

theorem pairwise_blockClobbers (h : IsIndex ix) (b : ℕ) :
    (ix.blockClobbers b).Pairwise fun d e => d.instIdxInBlock < e.instIdxInBlock := by
  by_cases hb : ix.mir.IsBlock b
  · rw [blockClobbers_eq h hb, blockLedger, List.map_map, List.pairwise_map]
    exact List.Pairwise.filter _ List.pairwise_lt_range
  · have : ix.blockClobbers b = [] := by
      rw [List.eq_nil_iff_forall_not_mem]
      intro d hd
      have := ((mem_blockClobbers h).1 hd).1
      rw [ix.mir.blockInstCount_eq_zero hb] at this
      exact absurd this (Nat.not_lt_zero _)
    rw [this]; exact List.Pairwise.nil

theorem mem_defsInRange {lo hi : ℕ} {ds : List MirMemoryDef}
    (hs : ds.Pairwise fun d e => d.instIdxInBlock < e.instIdxInBlock) {d : MirMemoryDef} :
    d ∈ defsInRange lo hi ds ↔ d ∈ ds ∧ lo ≤ d.instIdxInBlock ∧ d.instIdxInBlock < hi := by
  induction ds with
  | nil => simp [defsInRange]
  | cons e ds ih =>
    obtain ⟨he, hs⟩ := List.pairwise_cons.1 hs
    simp only [defsInRange]
    split_ifs with h1 h2
    · rw [ih hs, List.mem_cons]
      constructor
      · rintro ⟨hd, hr⟩; exact ⟨.inr hd, hr⟩
      · rintro ⟨rfl | hd, hr⟩
        · omega
        · exact ⟨hd, hr⟩
    · simp only [List.not_mem_nil, List.mem_cons, false_iff, not_and]
      rintro (rfl | hd) hlo
      · omega
      · have := he d hd; omega
    · rw [List.mem_cons, ih hs, List.mem_cons]
      constructor
      · rintro (rfl | ⟨hd, hr⟩)
        · exact ⟨.inl rfl, by omega, by omega⟩
        · exact ⟨.inr hd, hr⟩
      · rintro ⟨rfl | hd, hr⟩
        · exact .inl rfl
        · exact .inr ⟨hd, hr⟩

def verdict (ix : MirMemoryClobbers) (t : TypeInterner) (mode : MirAliasMode)
    (loadPtr d : ℕ) : Option Bool :=
  mirInstClobbersLoadPtr ix.mir.toMirData t mode (some ix.escape) loadPtr d

def walk (ix : MirMemoryClobbers) (forward : Bool) (root : ℕ) : Option (List ℕ) :=
  Worklist.run (ix.reachNext forward) (ix.mir.blockCount * 4 + 4) [root] [root]

/-- The invariant of the memo: every remembered answer is the answer, the verdicts belong to
one interner, and no stamp is newer than the last one. -/
structure MemoOk (ix : MirMemoryClobbers) (t : TypeInterner) (s : ClobberMemo) : Prop where
  interner : ∀ i ∈ s.interner, i = t.id
  verdicts : ∀ mode d p v, ((d, p), v) ∈ s.verdicts mode → ix.verdict t mode p d = some v
  fwdMemo : ∀ b r, (b, r) ∈ s.fwdMemo → ix.walk true b = some r
  bwdMemo : ∀ b r, (b, r) ∈ s.bwdMemo → ix.walk false b = some r
  stamps : ∀ x ∈ s.reachSelfSeen, x ≤ s.reachSelfStamp
  stamp_lt : s.reachSelfStamp < 2 ^ 32

theorem memoOk_fresh : MemoOk ix t .fresh where
  interner := by simp [ClobberMemo.fresh]
  verdicts := by simp [ClobberMemo.fresh]
  fwdMemo := by simp [ClobberMemo.fresh]
  bwdMemo := by simp [ClobberMemo.fresh]
  stamps := by simp [ClobberMemo.fresh]
  stamp_lt := by decide

theorem mem_of_lookup {α β : Type*} [BEq α] [LawfulBEq α] {l : List (α × β)} {a : α} {b : β}
    (h : l.lookup a = some b) : (a, b) ∈ l := by
  obtain ⟨l₁, l₂, rfl, -⟩ := List.lookup_eq_some_iff.1 h
  simp

variable {mode : MirAliasMode} {loadPtr : ℕ} {s s' : ClobberMemo} {v : Bool}

theorem MemoOk.remember (hs : MemoOk ix t s) {d : ℕ} (hv : ix.verdict t mode loadPtr d = some v)
    (n k : ℕ) : MemoOk ix t { s with
      interner := some t.id, aliasTests := n, aliasSkips := k
      verdicts := Function.update s.verdicts mode (((d, loadPtr), v) :: s.verdicts mode) } where
  interner := by simp
  verdicts := by
    intro mode' d' p' v' h
    by_cases hm : mode' = mode
    · subst hm
      simp only [Function.update_self, List.mem_cons, Prod.mk.injEq] at h
      rcases h with ⟨⟨rfl, rfl⟩, rfl⟩ | h
      · exact hv
      · exact hs.verdicts _ _ _ _ h
    · simp only [Function.update_of_ne hm] at h
      exact hs.verdicts _ _ _ _ h
  fwdMemo := hs.fwdMemo
  bwdMemo := hs.bwdMemo
  stamps := hs.stamps
  stamp_lt := hs.stamp_lt

theorem MemoOk.count (hs : MemoOk ix t s) (n k : ℕ) :
    MemoOk ix t { s with interner := some t.id, aliasTests := n, aliasSkips := k } where
  interner := by simp
  verdicts := hs.verdicts
  fwdMemo := hs.fwdMemo
  bwdMemo := hs.bwdMemo
  stamps := hs.stamps
  stamp_lt := hs.stamp_lt

theorem defClobbers_ok (hs : MemoOk ix t s) {d : ℕ}
    (h : ix.defClobbers cap t mode loadPtr d s = some (v, s')) :
    MemoOk ix t s' ∧ ix.verdict t mode loadPtr d = some v := by
  rw [defClobbers] at h
  split_ifs at h with hi
  split at h
  · rename_i w hw
    simp only [Option.some.injEq, Prod.mk.injEq] at h
    obtain ⟨rfl, rfl⟩ := h
    exact ⟨hs.count _ _, hs.verdicts _ _ _ _ (mem_of_lookup hw)⟩
  · simp only [Option.bind_eq_bind, Option.bind_eq_some_iff] at h
    obtain ⟨w, hw, h⟩ := h
    split_ifs at h with hc
    · simp only [Option.pure_def, Option.some.injEq, Prod.mk.injEq] at h
      obtain ⟨rfl, rfl⟩ := h
      exact ⟨hs.remember hw _ _, hw⟩
    · simp only [Option.pure_def, Option.some.injEq, Prod.mk.injEq] at h
      obtain ⟨rfl, rfl⟩ := h
      exact ⟨hs.count _ _, hw⟩

theorem defClobbers_isSome (cap : ℕ) (hs : MemoOk ix t s) {d : ℕ}
    (h : (ix.verdict t mode loadPtr d).isSome) :
    (ix.defClobbers cap t mode loadPtr d s).isSome := by
  obtain ⟨v, hv⟩ := Option.isSome_iff_exists.1 h
  have hi : ¬ s.interner.any (· ≠ t.id) = true := by
    cases hi : s.interner with
    | none => simp
    | some i => simp [hs.interner i hi]
  rw [defClobbers, if_neg hi]
  split
  · rfl
  · rw [verdict] at hv
    simp only [hv, Option.bind_eq_bind, Option.bind_some]
    split_ifs <;> rfl

theorem anyDefClobbers_ok {ds : List MirMemoryDef} (hs : MemoOk ix t s)
    (h : ix.anyDefClobbers cap t mode loadPtr ds s = some (v, s')) :
    MemoOk ix t s' ∧ (v = false → ∀ d ∈ ds, ix.verdict t mode loadPtr d.inst = some false) := by
  induction ds generalizing s with
  | nil =>
    simp only [anyDefClobbers, Option.some.injEq, Prod.mk.injEq] at h
    obtain ⟨rfl, rfl⟩ := h
    exact ⟨hs, by simp⟩
  | cons d ds ih =>
    simp only [anyDefClobbers, Option.bind_eq_bind, Option.bind_eq_some_iff, Prod.exists] at h
    obtain ⟨w, s₁, hd, h⟩ := h
    obtain ⟨hs₁, hw⟩ := defClobbers_ok hs hd
    cases w with
    | true =>
      simp only [if_true, Option.pure_def, Option.some.injEq, Prod.mk.injEq] at h
      obtain ⟨rfl, rfl⟩ := h
      exact ⟨hs₁, by simp⟩
    | false =>
      obtain ⟨hs', hv⟩ := ih hs₁ (by simpa using h)
      refine ⟨hs', fun hf => ?_⟩
      simp only [List.mem_cons, forall_eq_or_imp]
      exact ⟨hw, hv hf⟩

theorem anyDefClobbers_isSome {ds : List MirMemoryDef} (hs : MemoOk ix t s)
    (h : ∀ d ∈ ds, (ix.verdict t mode loadPtr d.inst).isSome) :
    (ix.anyDefClobbers cap t mode loadPtr ds s).isSome := by
  induction ds generalizing s with
  | nil => rfl
  | cons d ds ih =>
    simp only [List.mem_cons, forall_eq_or_imp] at h
    obtain ⟨⟨w, s₁⟩, hd⟩ := Option.isSome_iff_exists.1 (defClobbers_isSome cap hs h.1)
    simp only [anyDefClobbers, hd, Option.bind_eq_bind, Option.bind_some]
    cases w with
    | true => rfl
    | false => simpa using ih (defClobbers_ok hs hd).1 h.2

theorem reach_ok {root : ℕ} {forward : Bool} {r : List ℕ} (hs : MemoOk ix t s)
    (h : ix.reach root forward s = some (r, s')) :
    MemoOk ix t s' ∧ ix.walk forward root = some r := by
  rw [reach] at h
  split at h
  · rename_i w hw
    simp only [Option.some.injEq, Prod.mk.injEq] at h
    obtain ⟨rfl, rfl⟩ := h
    refine ⟨hs, ?_⟩
    cases forward with
    | true => exact hs.fwdMemo _ _ (mem_of_lookup hw)
    | false => exact hs.bwdMemo _ _ (mem_of_lookup hw)
  · simp only [Option.bind_eq_bind, Option.bind_eq_some_iff] at h
    obtain ⟨w, hw, h⟩ := h
    cases forward with
    | true =>
      simp only [if_true, Option.pure_def, Option.some.injEq, Prod.mk.injEq] at h
      obtain ⟨rfl, rfl⟩ := h
      refine ⟨{ hs with fwdMemo := fun b r hr => ?_ }, hw⟩
      simp only [List.mem_cons, Prod.mk.injEq] at hr
      rcases hr with ⟨rfl, rfl⟩ | hr
      · exact hw
      · exact hs.fwdMemo _ _ hr
    | false =>
      simp only [Bool.false_eq_true, if_false, Option.pure_def, Option.some.injEq,
        Prod.mk.injEq] at h
      obtain ⟨rfl, rfl⟩ := h
      refine ⟨{ hs with bwdMemo := fun b r hr => ?_ }, hw⟩
      simp only [List.mem_cons, Prod.mk.injEq] at hr
      rcases hr with ⟨rfl, rfl⟩ | hr
      · exact hw
      · exact hs.bwdMemo _ _ hr

theorem walk_isSome {root : ℕ} (hr : root < ix.mir.blockCount) (forward : Bool) :
    ∃ r, ix.walk forward root = some r := by
  refine Worklist.run_isSome (U := Finset.range ix.mir.blockCount) ?_ ?_ (by simp) (by simp) ?_
  · intro x _ y hy
    simp only [reachNext, List.mem_filter, decide_eq_true_eq] at hy
    exact Finset.mem_range.2 hy.2.2
  · simpa using hr
  · simp only [List.length_singleton, Finset.card_range]
    omega

theorem reach_isSome {root : ℕ} (hr : root < ix.mir.blockCount) (forward : Bool)
    (s : ClobberMemo) : (ix.reach root forward s).isSome := by
  obtain ⟨r, h⟩ := ix.walk_isSome hr forward
  rw [reach]
  split
  · rfl
  · rw [walk] at h
    simp only [h, Option.bind_eq_bind, Option.bind_some]
    split_ifs <;> rfl

def SelfEdge (ix : MirMemoryClobbers) (avoid a b : ℕ) : Prop :=
  b ∈ ix.mir.blockSuccessors a ∧ b ≠ 0 ∧ b < ix.mir.blockCount ∧ ¬ (avoid ≠ 0 ∧ b = avoid)

variable {blk avoid stamp : ℕ}

/-- What one round of pushes does when it does not meet `blk`: every admissible successor is
stamped, and what is newly stamped is on the stack. -/
structure Pushed (ix : MirMemoryClobbers) (blk avoid stamp : ℕ) (xs work seen : List ℕ)
    (work' seen' : List ℕ) : Prop where
  stamped : ∀ x ∈ xs, x ≠ 0 → x < ix.mir.blockCount → ¬ (avoid ≠ 0 ∧ x = avoid) →
    x ≠ blk ∧ seen'.getD x 0 = stamp
  mono : ∀ x, seen.getD x 0 = stamp → seen'.getD x 0 = stamp
  stack : ∀ x ∈ work, x ∈ work'
  fresh : ∀ x, seen'.getD x 0 = stamp → seen.getD x 0 = stamp ∨ x ∈ work'
  size : work'.length + seen'.countP (· ≠ stamp) = work.length + seen.countP (· ≠ stamp)

theorem getD_set_self {l : List ℕ} {x a : ℕ} (h : x < l.length) : (l.set x a).getD x 0 = a := by
  simp [List.getD_eq_getElem?_getD, h]

theorem getD_set_ne {l : List ℕ} {x y a : ℕ} (h : x ≠ y) :
    (l.set x a).getD y 0 = l.getD y 0 := by
  simp [List.getD_eq_getElem?_getD, h]

theorem selfPush_bounds {xs work seen work' seen' : List ℕ} {hit : Bool}
    (h : ix.selfPush blk avoid stamp xs work seen = (hit, work', seen')) :
    seen'.length = seen.length ∧ ((∀ x ∈ seen, x ≤ stamp) → ∀ x ∈ seen', x ≤ stamp) := by
  induction xs generalizing work seen with
  | nil =>
    simp only [selfPush, Prod.mk.injEq] at h
    obtain ⟨-, -, rfl⟩ := h
    exact ⟨rfl, id⟩
  | cons x xs ih =>
    simp only [selfPush] at h
    split_ifs at h with h1 h2 h3 h4
    · exact ih h
    · exact ih h
    · simp only [Prod.mk.injEq] at h
      obtain ⟨-, -, rfl⟩ := h
      exact ⟨rfl, id⟩
    · obtain ⟨hl, hb⟩ := ih h
      refine ⟨by rw [hl, List.length_set], fun hs => hb fun y hy => ?_⟩
      rcases List.mem_or_eq_of_mem_set hy with hy | rfl
      · exact hs y hy
      · exact le_rfl
    · exact ih h

theorem countP_set_ne {l : List ℕ} {x a : ℕ} (hx : x < l.length) (h : l.getD x 0 ≠ a) :
    (l.set x a).countP (· ≠ a) + 1 = l.countP (· ≠ a) := by
  have hg : l[x] ≠ a := by simpa [List.getD_eq_getElem?_getD, hx] using h
  have hp : 0 < l.countP (· ≠ a) := List.countP_pos_iff.2 ⟨l[x], by simp, by simpa using hg⟩
  have h1 : (!decide (l[x] = a)) = true := by simpa using hg
  rw [List.countP_set hx]
  simp only [ne_eq, decide_not, h1, if_true, decide_true, Bool.not_true, Bool.false_eq_true,
    if_false] at hp ⊢
  omega

theorem selfPush_ok {xs work seen work' seen' : List ℕ} (hl : seen.length = ix.mir.blockCount)
    (h : ix.selfPush blk avoid stamp xs work seen = (false, work', seen')) :
    Pushed ix blk avoid stamp xs work seen work' seen' := by
  induction xs generalizing work seen with
  | nil =>
    simp only [selfPush, Prod.mk.injEq, true_and] at h
    obtain ⟨rfl, rfl⟩ := h
    exact ⟨by simp, fun _ h => h, fun _ h => h, fun _ h => .inl h, rfl⟩
  | cons x xs ih =>
    simp only [selfPush] at h
    split_ifs at h with h1 h2 h3 h4
    · have hp := ih hl h
      refine { hp with stamped := fun y hy h0 hn ha => ?_ }
      rcases List.mem_cons.1 hy with rfl | hy
      · omega
      · exact hp.stamped y hy h0 hn ha
    · have hp := ih hl h
      refine { hp with stamped := fun y hy h0 hn ha => ?_ }
      rcases List.mem_cons.1 hy with rfl | hy
      · exact absurd h2 ha
      · exact hp.stamped y hy h0 hn ha
    · simp at h
    · have hx : x < seen.length := by omega
      have hp := ih (by rw [List.length_set, hl]) h
      refine ⟨fun y hy h0 hn ha => ?_, fun y hy => ?_, fun y hy => ?_, fun y hy => ?_, ?_⟩
      · rcases List.mem_cons.1 hy with rfl | hy
        · exact ⟨h3, hp.mono y (getD_set_self hx)⟩
        · exact hp.stamped y hy h0 hn ha
      · refine hp.mono y ?_
        by_cases hxy : x = y
        · subst hxy; exact getD_set_self hx
        · rw [getD_set_ne hxy]; exact hy
      · exact hp.stack y (List.mem_cons_of_mem _ hy)
      · rcases hp.fresh y hy with hy | hy
        · by_cases hxy : x = y
          · subst hxy; exact .inr (hp.stack x List.mem_cons_self)
          · rw [getD_set_ne hxy] at hy; exact .inl hy
        · exact .inr hy
      · have := hp.size
        have := countP_set_ne hx h4
        simp only [List.length_cons] at *
        omega
    · have hp := ih hl h
      refine { hp with stamped := fun y hy h0 hn ha => ?_ }
      rcases List.mem_cons.1 hy with rfl | hy
      · exact ⟨h3, hp.mono y (not_not.1 h4)⟩
      · exact hp.stamped y hy h0 hn ha

/-- The part of the walk that is done: everything expanded has its successors stamped. -/
def Expanded (ix : MirMemoryClobbers) (blk avoid stamp : ℕ) (work seen : List ℕ) : Prop :=
  ∀ x, x = blk ∨ seen.getD x 0 = stamp → x ∉ work → ∀ y, ix.SelfEdge avoid x y →
    y ≠ blk ∧ seen.getD y 0 = stamp

theorem Pushed.expanded {b : ℕ} {work seen work' seen' : List ℕ}
    (hp : Pushed ix blk avoid stamp (ix.mir.blockSuccessors b) work seen work' seen')
    (he : Expanded ix blk avoid stamp (b :: work) seen) :
    Expanded ix blk avoid stamp work' seen' := by
  intro x hx hxw y hy
  by_cases hxb : x = b
  · subst hxb
    exact hp.stamped y hy.1 hy.2.1 hy.2.2.1 hy.2.2.2
  · have hx' : x = blk ∨ seen.getD x 0 = stamp := by
      rcases hx with hx | hx
      · exact .inl hx
      · exact .inr ((hp.fresh x hx).resolve_right hxw)
    have hxw' : x ∉ b :: work := by
      rw [List.mem_cons, not_or]
      exact ⟨hxb, fun h => hxw (hp.stack x h)⟩
    obtain ⟨h1, h2⟩ := he x hx' hxw' y hy
    exact ⟨h1, hp.mono y h2⟩

theorem selfLoop_ok {fuel : ℕ} {work seen seen' : List ℕ} {r : Bool}
    (hl : seen.length = ix.mir.blockCount)
    (h : ix.selfLoop blk avoid stamp fuel work seen = some (r, seen'))
    (he : Expanded ix blk avoid stamp work seen) :
    r = false → Expanded ix blk avoid stamp [] seen' := by
  induction fuel generalizing work seen with
  | zero =>
    cases work with
    | nil =>
      simp only [selfLoop, Option.some.injEq, Prod.mk.injEq] at h
      obtain ⟨-, rfl⟩ := h
      exact fun _ => he
    | cons b work => simp [selfLoop] at h
  | succ fuel ih =>
    cases work with
    | nil =>
      simp only [selfLoop, Option.some.injEq, Prod.mk.injEq] at h
      obtain ⟨-, rfl⟩ := h
      exact fun _ => he
    | cons b work =>
      rw [selfLoop] at h
      split at h
      · simp only [Option.some.injEq, Prod.mk.injEq] at h
        obtain ⟨rfl, -⟩ := h
        simp
      · rename_i work₁ seen₁ hp
        exact ih ((selfPush_bounds hp).1.trans hl) h ((selfPush_ok hl hp).expanded he)

theorem selfLoop_bounds {fuel : ℕ} {work seen seen' : List ℕ} {r : Bool}
    (h : ix.selfLoop blk avoid stamp fuel work seen = some (r, seen'))
    (hb : ∀ x ∈ seen, x ≤ stamp) : ∀ x ∈ seen', x ≤ stamp := by
  induction fuel generalizing work seen with
  | zero =>
    cases work with
    | nil =>
      simp only [selfLoop, Option.some.injEq, Prod.mk.injEq] at h
      obtain ⟨-, rfl⟩ := h
      exact hb
    | cons b work => simp [selfLoop] at h
  | succ fuel ih =>
    cases work with
    | nil =>
      simp only [selfLoop, Option.some.injEq, Prod.mk.injEq] at h
      obtain ⟨-, rfl⟩ := h
      exact hb
    | cons b work =>
      rw [selfLoop] at h
      split at h
      · rename_i work₁ seen₁ hp
        simp only [Option.some.injEq, Prod.mk.injEq] at h
        obtain ⟨-, rfl⟩ := h
        exact (selfPush_bounds hp).2 hb
      · rename_i work₁ seen₁ hp
        exact ih h ((selfPush_bounds hp).2 hb)

theorem selfLoop_isSome {fuel : ℕ} {work seen : List ℕ}
    (hl : seen.length = ix.mir.blockCount)
    (hf : work.length + seen.countP (· ≠ stamp) ≤ fuel) :
    (ix.selfLoop blk avoid stamp fuel work seen).isSome := by
  induction fuel generalizing work seen with
  | zero =>
    cases work with
    | nil => rfl
    | cons b work => simp at hf
  | succ fuel ih =>
    cases work with
    | nil => rfl
    | cons b work =>
      rw [selfLoop]
      split
      · rfl
      · rename_i work₁ seen₁ hp
        refine ih ((selfPush_bounds hp).1.trans hl) ?_
        have := (selfPush_ok hl hp).size
        simp only [List.length_cons] at hf
        omega

theorem nextStamp_ok (hs : MemoOk ix t s) :
    (ix.nextStamp s).1.length = ix.mir.blockCount ∧ (∀ x ∈ (ix.nextStamp s).1,
      x < (ix.nextStamp s).2) ∧ (ix.nextStamp s).2 < 2 ^ 32 := by
  rw [nextStamp]
  split_ifs with h
  · refine ⟨by simp, fun x hx => ?_, by simp⟩
    rw [List.eq_of_mem_replicate hx]
    exact Nat.one_pos
  · rw [not_or, not_not] at h
    have hlt := hs.stamp_lt
    have hm : (s.reachSelfStamp + 1) % 2 ^ 32 = s.reachSelfStamp + 1 := by
      apply Nat.mod_eq_of_lt
      by_contra hge
      have : s.reachSelfStamp + 1 = 2 ^ 32 := by omega
      rw [this, Nat.mod_self] at h
      exact h.1 rfl
    simp only [hm]
    refine ⟨h.2, fun x hx => ?_, by omega⟩
    have := hs.stamps x hx
    omega

theorem expanded_init {work seen seen' : List ℕ}
    (hfresh : ∀ x ∈ seen, x < stamp) (hpos : 0 < stamp)
    (hp : Pushed ix blk avoid stamp (ix.mir.blockSuccessors blk) [] seen work seen') :
    Expanded ix blk avoid stamp work seen' := by
  refine hp.expanded (b := blk) fun x hx hxw => ?_
  simp only [List.mem_singleton] at hxw
  have hne : seen.getD x 0 ≠ stamp := by
    rw [List.getD_eq_getElem?_getD]
    cases hg : seen[x]? with
    | none => simpa using hpos.ne
    | some y => simpa using (hfresh y (List.mem_of_getElem? hg)).ne
  rcases hx with hx | hx
  · exact absurd hx hxw
  · exact absurd hx hne

theorem Expanded.not_cycle {seen : List ℕ} (he : Expanded ix blk avoid stamp [] seen) :
    ¬ Relation.TransGen (ix.SelfEdge avoid) blk blk := by
  have key : ∀ y, Relation.TransGen (ix.SelfEdge avoid) blk y →
      y ≠ blk ∧ seen.getD y 0 = stamp := by
    intro y hy
    induction hy with
    | single h => exact he blk (.inl rfl) (by simp) _ h
    | tail _ h ih => exact he _ (.inr ih.2) (by simp) _ h
  exact fun h => (key blk h).1 rfl

theorem MemoOk.restamp (hs : MemoOk ix t s) {seen : List ℕ} (hb : ∀ x ∈ seen, x ≤ stamp)
    (hlt : stamp < 2 ^ 32) :
    MemoOk ix t { s with reachSelfSeen := seen, reachSelfStamp := stamp } :=
  { hs with stamps := hb, stamp_lt := hlt }

/-- **Self-reachability.**  The answer keeps the memo right, and a negative one means that `blk`
lies on no cycle that avoids `avoid` (a block that is to avoid itself, or that is none, has no
such cycle by definition). -/
theorem blockReachesItselfAvoiding_ok (hs : MemoOk ix t s)
    (h : ix.blockReachesItselfAvoiding blk avoid s = some (v, s')) :
    MemoOk ix t s' ∧ (v = false → ¬ Relation.TransGen (ix.SelfEdge avoid) blk blk) := by
  obtain ⟨hlen, hfresh, hlt⟩ := nextStamp_ok hs
  rw [blockReachesItselfAvoiding] at h
  split_ifs at h with h0 ha
  · simp only [Option.some.injEq, Prod.mk.injEq] at h
    obtain ⟨rfl, rfl⟩ := h
    refine ⟨hs, fun _ hc => ?_⟩
    obtain ⟨c, -, hc⟩ := Relation.TransGen.tail'_iff.1 hc
    rcases h0 with h0 | h0
    · exact hc.2.1 h0
    · have := hc.2.2.1; omega
  · simp only [Option.some.injEq, Prod.mk.injEq] at h
    obtain ⟨rfl, rfl⟩ := h
    refine ⟨hs, fun _ hc => ?_⟩
    obtain ⟨c, -, hc⟩ := Relation.TransGen.tail'_iff.1 hc
    exact hc.2.2.2 ⟨ha.1, ha.2.symm⟩
  · simp only at h
    have hle : ∀ x ∈ (ix.nextStamp s).1, x ≤ (ix.nextStamp s).2 := fun x hx => (hfresh x hx).le
    split at h
    · rename_i seen₁ hp
      simp only [Option.some.injEq, Prod.mk.injEq] at h
      obtain ⟨rfl, rfl⟩ := h
      exact ⟨hs.restamp ((selfPush_bounds hp).2 hle) hlt, by simp⟩
    · rename_i work₁ seen₁ hp
      simp only [Option.bind_eq_bind, Option.bind_eq_some_iff, Prod.exists, Option.pure_def,
        Option.some.injEq, Prod.mk.injEq] at h
      obtain ⟨r, seen₂, hloop, rfl, rfl⟩ := h
      have hle₁ := (selfPush_bounds hp).2 hle
      refine ⟨hs.restamp (selfLoop_bounds hloop hle₁) hlt, fun hf => ?_⟩
      have hpos : 0 < (ix.nextStamp s).2 := by
        have : blk < (ix.nextStamp s).1.length := by omega
        exact lt_of_le_of_lt (Nat.zero_le _) (hfresh _ (List.getElem_mem this))
      have hexp := expanded_init hfresh hpos (selfPush_ok hlen hp)
      exact (selfLoop_ok ((selfPush_bounds hp).1.trans hlen) hloop hexp hf).not_cycle

theorem blockReachesItselfAvoiding_isSome (hs : MemoOk ix t s) (blk avoid : ℕ) :
    (ix.blockReachesItselfAvoiding blk avoid s).isSome := by
  obtain ⟨hlen, -, -⟩ := nextStamp_ok hs
  rw [blockReachesItselfAvoiding]
  split_ifs
  · rfl
  · rfl
  · simp only
    split
    · rfl
    · rename_i work₁ seen₁ hp
      have hsize := (selfPush_ok hlen hp).size
      have hcount : (ix.nextStamp s).1.countP (· ≠ (ix.nextStamp s).2) ≤ ix.mir.blockCount :=
        hlen ▸ List.countP_le_length
      have hloop : (ix.selfLoop blk avoid (ix.nextStamp s).2 (ix.mir.blockCount * 4 + 4) work₁
          seen₁).isSome := by
        refine selfLoop_isSome ((selfPush_bounds hp).1.trans hlen) ?_
        simp only [List.length_nil] at hsize
        omega
      obtain ⟨r, hr⟩ := Option.isSome_iff_exists.1 hloop
      rw [hr]
      rfl

theorem anyClobberInBlockRange_ok (hi : IsIndex ix) (hs : MemoOk ix t s) {lo up : ℕ}
    (h : ix.anyClobberInBlockRange cap t mode loadPtr blk lo up s = some (v, s')) :
    MemoOk ix t s' ∧ (v = false → ∀ d ∈ ix.blockClobbers blk,
      lo ≤ d.instIdxInBlock → d.instIdxInBlock < up →
        ix.verdict t mode loadPtr d.inst = some false) := by
  obtain ⟨hs', hv⟩ := anyDefClobbers_ok hs h
  refine ⟨hs', fun hf d hd hlo hup => hv hf d ?_⟩
  exact (mem_defsInRange (pairwise_blockClobbers hi blk)).2 ⟨hd, hlo, hup⟩

theorem anyClobberBetween_ok (hs : MemoOk ix t s) {cb ub : ℕ}
    (h : ix.anyClobberBetween cap t mode loadPtr cb ub s = some (v, s')) :
    MemoOk ix t s' ∧ (v = false → ∀ b, 1 ≤ b → b < ix.mir.blockCount → cb ≠ 0 → ub ≠ 0 →
      b ≠ cb → b ≠ ub → Worklist.Reaches (ix.reachNext true) cb b →
      Worklist.Reaches (ix.reachNext false) ub b →
        ∀ d ∈ ix.blockClobbers b, ix.verdict t mode loadPtr d.inst = some false) := by
  rw [anyClobberBetween] at h
  split_ifs at h with h0 hn
  · simp only [Option.some.injEq, Prod.mk.injEq] at h
    obtain ⟨rfl, rfl⟩ := h
    exact ⟨hs, fun _ b _ _ hc hu => absurd h0 (by simp [hc, hu])⟩
  · simp only [Option.some.injEq, Prod.mk.injEq] at h
    obtain ⟨rfl, rfl⟩ := h
    exact ⟨hs, fun _ b _ hb => by omega⟩
  · simp only [Option.bind_eq_bind, Option.bind_eq_some_iff, Prod.exists] at h
    obtain ⟨fwd, s₁, hfwd, bwd, s₂, hbwd, h⟩ := h
    obtain ⟨hs₁, hfwd⟩ := reach_ok hs hfwd
    obtain ⟨hs₂, hbwd⟩ := reach_ok hs₁ hbwd
    obtain ⟨hs', hv⟩ := anyDefClobbers_ok hs₂ h
    refine ⟨hs', fun hf b h1 hb _ _ hbc hbu hrf hrb d hd => hv hf d ?_⟩
    refine List.mem_flatMap.2 ⟨b, List.mem_filter.2 ⟨?_, ?_⟩, hd⟩
    · refine List.mem_filter.2 ⟨List.mem_range.2 hb, ?_⟩
      cases hl : ix.blockClobbers b with
      | nil => rw [hl] at hd; simp at hd
      | cons => rfl
    · have hbf : b ∈ fwd := (Worklist.mem_run_iff hfwd).2 ⟨cb, by simp, hrf⟩
      have hbb : b ∈ bwd := (Worklist.mem_run_iff hbwd).2 ⟨ub, by simp, hrb⟩
      simp [hbc, hbu, hbf, hbb, h1]

/-- The program point `(b, i)` lies in a slice that the point-to-point query looks at. -/
inductive Slice (ix : MirMemoryClobbers) (fb fi tb ti : ℕ) : ℕ → ℕ → Prop
  | range {i : ℕ} (hb : fb = tb) (hf : fi < i) (ht : i < ti) : Slice ix fb fi tb ti fb i
  | fromTail {i : ℕ} (hb : fb ≠ tb) (hf : fi < i) (hc : i < ix.mir.blockInstCount fb) :
    Slice ix fb fi tb ti fb i
  | between {b i : ℕ} (hb : fb ≠ tb) (h1 : 1 ≤ b) (hn : b < ix.mir.blockCount) (hf : fb ≠ 0)
      (ht : tb ≠ 0) (hbf : b ≠ fb) (hbt : b ≠ tb)
      (fwd : Worklist.Reaches (ix.reachNext true) fb b)
      (bwd : Worklist.Reaches (ix.reachNext false) tb b) : Slice ix fb fi tb ti b i
  | toHead {i : ℕ} (hb : fb ≠ tb) (ht : i < ti) : Slice ix fb fi tb ti tb i
  | toTail {i : ℕ} (hb : fb ≠ tb) (ht : ti < i) (hc : i < ix.mir.blockInstCount tb)
      (cycle : Relation.TransGen (ix.SelfEdge fb) tb tb) : Slice ix fb fi tb ti tb i

theorem anyClobberBetweenPoints_ok (hi : IsIndex ix) (hs : MemoOk ix t s) {fb fi tb ti : ℕ}
    (h : ix.anyClobberBetweenPoints cap t mode loadPtr fb fi tb ti s = some (v, s')) :
    MemoOk ix t s' ∧ (v = false → ∀ b, ∀ d ∈ ix.blockClobbers b,
      Slice ix fb fi tb ti b d.instIdxInBlock →
        ix.verdict t mode loadPtr d.inst = some false) := by
  rw [anyClobberBetweenPoints] at h
  split_ifs at h with h1 h2 h3
  · obtain ⟨hs', hr⟩ := anyClobberInBlockRange_ok hi hs h
    refine ⟨hs', fun hv b d hd hsl => ?_⟩
    cases hsl with
    | range _ hf ht => exact hr hv d hd hf ht
    | fromTail hb | between hb | toHead hb | toTail hb => exact absurd h2 hb
  · simp only [Option.bind_eq_bind, Option.bind_eq_some_iff, Prod.exists] at h
    obtain ⟨a, s₁, ha, h⟩ := h
    obtain ⟨hs₁, ha⟩ := anyClobberInBlockRange_ok hi hs ha
    split_ifs at h with hav
    · simp only [Option.pure_def, Option.some.injEq, Prod.mk.injEq] at h
      exact ⟨h.2 ▸ hs₁, by simp [← h.1]⟩
    obtain ⟨b, s₂, hb, h⟩ := by
      simpa only [Option.bind_eq_bind, Option.bind_eq_some_iff, Prod.exists] using h
    obtain ⟨hs₂, hb⟩ := anyClobberBetween_ok hs₁ hb
    split_ifs at h with hbv
    · simp only [Option.pure_def, Option.some.injEq, Prod.mk.injEq] at h
      exact ⟨h.2 ▸ hs₂, by simp [← h.1]⟩
    obtain ⟨c, s₃, hc, h⟩ := by
      simpa only [Option.bind_eq_bind, Option.bind_eq_some_iff, Prod.exists] using h
    obtain ⟨hs₃, hc⟩ := anyClobberInBlockRange_ok hi hs₂ hc
    split_ifs at h with hcv
    · simp only [Option.pure_def, Option.some.injEq, Prod.mk.injEq] at h
      exact ⟨h.2 ▸ hs₃, by simp [← h.1]⟩
    obtain ⟨d, s₄, hd, h⟩ := by
      simpa only [Option.bind_eq_bind, Option.bind_eq_some_iff, Prod.exists] using h
    obtain ⟨hs₄, hd⟩ := anyClobberInBlockRange_ok hi hs₃ hd
    -- The last slice is clear when its range is, or when no cycle leads back to it.
    have htail : MemoOk ix t s' ∧ (v = false → ∀ e ∈ ix.blockClobbers tb,
        ti < e.instIdxInBlock → e.instIdxInBlock < ix.mir.blockInstCount tb →
        Relation.TransGen (ix.SelfEdge fb) tb tb →
          ix.verdict t mode loadPtr e.inst = some false) := by
      split_ifs at h with hdv
      · simp only [Option.pure_def, Option.some.injEq, Prod.mk.injEq] at h
        refine ⟨h.2 ▸ hs₄, fun _ e he hlo hup _ => hd (by simpa using hdv) e he hlo hup⟩
      · obtain ⟨hs', hcyc⟩ := blockReachesItselfAvoiding_ok hs₄ h
        exact ⟨hs', fun hv e _ _ _ hc => absurd hc (hcyc hv)⟩
    refine ⟨htail.1, fun hv x e he hsl => ?_⟩
    cases hsl with
    | range hb => exact absurd hb h2
    | fromTail _ hf hc => exact ha (by simpa using hav) e he hf hc
    | between _ h1 hn hf ht hbf hbt fwd bwd =>
      exact hb (by simpa using hbv) x h1 hn hf ht hbf hbt fwd bwd e he
    | toHead _ ht => exact hc (by simpa using hcv) e he (Nat.zero_le _) ht
    | toTail _ ht hc cycle => exact htail.2 hv e he ht hc cycle

theorem ask_ok (hi : IsIndex ix) (hs : MemoOk ix t s) {q : Query}
    (h : ix.ask cap t q s = some (v, s')) : MemoOk ix t s' := by
  cases q with
  | blockRange mode p b lo up => exact (anyClobberInBlockRange_ok hi hs h).1
  | between mode p b u => exact (anyClobberBetween_ok hs h).1
  | inBlocks mode p bs => exact (anyDefClobbers_ok hs h).1
  | betweenPoints mode p b i b' i' => exact (anyClobberBetweenPoints_ok hi hs h).1
  | reachesItself b a => exact (blockReachesItselfAvoiding_ok hs h).1

/-- **Every sequence of queries keeps the memo right.** -/
theorem askAll_ok (hi : IsIndex ix) {qs : List Query} (hs : MemoOk ix t s)
    (h : ix.askAll cap t qs s = some s') : MemoOk ix t s' := by
  induction qs generalizing s with
  | nil =>
    simp only [askAll, Option.some.injEq] at h
    exact h ▸ hs
  | cons q qs ih =>
    simp only [askAll, Option.bind_eq_bind, Option.bind_eq_some_iff, Prod.exists] at h
    obtain ⟨v, s₁, hq, h⟩ := h
    exact ih (ask_ok hi hs hq) h

end DssPrime.MirMemoryClobbers
