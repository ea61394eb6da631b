import DssPrime.Lir.LivenessSets

/-!
# What the live ranges cover

`analyzeFuncLiveness_exact` : the sets are exact, and the interval of a register that the entry does
not read before writing it covers every position of a reachable block at which it is live.
-/

namespace DssPrime

namespace LivenessFunc

variable {f : LivenessFunc}

def Reachable (f : LivenessFunc) (b : ℕ) : Prop :=
  ∃ entry, f.blocks.head? = some entry ∧ Worklist.Reaches f.next entry b

theorem walk_reachableRpo {entry : ℕ} {rest : List ℕ} (h : f.blocks = entry :: rest) :
    ∃ fuel, PostOrder.walk f.next fuel entry = some (f.reachableRpo entry) := by
  have hclosed : ∀ x ∈ f.blocks.toFinset, ∀ y ∈ f.next x, y ∈ f.blocks.toFinset := by
    intro x _ y hy
    simpa using (List.mem_filter.mp hy).2
  have hentry : entry ∈ f.blocks.toFinset := by simp [h]
  obtain ⟨r, hr⟩ := PostOrder.walk_isSome hclosed hentry
    (List.sum_toFinset (fun b => (f.next b).length + 1) f.nodup).le
  exact ⟨_, by rw [reachableRpo, hr]; rfl⟩

theorem mem_blocks_of_reaches {entry b : ℕ} (he : entry ∈ f.blocks)
    (h : Worklist.Reaches f.next entry b) : b ∈ f.blocks := by
  rcases Relation.ReflTransGen.cases_tail h with rfl | ⟨c, -, hc⟩
  · exact he
  · simpa using (List.mem_filter.mp hc).2

theorem computeRpo_eq {entry : ℕ} {rest : List ℕ} (h : f.blocks = entry :: rest) :
    computeRpo f = f.reachableRpo entry ++ f.blocks.filter (· ∉ f.reachableRpo entry) := by
  rw [computeRpo]
  split
  · next h' => cases h'.symm.trans h
  · next h' =>
    obtain ⟨rfl, -⟩ := List.cons.inj (h'.symm.trans h)
    rfl

theorem mem_computeRpo {b : ℕ} : b ∈ computeRpo f ↔ b ∈ f.blocks := by
  cases h : f.blocks with
  | nil => simp [computeRpo, h]
  | cons entry rest =>
    obtain ⟨fuel, hw⟩ := walk_reachableRpo h
    have hsub : b ∈ f.reachableRpo entry → b ∈ f.blocks := fun hb =>
      mem_blocks_of_reaches (by simp [h]) ((PostOrder.mem_iff hw).mp hb)
    rw [computeRpo_eq h, ← h, List.mem_append, List.mem_filter, decide_eq_true_eq]
    tauto

theorem nodup_computeRpo : (computeRpo f).Nodup := by
  cases h : f.blocks with
  | nil => simp [computeRpo, h]
  | cons entry rest =>
    obtain ⟨fuel, hw⟩ := walk_reachableRpo h
    rw [computeRpo_eq h]
    refine (PostOrder.nodup hw).append (f.nodup.filter _) fun b hb hb' => ?_
    simp only [List.mem_filter, decide_eq_true_eq] at hb'
    exact hb'.2 hb

theorem computeRpo_split {b : ℕ} (hb : f.Reachable b) :
    ∃ entry rest fuel l r t, f.blocks = entry :: rest ∧ computeRpo f = l ++ b :: r ++ t ∧
      PostOrder.walk f.next fuel entry = some (l ++ b :: r) := by
  obtain ⟨entry, hhead, hreach⟩ := hb
  obtain ⟨rest, hblocks⟩ : ∃ rest, f.blocks = entry :: rest := by
    cases h : f.blocks with
    | nil => simp [h] at hhead
    | cons c rest => exact ⟨rest, by simpa [h] using hhead⟩
  obtain ⟨fuel, hw⟩ := walk_reachableRpo hblocks
  obtain ⟨l, r, hsplit⟩ := List.append_of_mem ((PostOrder.mem_iff hw).mpr hreach)
  exact ⟨entry, rest, fuel, l, r, f.blocks.filter (· ∉ f.reachableRpo entry), hblocks,
    by rw [computeRpo_eq hblocks, hsplit], hsplit ▸ hw⟩

theorem exists_def_before {entry fuel v : ℕ} (hentry : ¬f.LiveAt v entry 0) {r : List ℕ}
    (hw : PostOrder.walk f.next fuel entry = some r) {l t : List ℕ} {b : ℕ} (hr : r = l ++ b :: t)
    (h : f.LiveAt v b 0) :
    ∃ u ∈ l, ∃ j : ℕ, ∃ x : LivenessInst, (f.insts u)[j]? = some x ∧ v ∈ x.defIds := by
  induction hn : l.length using Nat.strong_induction_on generalizing l t b with
  | _ n ih =>
    rcases PostOrder.parent hw hr with rfl | ⟨u, hu, hub⟩
    · exact absurd h hentry
    · by_cases hno : f.NoDef v u 0 (f.insts u).length
      · obtain ⟨l₁, l₂, rfl⟩ := List.append_of_mem hu
        have hlive : f.LiveAt v u 0 := hno.liveAt le_rfl (Nat.zero_le _) (.edge hub h)
        obtain ⟨w, hwl, hd⟩ := ih l₁.length (by rw [← hn]; simp) (t := l₂ ++ b :: t)
          (by rw [hr]; simp) hlive rfl
        exact ⟨w, List.mem_append_left _ hwl, hd⟩
      · simp only [NoDef, not_forall, not_not] at hno
        obtain ⟨j, -, -, x, hx, hd⟩ := hno
        exact ⟨u, hu, j, x, hx, hd⟩

theorem mem_numberBlocks {b pos : ℕ} {order : List ℕ} {first : ℕ} :
    (b, pos) ∈ numberBlocks f first order ↔ ∃ l r, order = l ++ b :: r ∧
      pos = first + (l.map fun c => 2 * (f.insts c).length).sum := by
  induction order generalizing first with
  | nil => simp [numberBlocks]
  | cons c order ih =>
    rw [numberBlocks, List.mem_cons, ih]
    constructor
    · rintro (h | ⟨l, r, rfl, rfl⟩)
      · obtain ⟨rfl, rfl⟩ := Prod.mk.inj h
        exact ⟨[], order, rfl, by simp⟩
      · exact ⟨c :: l, r, rfl, by rw [List.map_cons, List.sum_cons]; omega⟩
    · rintro ⟨l, r, heq, rfl⟩
      cases l with
      | nil =>
        obtain ⟨rfl, -⟩ := List.cons.inj heq
        exact .inl (by simp)
      | cons a l =>
        obtain ⟨rfl, rfl⟩ := List.cons.inj heq
        exact .inr ⟨l, r, rfl, by rw [List.map_cons, List.sum_cons]; omega⟩

theorem numberBlocks_before {l r : List ℕ} {b u first : ℕ}
    (horder : computeRpo f = l ++ b :: r) (hb : (b, first) ∈ numberBlocks f 0 (computeRpo f))
    (hu : u ∈ l) : ∃ first', (u, first') ∈ numberBlocks f 0 (computeRpo f) ∧
      first' + 2 * (f.insts u).length ≤ first := by
  obtain ⟨l', r', heq, rfl⟩ := mem_numberBlocks.mp hb
  have hnodup : (l ++ b :: r).Nodup := horder ▸ nodup_computeRpo
  obtain ⟨hr, hdisj⟩ := (List.nodup_append.mp hnodup).2
  have hl : b ∉ l := fun h => hdisj b h b List.mem_cons_self rfl
  obtain ⟨rfl, -⟩ := (List.append_cons_inj_of_notMem hl (List.nodup_cons.mp hr).1).mp
    (horder.symm.trans heq)
  obtain ⟨l₁, l₂, rfl⟩ := List.append_of_mem hu
  refine ⟨0 + (l₁.map fun c => 2 * (f.insts c).length).sum,
    mem_numberBlocks.mpr ⟨l₁, l₂ ++ b :: r, by rw [horder]; simp, rfl⟩, ?_⟩
  simp only [List.map_append, List.map_cons, List.sum_append, List.sum_cons]
  omega

/-- A position at which a register is live: an early one before an instruction, the late one after
it, and the early one of an instruction that writes it early. -/
inductive LivePos (f : LivenessFunc) (v b : ℕ) : ℕ → Prop
  | before {first i : ℕ} : (b, first) ∈ numberBlocks f 0 (computeRpo f) →
    i < (f.insts b).length → f.LiveAt v b i → LivePos f v b (first + 2 * i)
  | after {first i : ℕ} : (b, first) ∈ numberBlocks f 0 (computeRpo f) →
    i < (f.insts b).length → f.LiveAt v b (i + 1) → LivePos f v b (first + 2 * i + 1)
  | early {first i : ℕ} {x : LivenessInst} {d : LirReg × Bool} :
    (b, first) ∈ numberBlocks f 0 (computeRpo f) → (f.insts b)[i]? = some x →
    d ∈ forEachDef x → d.1.id = v → d.2 = true → f.LiveAt v b (i + 1) →
    LivePos f v b (first + 2 * i)

end LivenessFunc

def RangeEvent.livePos : RangeEvent → Option ℕ
  | .use _ pos | .liveOut _ pos => some pos
  | .define _ _ => none

def RangeEvent.defPos : RangeEvent → Option ℕ
  | .define _ pos => some pos
  | .use _ _ | .liveOut _ _ => none

def RangeState.From (s : RangeState) (pos : ℕ) : Prop := ∃ d ≤ pos, s.firstDef = some d

theorem RangeState.from_record {s : RangeState} {e : RangeEvent} {pos : ℕ}
    (h : s.From pos ∨ e.defPos = some pos) : (s.record e).From pos := by
  cases e with
  | use r p => exact h.resolve_right (by simp [RangeEvent.defPos])
  | liveOut id p => exact h.resolve_right (by simp [RangeEvent.defPos])
  | define r p =>
    simp only [RangeState.From, RangeState.record]
    rcases h with ⟨d, hd, hs⟩ | h
    · rw [hs]
      by_cases hp : p < d
      · exact ⟨p, by omega, by simp [hp]⟩
      · exact ⟨d, hd, by simp [hp]⟩
    · obtain rfl : p = pos := Option.some.inj h
      cases hs : s.firstDef with
      | none => exact ⟨p, le_rfl, by simp⟩
      | some d =>
        by_cases hp : p < d
        · exact ⟨p, le_rfl, by simp [hp]⟩
        · exact ⟨d, by omega, by simp [hp]⟩

theorem RangeState.le_lastUse_record {s : RangeState} {e : RangeEvent} {pos : ℕ}
    (h : pos ≤ s.lastUse ∨ e.livePos = some pos) : pos ≤ (s.record e).lastUse := by
  cases e with
  | define r p => exact h.resolve_right (by simp [RangeEvent.livePos])
  | use r p =>
    simp only [RangeEvent.livePos, Option.some.injEq] at h
    simp only [RangeState.record]
    split_ifs <;> omega
  | liveOut id p =>
    simp only [RangeEvent.livePos, Option.some.injEq] at h
    simp only [RangeState.record]
    split_ifs <;> omega

theorem RangeState.everSeen_record (s : RangeState) (e : RangeEvent) :
    (s.record e).everSeen = true := by
  cases e <;> rfl

section Record

variable {v pos : ℕ}

def recordAll (events : List RangeEvent) (states : ℕ → RangeState) : ℕ → RangeState :=
  events.foldl (fun states e => Function.update states e.id ((states e.id).record e)) states

theorem recordAll_keeps {P : RangeState → Prop} (hkeep : ∀ s e, P s → P (s.record e))
    (events : List RangeEvent) {states : ℕ → RangeState}
    (h : P (states v) ∨ ∃ e ∈ events, e.id = v ∧ ∀ s : RangeState, P (s.record e)) :
    P (recordAll events states v) := by
  induction events generalizing states with
  | nil => exact h.resolve_right (by simp)
  | cons e events ih =>
    change P (recordAll events (Function.update states e.id ((states e.id).record e)) v)
    refine ih ?_
    by_cases hid : e.id = v
    · subst hid
      rw [Function.update_self]
      rcases h with h | ⟨e', he', hid', hP⟩
      · exact .inl (hkeep _ _ h)
      · rcases List.mem_cons.mp he' with rfl | he'
        · exact .inl (hP _)
        · exact .inr ⟨e', he', hid', hP⟩
    · rw [Function.update_of_ne (Ne.symm hid)]
      rcases h with h | ⟨e', he', hid', hP⟩
      · exact .inl h
      · rcases List.mem_cons.mp he' with rfl | he'
        · exact absurd hid' hid
        · exact .inr ⟨e', he', hid', hP⟩

variable {events : List RangeEvent} {e : RangeEvent} (he : e ∈ events) (hid : e.id = v)

include he hid

theorem rangeStates_from (hpos : e.defPos = some pos) : (rangeStates events v).From pos :=
  recordAll_keeps (P := fun s => s.From pos)
    (fun _ _ h => RangeState.from_record (.inl h)) events
    (.inr ⟨e, he, hid, fun _ => RangeState.from_record (.inr hpos)⟩)

theorem le_lastUse_rangeStates (hpos : e.livePos = some pos) :
    pos ≤ (rangeStates events v).lastUse :=
  recordAll_keeps (P := fun s => pos ≤ s.lastUse)
    (fun _ _ h => RangeState.le_lastUse_record (.inl h)) events
    (.inr ⟨e, he, hid, fun _ => RangeState.le_lastUse_record (.inr hpos)⟩)

theorem everSeen_rangeStates : (rangeStates events v).everSeen = true :=
  recordAll_keeps (P := fun s => s.everSeen = true) (fun s e _ => s.everSeen_record e) events
    (.inr ⟨e, he, hid, fun s => s.everSeen_record e⟩)

theorem emitRange_mem (hv : v ≠ 0) : emitRange v (rangeStates events v) ∈ emitRanges events := by
  rw [emitRanges, List.mem_insertionSort]
  refine List.mem_map_of_mem (List.mem_filter.mpr ⟨List.mem_range.mpr ?_, ?_⟩)
  · have hmem : v + 1 ∈ events.map fun e => e.id + 1 := List.mem_map.mpr ⟨e, he, by rw [hid]⟩
    exact List.le_max_of_le hmem le_rfl
  · simp [hv, everSeen_rangeStates he hid]

end Record

theorem emitRanges_nodup (events : List RangeEvent) :
    ((emitRanges events).map LirLiveRange.vreg).Nodup := by
  rw [emitRanges, ((List.perm_insertionSort rangeBefore _).map _).nodup_iff, List.map_map]
  have hid : ∀ ids : List ℕ, ids.map (LirLiveRange.vreg ∘ fun id =>
      emitRange id (rangeStates events id)) = ids := fun ids => List.map_id'' (fun _ => rfl) ids
  rw [hid]
  exact List.nodup_range.filter _

theorem emitRange_covers {v pos : ℕ} {s : RangeState} (hfrom : s.firstDef = none ∨ s.From pos)
    (huse : pos ≤ s.lastUse) : (emitRange v s).start ≤ pos ∧ pos < (emitRange v s).end := by
  have hstart : s.firstDef.getD 0 ≤ pos := by
    rcases hfrom with h | ⟨d, hd, h⟩ <;> rw [h]
    · exact Nat.zero_le _
    · exact hd
  refine ⟨hstart, ?_⟩
  simp only [emitRange]
  split_ifs <;> omega

section Events

variable {f : LivenessFunc} {sets : LiveSets} {b first : ℕ}

def funcEvents (f : LivenessFunc) (sets : LiveSets) : List RangeEvent :=
  (numberBlocks f 0 (computeRpo f)).flatMap (blockEvents f sets.liveOut)

variable (hb : (b, first) ∈ numberBlocks f 0 (computeRpo f))

include hb

theorem instEvents_mem {i : ℕ} {x : LivenessInst} {e : RangeEvent} (hx : (f.insts b)[i]? = some x)
    (he : e ∈ instEvents x (first + 2 * i)) : e ∈ funcEvents f sets := by
  have hmem : (x, i) ∈ (f.insts b).zipIdx := List.mem_zipIdx_iff_getElem?.mpr hx
  exact List.mem_flatMap.mpr
    ⟨_, hb, List.mem_append_left _ (List.mem_flatMap.mpr ⟨_, hmem, he⟩)⟩

theorem useEvent_mem {v i : ℕ} {x : LivenessInst} (hx : (f.insts b)[i]? = some x)
    (hv : v ∈ x.useIds) :
    ∃ e ∈ funcEvents f sets, e.id = v ∧ e.livePos = some (first + 2 * i) := by
  obtain ⟨r, hr, rfl⟩ := List.mem_map.mp hv
  exact ⟨.use r (first + 2 * i),
    instEvents_mem hb hx (List.mem_append_left _ (List.mem_map_of_mem hr)), rfl, rfl⟩

theorem defEvent_mem {i : ℕ} {x : LivenessInst} {d : LirReg × Bool} (hx : (f.insts b)[i]? = some x)
    (hd : d ∈ forEachDef x) :
    ∃ e ∈ funcEvents f sets, e.id = d.1.id ∧
      e.defPos = some (if d.2 then first + 2 * i else first + 2 * i + 1) :=
  ⟨.define d.1 (if d.2 then first + 2 * i else first + 2 * i + 1),
    instEvents_mem hb hx (List.mem_append_right _ (List.mem_map_of_mem hd)), rfl, rfl⟩

theorem liveOutEvent_mem {v : ℕ} (hv : v ∈ sets.liveOut b) (hlen : 0 < (f.insts b).length) :
    ∃ e ∈ funcEvents f sets, e.id = v ∧
      e.livePos = some (first + 2 * (f.insts b).length - 1) := by
  have hbit : v ∈ setBits (sets.liveOut b) := by
    rw [setBits, List.mem_filter, List.mem_range, decide_eq_true_eq]
    exact ⟨Nat.lt_succ_of_le (Finset.le_sup (f := id) hv), hv⟩
  refine ⟨.liveOut v (first + 2 * (f.insts b).length - 1), ?_, rfl, rfl⟩
  refine List.mem_flatMap.mpr ⟨_, hb, List.mem_append_right _ ?_⟩
  rw [if_neg (by simp only; omega)]
  exact List.mem_map_of_mem hbit

theorem from_of_def {v i pos : ℕ} {x : LivenessInst} (hx : (f.insts b)[i]? = some x)
    (hv : v ∈ x.defIds) (hpos : first + 2 * i + 1 ≤ pos) :
    (rangeStates (funcEvents f sets) v).From pos := by
  obtain ⟨d, hd, rfl⟩ := List.mem_map.mp hv
  obtain ⟨e, he, hid, hdef⟩ : ∃ e ∈ funcEvents f sets, _ := defEvent_mem hb hx hd
  obtain ⟨p, hp, hs⟩ := rangeStates_from he hid hdef
  refine ⟨p, ?_, hs⟩
  split_ifs at hp <;> omega

theorem le_lastUse_of_liveAt
    (hfix : ∀ b ∈ f.blocks, joinOut f sets b = sets.liveOut b ∧
      transfer f b (sets.liveOut b) = sets.liveIn b) {v i pos : ℕ} (hv : v ≠ 0)
    (h : f.LiveAt v b i) (hlen : 0 < (f.insts b).length) (hpos : pos ≤ first + 2 * i)
    (hend : pos + 1 ≤ first + 2 * (f.insts b).length) :
    pos ≤ (rangeStates (funcEvents f sets) v).lastUse ∧
      ∃ e ∈ funcEvents f sets, e.id = v := by
  have hblock : b ∈ f.blocks := by
    obtain ⟨l, r, heq, -⟩ := LivenessFunc.mem_numberBlocks.mp hb
    exact LivenessFunc.mem_computeRpo.mp (by rw [heq]; simp)
  rcases h.reads_or_out hfix hv hblock with ⟨k, hk, ⟨x, hx, hu⟩, -⟩ | ⟨ho, -⟩
  · obtain ⟨e, he, hid, hlive⟩ : ∃ e ∈ funcEvents f sets, _ := useEvent_mem hb hx hu
    have := le_lastUse_rangeStates he hid hlive
    exact ⟨by omega, e, he, hid⟩
  · obtain ⟨e, he, hid, hlive⟩ := liveOutEvent_mem hb ho hlen
    have := le_lastUse_rangeStates he hid hlive
    exact ⟨by omega, e, he, hid⟩

theorem from_of_liveAt {v i pos : ℕ} (hreach : f.Reachable b)
    (hentry : ∀ entry, f.blocks.head? = some entry → ¬f.LiveAt v entry 0)
    (h : f.LiveAt v b i) (hi : i ≤ (f.insts b).length) (hpos : first + 2 * i ≤ pos + 1)
    (hfirst : first ≤ pos) : (rangeStates (funcEvents f sets) v).From pos := by
  by_cases hno : f.NoDef v b 0 i
  · -- the value comes from a block before this one
    obtain ⟨entry, rest, fuel, l, r, t, hblocks, horder, hw⟩ :=
      LivenessFunc.computeRpo_split hreach
    obtain ⟨u, hu, j, x, hx, hd⟩ := LivenessFunc.exists_def_before
      (hentry entry (by simp [hblocks])) hw rfl (hno.liveAt hi (Nat.zero_le _) h)
    obtain ⟨first', hu', hle⟩ := LivenessFunc.numberBlocks_before (r := r ++ t)
      (by rw [horder, List.append_assoc, List.cons_append]) hb hu
    have hj := (List.getElem?_eq_some_iff.mp hx).1
    exact from_of_def hu' hx hd (by omega)
  · simp only [LivenessFunc.NoDef, not_forall, not_not] at hno
    obtain ⟨j, -, hj, x, hx, hd⟩ := hno
    exact from_of_def hb hx hd (by omega)

end Events

/-- **Liveness is exact, and a range covers where its register is live.**  For every function the
fixpoint is reached; a register is in the set of a block's beginning or end exactly if a path from
there reads it before writing it; every register has at most one range, and if the entry does not
read a register before writing it, every position of a reachable block at which it is live lies in
its range. -/
theorem analyzeFuncLiveness_exact (f : LivenessFunc) :
    ∃ r, analyzeFuncLiveness f = some r ∧
      (∀ b ∈ f.blocks, ∀ v, (v ∈ r.sets.liveIn b ↔ v ≠ 0 ∧ f.LiveAt v b 0) ∧
        (v ∈ r.sets.liveOut b ↔ v ≠ 0 ∧ f.LiveAt v b (f.insts b).length)) ∧
      (r.ranges.map LirLiveRange.vreg).Nodup ∧
      ∀ v, v ≠ 0 → (∀ entry, f.blocks.head? = some entry → ¬f.LiveAt v entry 0) →
        ∀ b pos, f.Reachable b → f.LivePos v b pos →
          ∃ g ∈ r.ranges, g.vreg = v ∧ g.start ≤ pos ∧ pos < g.end := by
  obtain ⟨sets, hsets, hflow, hfix⟩ := liveFixpoint_spec (computeRpo f)
    fun b => LivenessFunc.mem_computeRpo (f := f) (b := b)
  refine ⟨_, by rw [analyzeFuncLiveness, hsets]; rfl, fun b hb v => ⟨?_, ?_⟩,
    emitRanges_nodup _, ?_⟩
  · refine ⟨hflow.inLive b v, fun hl => ?_⟩
    obtain ⟨hv, h⟩ := hl
    rw [← (hfix b hb).2, mem_transfer hv]
    exact h.reads_or_out hfix hv hb
  · refine ⟨hflow.outLive b v, fun hl => ?_⟩
    obtain ⟨hv, h⟩ := hl
    rcases h.reads_or_out hfix hv hb with ⟨k, hk, ⟨x, hx, -⟩, -⟩ | ⟨ho, -⟩
    · have := (List.getElem?_eq_some_iff.mp hx).1
      omega
    · exact ho
  · intro v hv hentry b pos hreach hpos
    have hcover : ∀ {first i j : ℕ}, (b, first) ∈ numberBlocks f 0 (computeRpo f) →
        f.LiveAt v b j → j ≤ (f.insts b).length → first + 2 * i ≤ pos → pos ≤ first + 2 * j →
        i < (f.insts b).length → pos + 1 ≤ first + 2 * (f.insts b).length →
        (rangeStates (funcEvents f sets) v).From pos →
        ∃ g ∈ emitRanges (funcEvents f sets), g.vreg = v ∧ g.start ≤ pos ∧ pos < g.end := by
      intro first i j hb hlive _ _ hj hi hend hfrom
      obtain ⟨huse, e, he, hid⟩ := le_lastUse_of_liveAt hb hfix hv hlive (by omega) hj hend
      exact ⟨_, emitRange_mem he hid hv, rfl, emitRange_covers (.inr hfrom) huse⟩
    cases hpos with
    | @before first i hb hi hlive =>
      exact hcover hb hlive hi.le le_rfl le_rfl hi (by omega)
        (from_of_liveAt hb hreach hentry hlive hi.le (by omega) (by omega))
    | @after first i hb hi hlive =>
      exact hcover hb hlive hi (Nat.le_succ _) (by omega) hi (by omega)
        (from_of_liveAt hb hreach hentry hlive hi (by omega) (by omega))
    | @early first i x d hb hx hd hid he hlive =>
      have hi := (List.getElem?_eq_some_iff.mp hx).1
      obtain ⟨e, hev, heid, hdef⟩ : ∃ e ∈ funcEvents f sets, _ := defEvent_mem hb hx hd
      rw [if_pos he] at hdef
      exact hcover hb hlive hi le_rfl (by omega) hi (by omega)
        (rangeStates_from hev (heid.trans hid) hdef)

/-- An instruction with these general registers read and this one written, if it is not 0. -/
def plainInst (uses : List ℕ) (result : ℕ) : LivenessInst where
  result := ⟨result, false, if result = 0 then .none else .gpr⟩
  earlyClobber := false
  operands := uses.map fun id => some ⟨id, false, .gpr⟩
  roles := none

def loopFunc : LivenessFunc where
  blocks := [1, 2]
  insts b := if b = 1 then [plainInst [] 5] else [plainInst [5] 0]
  succs _ := [2]
  nodup := by decide

theorem analyzeFuncLiveness_exact_loop :
    ∃ r, analyzeFuncLiveness loopFunc = some r ∧ ∃ g ∈ r.ranges, g.vreg = 5 ∧ 3 < g.end := by
  obtain ⟨r, hr, -, -, hcover⟩ := analyzeFuncLiveness_exact loopFunc
  have hentry : ¬loopFunc.LiveAt 5 1 0 :=
    LivenessFunc.not_liveAt_of_def (x := plainInst [] 5) rfl (by decide) (by decide)
  have hloop : loopFunc.LiveAt 5 2 1 :=
    .edge (b := 2) (by decide : 2 ∈ loopFunc.next 2) (.use rfl (by decide))
  obtain ⟨g, hg, hv, -, hend⟩ := hcover 5 (by decide)
    (fun entry he => Option.some.inj he ▸ hentry) 2 3
    ⟨1, rfl, .single (by decide : 2 ∈ loopFunc.next 1)⟩
    (.after (i := 0) (by decide : (2, 2) ∈ numberBlocks loopFunc 0 (computeRpo loopFunc))
      (by decide) hloop)
  exact ⟨r, hr, g, hg, hv, hend⟩

/-- Register 5 is written and read in blocks that the entry does not reach, the reader first. -/
def orphanFunc : LivenessFunc where
  blocks := [1, 2, 3]
  insts b := [if b = 2 then plainInst [5] 0 else if b = 3 then plainInst [] 5 else plainInst [] 0]
  succs b := if b = 3 then [2] else []
  nodup := by decide

/-- Register 5 is written, read, and written again in vain. -/
def rewriteFunc : LivenessFunc where
  blocks := [1]
  insts _ := [plainInst [] 5, plainInst [5] 0, plainInst [] 5]
  succs _ := []
  nodup := by decide

/-- The read of an unreachable block lies before its register's range, and the last write of a
register whose value nobody reads behind it. -/
theorem analyzeFuncLiveness_uncovered :
    (¬orphanFunc.LiveAt 5 1 0 ∧ orphanFunc.LivePos 5 2 2 ∧
      (analyzeFuncLiveness orphanFunc).map (·.ranges) = some [⟨5, .gpr, 5, 6⟩]) ∧
    ¬rewriteFunc.LiveAt 5 1 0 ∧ 5 ∈ (plainInst [] 5).defIds ∧
      (analyzeFuncLiveness rewriteFunc).map (·.ranges) = some [⟨5, .gpr, 1, 3⟩] := by
  have horphan : ∀ b i, orphanFunc.LiveAt 5 b i → b ≠ 1 := by
    intro b i h
    induction h with
    | @use _ i x hx hv =>
      rintro rfl
      obtain rfl : x = plainInst [] 0 := by
        simpa [orphanFunc] using List.mem_of_getElem? hx
      exact absurd hv (by decide)
    | pass _ _ _ ih => exact ih
    | edge ht _ _ =>
      rintro rfl
      rw [show orphanFunc.next 1 = [] by decide] at ht
      cases ht
  have hrewrite : ¬rewriteFunc.LiveAt 5 1 0 :=
    LivenessFunc.not_liveAt_of_def (x := plainInst [] 5) rfl (by decide) (by decide)
  refine ⟨⟨fun h => horphan 1 0 h rfl, ?_, by decide⟩, hrewrite, by decide, by decide⟩
  exact .before (i := 0) (by decide : (2, 2) ∈ numberBlocks orphanFunc 0 (computeRpo orphanFunc))
    (by decide) (.use rfl (by decide))

end DssPrime
