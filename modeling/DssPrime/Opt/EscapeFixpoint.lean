import DssPrime.Opt.Escape

/-!
# The escape analysis reaches its fixpoint

What the four phases of `MirPointerEscape.build` establish, for every module:

* `solveWithCap_isSome` : the origin iteration always ends, within fewer steps than its cap, and a
  larger cap changes nothing. Every value changes its origin at most twice, and each change pushes
  the users of one value, so that the number of steps is at most the derived values plus twice the
  edges.
-/

namespace DssPrime.MirPointerEscape

theorem mem_allInsts (m : Mir) {e : ℕ × ℕ} :
    e ∈ m.allInsts ↔ m.IsInst e.2 ∧ m.blockFunc (m.instBlock e.2) = e.1 := by
  obtain ⟨f, i⟩ := e
  simp only [MirData.allInsts, List.mem_flatMap, List.mem_map, Prod.mk.injEq]
  constructor
  · rintro ⟨g, hg, b, hb, j, hj, rfl, rfl⟩
    have hg' := m.mem_moduleFuncs.1 hg
    have hown := (m.funcBuilt hg').owner b hb
    obtain ⟨k, hk, rfl⟩ := List.mem_map.1 hj
    rw [List.mem_range] at hk
    have hblock := m.isBlock_of_lt hk
    exact ⟨m.isInst_blockInstAt hk, by rw [(m.blockBuilt hblock).owner _ hj, hown]⟩
  · rintro ⟨hi, rfl⟩
    obtain ⟨hb, h1, h2⟩ := (m.instBuilt hi).inBlock
    obtain ⟨hf, hfb⟩ := m.mem_funcBlocks_blockFunc hb
    refine ⟨_, hf, _, hfb, i, ?_, rfl, rfl⟩
    refine List.mem_map.2 ⟨i - (m.block (m.instBlock i)).instStart, List.mem_range.2 ?_, ?_⟩
    · omega
    · simp only [MirData.blockInstAt]; omega

theorem nodup_allInsts (m : Mir) : m.allInsts.Nodup := by
  have hfuncs : m.moduleFuncs.Nodup :=
    List.Nodup.map (fun a b h => by simpa [MirData.funcAt] using h) List.nodup_range
  have hblocks : ∀ f, (m.funcBlocks f).Nodup := fun f =>
    List.Nodup.map (fun a b h => by simpa [MirData.funcBlockAt] using h) List.nodup_range
  have hinsts : ∀ b, (m.blockInsts b).Nodup := fun b =>
    List.Nodup.map (fun a b h => by simpa [MirData.blockInstAt] using h) List.nodup_range
  refine List.nodup_flatMap.2 ⟨fun f hf => List.nodup_flatMap.2 ⟨fun b _ => ?_, ?_⟩, ?_⟩
  · exact (hinsts b).map fun i j h => (Prod.mk.inj h).2
  · -- two blocks of one function: an instruction knows its block
    refine (hblocks f).imp_of_mem fun {b c} hb hc hbc => ?_
    rw [Function.onFun, List.disjoint_left]
    intro e he he'
    obtain ⟨i, hi, rfl⟩ := List.mem_map.1 he
    obtain ⟨j, hj, hij⟩ := List.mem_map.1 he'
    obtain rfl := (Prod.mk.inj hij).2
    have blk : ∀ {b}, j ∈ m.blockInsts b → m.instBlock j = b := by
      intro b hjb
      obtain ⟨k, hk, -⟩ := List.mem_map.1 hjb
      exact (m.blockBuilt (m.isBlock_of_lt (List.mem_range.1 hk))).owner j hjb
    exact hbc ((blk hi).symm.trans (blk hj))
  · refine hfuncs.imp_of_mem fun {f g} _ _ hfg => ?_
    rw [Function.onFun, List.disjoint_left]
    intro e he he'
    obtain ⟨b, -, hb⟩ := List.mem_flatMap.1 he
    obtain ⟨c, -, hc⟩ := List.mem_flatMap.1 he'
    obtain ⟨i, -, rfl⟩ := List.mem_map.1 hb
    obtain ⟨j, -, hij⟩ := List.mem_map.1 hc
    exact hfg (Prod.mk.inj hij).1.symm

theorem length_allInsts_le (m : Mir) : m.allInsts.length ≤ m.instCount := by
  have hinj : (m.allInsts.map Prod.snd).Nodup := by
    refine List.Nodup.map_on (fun x hx y hy h => ?_) (nodup_allInsts m)
    have hx := ((mem_allInsts m).1 hx).2
    have hy := ((mem_allInsts m).1 hy).2
    exact Prod.ext (by rw [← hx, ← hy, h]) h
  rw [← List.length_map (f := Prod.snd), ← List.toFinset_card_of_nodup hinj,
    ← Finset.card_range m.instCount]
  refine Finset.card_le_card fun i hi => ?_
  obtain ⟨e, he, rfl⟩ := List.mem_map.1 (List.mem_toFinset.1 hi)
  exact Finset.mem_range.2 ((mem_allInsts m).1 he).1.2

section

variable (m : MirData)

def rootOrigin (id : ℕ) : Option MirPointerOrigin :=
  match mirPointerRootClass (m.instOpcode id), m.instOperands id with
  | .slot, _ => some (.slot id)
  | .external, _ => some .external
  | .unknown, _ => some .unknown
  | .baseDerived, [] => some .unknown
  | _, _ => none

def sources (id : ℕ) : List ℕ :=
  match mirPointerRootClass (m.instOpcode id), m.instOperands id with
  | .baseDerived, base :: _ => [base]
  | .merged, _ => (((m.phiIncomings id).filter fun inc => inc.value ≠ 0).map (·.value))
  | _, _ => []

def IsDerived (id : ℕ) : Prop := rootOrigin m id = none

instance (id : ℕ) : Decidable (IsDerived m id) := inferInstanceAs (Decidable (_ = _))

structure Seeded (l : List (ℕ × ℕ)) (st : MirPointerEscape) : Prop where
  length : st.origins.length = m.instCount
  origins : ∀ i, st.origins.getD i .unresolved =
    if i ∈ l.map Prod.snd ∧ i < m.instCount then (rootOrigin m i).getD .unresolved
    else .unresolved
  edges : st.propEdges =
    (l.filter fun e => e.2 < m.instCount).flatMap fun e => (sources m e.2).map (·, e.2)
  derived : st.derived =
    ((l.map Prod.snd).filter fun i => i < m.instCount).filter fun i => IsDerived m i
  slots : st.funcSlots = l.filter fun e => m.instOpcode e.2 = .alloca
  frames : ∀ f, f ∈ st.allSlotsEscape ↔
    ∃ i, (f, i) ∈ l ∧ mirOpcodeObservesFrame (m.instOpcode i) = true
  rest : st.slotDerived = [] ∧ st.escapedSlots = []

variable {m}

theorem seedRoot_root {st : MirPointerEscape} {id : ℕ} {o : MirPointerOrigin}
    (h : rootOrigin m id = some o) :
    seedRoot m st id = { st with origins := st.origins.set id o } := by
  unfold rootOrigin at h
  unfold seedRoot
  split at h <;> simp_all

theorem seedRoot_derived {st : MirPointerEscape} {id : ℕ} (h : IsDerived m id) :
    seedRoot m st id = { st with
      propEdges := st.propEdges ++ (sources m id).map (·, id)
      derived := st.derived ++ [id] } := by
  unfold IsDerived rootOrigin at h
  unfold seedRoot sources
  cases hc : mirPointerRootClass (m.instOpcode id) <;> cases ho : m.instOperands id <;>
    simp_all [List.map_map, Function.comp_def]

theorem sources_root {id : ℕ} (h : ¬ IsDerived m id) : sources m id = [] := by
  unfold IsDerived rootOrigin at h
  unfold sources
  cases hc : mirPointerRootClass (m.instOpcode id) <;> cases ho : m.instOperands id <;>
    simp_all

theorem seeded_empty : Seeded m [] (empty m) where
  length := by simp [empty]
  origins i := by simp [empty, List.getD_eq_getElem?_getD, List.getElem?_replicate]; split <;> rfl
  edges := rfl
  derived := rfl
  slots := rfl
  frames f := by simp [empty]
  rest := ⟨rfl, rfl⟩

theorem seedFrame_eq (st : MirPointerEscape) (f id : ℕ) :
    seedFrame m st f id = { st with
      funcSlots := (seedFrame m st f id).funcSlots
      allSlotsEscape := (seedFrame m st f id).allSlotsEscape } := by
  unfold seedFrame
  dsimp only
  split_ifs <;> rfl

theorem Seeded.frame {l : List (ℕ × ℕ)} {st : MirPointerEscape} (h : Seeded m l st)
    (e : ℕ × ℕ) :
    (seedFrame m st e.1 e.2).funcSlots =
      ((l ++ [e]).filter fun e => m.instOpcode e.2 = .alloca) ∧
    ∀ f, f ∈ (seedFrame m st e.1 e.2).allSlotsEscape ↔
      ∃ i, (f, i) ∈ l ++ [e] ∧ mirOpcodeObservesFrame (m.instOpcode i) = true := by
  have hframes : ∀ f, (∃ i, (f, i) ∈ l ++ [e] ∧ mirOpcodeObservesFrame (m.instOpcode i) = true) ↔
      f ∈ st.allSlotsEscape ∨
        f = e.1 ∧ mirOpcodeObservesFrame (m.instOpcode e.2) = true := by
    intro f
    rw [h.frames f]
    constructor
    · rintro ⟨i, hi, ho⟩
      rcases List.mem_append.1 hi with hi | hi
      · exact .inl ⟨i, hi, ho⟩
      · obtain rfl := List.mem_singleton.1 hi
        exact .inr ⟨rfl, ho⟩
    · rintro (⟨i, hi, ho⟩ | ⟨rfl, ho⟩)
      · exact ⟨i, List.mem_append_left _ hi, ho⟩
      · exact ⟨e.2, by simp, ho⟩
  constructor
  · rw [List.filter_append, ← h.slots]
    unfold seedFrame
    dsimp only
    split_ifs <;> simp_all
  · intro f
    rw [hframes]
    unfold seedFrame
    dsimp only
    split_ifs <;> simp_all [or_comm]

theorem getD_set {os : List MirPointerOrigin} {i j : ℕ} {o : MirPointerOrigin}
    (h : i < os.length) :
    (os.set i o).getD j .unresolved = if j = i then o else os.getD j .unresolved := by
  simp only [List.getD_eq_getElem?_getD, List.getElem?_set]
  by_cases hij : i = j
  · subst hij; simp [h]
  · rw [if_neg hij, if_neg (Ne.symm hij)]

theorem mem_map_snd_snoc {l : List (ℕ × ℕ)} {e : ℕ × ℕ} {i : ℕ} :
    i ∈ (l ++ [e]).map Prod.snd ↔ i ∈ l.map Prod.snd ∨ i = e.2 := by
  rw [List.map_append, List.mem_append, List.map_singleton, List.mem_singleton]

theorem Seeded.snoc {l : List (ℕ × ℕ)} {st : MirPointerEscape} (h : Seeded m l st)
    (e : ℕ × ℕ) : Seeded m (l ++ [e]) (seedInst m st e) := by
  obtain ⟨hslots, hframes⟩ := h.frame e
  unfold seedInst
  dsimp only
  rw [seedFrame_eq]
  split_ifs with hout
  · -- an identifier past the table: only the frame is looked at
    refine ⟨h.length, fun i => ?_, ?_, ?_, hslots, hframes, h.rest⟩
    · rw [h.origins i]
      refine if_congr ⟨?_, ?_⟩ rfl rfl
      · rintro ⟨hi, hlt⟩
        exact ⟨mem_map_snd_snoc.2 (.inl hi), hlt⟩
      · rintro ⟨hi, hlt⟩
        rcases mem_map_snd_snoc.1 hi with hi | rfl
        · exact ⟨hi, hlt⟩
        · omega
    · rw [List.filter_append, h.edges]
      simp [hout]
    · rw [List.map_append, List.filter_append, List.filter_append, h.derived]
      simp [hout]
  · rw [not_le] at hout
    have hlen : e.2 < st.origins.length := by rw [h.length]; exact hout
    cases hroot : rootOrigin m e.2 with
    | some o =>
      have hnd : ¬ IsDerived m e.2 := by simp [IsDerived, hroot]
      rw [seedRoot_root hroot]
      refine ⟨by simpa using h.length, fun i => ?_, ?_, ?_, hslots, hframes, h.rest⟩
      · rw [getD_set hlen, h.origins i]
        simp only [mem_map_snd_snoc]
        by_cases hi : i = e.2
        · subst hi; simp [hout, hroot]
        · simp only [hi, or_false, if_false]
      · rw [List.filter_append, List.flatMap_append, ← h.edges]
        simp [hout, sources_root hnd]
      · rw [List.map_append, List.filter_append, List.filter_append, ← h.derived]
        simp [hout, hnd]
    | none =>
      have hd : IsDerived m e.2 := hroot
      rw [seedRoot_derived hd]
      refine ⟨h.length, fun i => ?_, ?_, ?_, hslots, hframes, h.rest⟩
      · change st.origins.getD i .unresolved = _
        rw [h.origins i]
        simp only [mem_map_snd_snoc]
        by_cases hi : i = e.2
        · subst hi; simp [hroot]
        · simp only [hi, or_false]
      · rw [List.filter_append, List.flatMap_append, ← h.edges]
        simp [hout]
      · rw [List.map_append, List.filter_append, List.filter_append, ← h.derived]
        simp [hout, hd]

theorem seedAndCollect_seeded : Seeded m m.allInsts (seedAndCollect m) := by
  unfold seedAndCollect
  induction m.allInsts using List.reverseRecOn with
  | nil => exact seeded_empty
  | append_singleton l e ih =>
    rw [List.foldl_append]
    exact ih.snoc e

theorem mem_propUsers {edges : List (ℕ × ℕ)} {v u : ℕ} :
    u ∈ propUsers edges v ↔ (v, u) ∈ edges := by
  simp only [propUsers, List.mem_map, List.mem_filter, decide_eq_true_eq]
  constructor
  · rintro ⟨e, ⟨he, rfl⟩, rfl⟩; exact he
  · intro h; exact ⟨(v, u), ⟨h, rfl⟩, rfl⟩

theorem markSlotDerived_spec (st : MirPointerEscape) :
    ∃ r, markSlotDerived m st = some { st with slotDerived := r } ∧
      ∀ x, x ∈ r ↔ ∃ s ∈ st.funcSlots.map Prod.snd, s < m.instCount ∧
        Worklist.Reaches (fun v => (propUsers st.propEdges v).filter (· < m.instCount)) s x := by
  unfold markSlotDerived
  dsimp only
  set next := fun v => (propUsers st.propEdges v).filter (· < m.instCount) with hnext
  set slots := (st.funcSlots.map Prod.snd).filter (· < m.instCount) with hslots
  have hroots : ∀ x, x ∈ (Worklist.pushNew slots [] []).2 ↔ x ∈ slots := by
    intro x
    rw [Worklist.mem_pushNew_seen]
    simp
  obtain ⟨r, hr⟩ := @Worklist.run_isSome _ _ next (Finset.range m.instCount)
    (by
      intro x _ y hy
      rw [hnext, List.mem_filter, decide_eq_true_eq] at hy
      exact Finset.mem_range.2 hy.2)
    m.instCount (Worklist.pushNew slots [] []).1 (Worklist.pushNew slots [] []).2
    (by
      intro x hx
      rw [hroots, hslots, List.mem_filter, decide_eq_true_eq] at hx
      exact Finset.mem_range.2 hx.2)
    (by intro x hx; rwa [Worklist.pushNew_same] at hx)
    (Worklist.nodup_pushNew List.nodup_nil)
    (by rw [Worklist.pushNew_same, Finset.card_range, add_comm])
  refine ⟨r, by rw [hr]; rfl, fun x => ?_⟩
  rw [Worklist.pushNew_same] at hr
  rw [Worklist.mem_run_iff hr]
  constructor
  · rintro ⟨s, hs, hsx⟩
    rw [hroots, hslots, List.mem_filter, decide_eq_true_eq] at hs
    exact ⟨s, hs.1, hs.2, hsx⟩
  · rintro ⟨s, hs, hlt, hsx⟩
    refine ⟨s, ?_, hsx⟩
    rw [hroots, hslots, List.mem_filter, decide_eq_true_eq]
    exact ⟨hs, hlt⟩

def Le (a b : MirPointerOrigin) : Prop := a = .unresolved ∨ b = .unknown ∨ a = b

def rank : MirPointerOrigin → ℕ
  | .unresolved => 0
  | .slot _ | .external => 1
  | .unknown => 2

theorem Le.refl (a : MirPointerOrigin) : Le a a := .inr (.inr rfl)

theorem Le.trans {a b c : MirPointerOrigin} (h : Le a b) (h' : Le b c) : Le a c := by
  unfold Le at *
  grind

theorem Le.eq_unresolved {a : MirPointerOrigin} (h : Le a .unresolved) : a = .unresolved := by
  unfold Le at h
  simpa using h

theorem Le.rank_lt {a b : MirPointerOrigin} (h : Le a b) (hne : a ≠ b) : rank a < rank b := by
  unfold Le at h
  cases a <;> cases b <;> simp_all [rank]

theorem rank_le_of_le {a b : MirPointerOrigin} (h : Le a b) : rank a ≤ rank b := by
  by_cases hab : a = b
  · rw [hab]
  · exact (h.rank_lt hab).le

theorem le_join_left (a b : MirPointerOrigin) : Le a (join a b) := by
  unfold join Le
  split <;> grind

theorem le_join_right (a b : MirPointerOrigin) : Le b (join a b) := by
  unfold join Le
  split <;> grind

theorem join_le {a b c : MirPointerOrigin} (ha : Le a c) (hb : Le b c) : Le (join a b) c := by
  unfold join Le at *
  split <;> grind

theorem join_mono {a b a' b' : MirPointerOrigin} (ha : Le a a') (hb : Le b b') :
    Le (join a b) (join a' b') :=
  join_le (ha.trans (le_join_left a' b')) (hb.trans (le_join_right a' b'))

theorem transfer_congr {o o' : List MirPointerOrigin} {id : ℕ} (hd : IsDerived m id)
    (h : ∀ p ∈ sources m id, originAt m o p = originAt m o' p) :
    transfer m o id = transfer m o' id := by
  unfold IsDerived rootOrigin at hd
  unfold transfer
  unfold sources at h
  cases hc : mirPointerRootClass (m.instOpcode id) <;> simp only [hc] at hd h ⊢
  case baseDerived =>
    cases ho : m.instOperands id with
    | nil => simp
    | cons base rest =>
      rw [ho] at h
      simpa using h base (by simp)
  case merged =>
    simp only [if_true]
    refine List.foldl_ext _ _ _ fun j inc hinc => ?_
    by_cases h0 : inc.value = 0
    · -- an invalid value has the unknown origin in both tables
      simp [originAt, MirData.IsInst, h0]
    · rw [h inc.value]
      exact List.mem_map.2 ⟨inc, List.mem_filter.2 ⟨hinc, by simpa using h0⟩, rfl⟩
  all_goals simp at hd

theorem foldl_join_mono {o o' : List MirPointerOrigin}
    (h : ∀ p, Le (originAt m o p) (originAt m o' p)) (incs : List MirPhiIncoming) :
    ∀ {a a' : MirPointerOrigin}, Le a a' →
      Le (incs.foldl (fun j inc => join j (originAt m o inc.value)) a)
        (incs.foldl (fun j inc => join j (originAt m o' inc.value)) a') := by
  induction incs with
  | nil => exact fun ha => ha
  | cons inc incs ih => exact fun ha => ih (join_mono ha (h inc.value))

theorem transfer_mono {o o' : List MirPointerOrigin}
    (h : ∀ p, Le (originAt m o p) (originAt m o' p)) (id : ℕ) :
    Le (transfer m o id) (transfer m o' id) := by
  unfold transfer
  split_ifs
  · exact foldl_join_mono h _ (.refl _)
  · split
    · exact .refl _
    · exact h _

theorem originAt_set {o : List MirPointerOrigin} (hlen : o.length = m.instCount) {id p : ℕ}
    (hid : m.IsInst id) {v : MirPointerOrigin} :
    originAt m (o.set id v) p = if p = id then v else originAt m o p := by
  unfold originAt
  by_cases hp : p = id
  · subst hp
    rw [if_pos hid, getD_set (by rw [hlen]; exact hid.2)]
    simp
  · rw [getD_set (by rw [hlen]; exact hid.2)]
    simp only [hp, if_false]

/-- What the edges can still push: each one once per rise of its source. -/
def potential (m : MirData) (edges : List (ℕ × ℕ)) (o : List MirPointerOrigin) : ℕ :=
  (edges.map fun e => 2 - rank (originAt m o e.1)).sum

theorem potential_rise {o o' : List MirPointerOrigin} {id : ℕ}
    (h : ∀ p, Le (originAt m o p) (originAt m o' p))
    (hid : originAt m o id ≠ originAt m o' id) (edges : List (ℕ × ℕ)) :
    (propUsers edges id).length + potential m edges o' ≤ potential m edges o := by
  have hle : ∀ p, rank (originAt m o' p) ≤ 2 := fun p => by
    cases originAt m o' p <;> simp [rank]
  induction edges with
  | nil => simp [propUsers, potential]
  | cons e edges ih =>
    simp only [propUsers, List.length_map, potential, List.map_cons, List.sum_cons] at ih ⊢
    have hrank := rank_le_of_le (h e.1)
    have htop := hle e.1
    by_cases he : e.1 = id
    · have hlt := (h e.1).rank_lt (by rw [he]; exact hid)
      rw [List.filter_cons_of_pos (by simpa using he), List.length_cons]
      omega
    · rw [List.filter_cons_of_neg (by simpa using he)]
      omega

/-- The invariant of the iteration: every derived value is below its equation, and those that
are not waiting satisfy it. -/
structure Iterating (m : MirData) (seed : List MirPointerOrigin) (derived : List ℕ)
    (work : List ℕ) (o : List MirPointerOrigin) : Prop where
  length : o.length = m.instCount
  waiting : ∀ id ∈ work, id ∈ derived
  roots : ∀ id, id ∉ derived → originAt m o id = originAt m seed id
  below : ∀ id ∈ derived, Le (originAt m o id) (transfer m o id)
  solved : ∀ id ∈ derived, id ∉ work → originAt m o id = transfer m o id

theorem Iterating.skip {seed o : List MirPointerOrigin} {derived work : List ℕ} {id : ℕ}
    (h : Iterating m seed derived (id :: work) o) (hid : originAt m o id = transfer m o id) :
    Iterating m seed derived work o where
  length := h.length
  waiting x hx := h.waiting x (List.mem_cons_of_mem _ hx)
  roots := h.roots
  below := h.below
  solved x hx hn := by
    by_cases hxi : x = id
    · rw [hxi]; exact hid
    · exact h.solved x hx (by simp [hxi, hn])

theorem Iterating.raise {edges : List (ℕ × ℕ)} {seed o : List MirPointerOrigin}
    {derived work : List ℕ} {id : ℕ}
    (hder : ∀ x ∈ derived, m.IsInst x ∧ IsDerived m x)
    (hedges : ∀ p x, (p, x) ∈ edges ↔ x ∈ derived ∧ p ∈ sources m x)
    (h : Iterating m seed derived (id :: work) o) :
    (∀ p, Le (originAt m o p) (originAt m (o.set id (transfer m o id)) p)) ∧
      Iterating m seed derived ((propUsers edges id).reverse ++ work)
        (o.set id (transfer m o id)) := by
  have hid := h.waiting id List.mem_cons_self
  have hset : ∀ p, originAt m (o.set id (transfer m o id)) p =
      if p = id then transfer m o id else originAt m o p :=
    fun p => originAt_set h.length (hder id hid).1
  have hmono : ∀ p, Le (originAt m o p) (originAt m (o.set id (transfer m o id)) p) := by
    intro p
    rw [hset]
    split_ifs with hp
    · rw [hp]; exact h.below id hid
    · exact .refl _
  refine ⟨hmono, by simpa using h.length, fun x hx => ?_, fun x hx => ?_, fun x hx => ?_,
    fun x hx hn => ?_⟩
  · rcases List.mem_append.1 hx with hx | hx
    · rw [List.mem_reverse, mem_propUsers, hedges] at hx
      exact hx.1
    · exact h.waiting x (List.mem_cons_of_mem _ hx)
  · have hne : x ≠ id := by rintro rfl; exact hx hid
    rw [hset, if_neg hne]
    exact h.roots x hx
  · rw [hset]
    split_ifs with hxi
    · rw [hxi]; exact transfer_mono hmono id
    · exact (h.below x hx).trans (transfer_mono hmono x)
  · rw [List.mem_append, not_or, List.mem_reverse, mem_propUsers, hedges] at hn
    -- the raised value is no source of `x`, so the equation of `x` did not move
    have hsame : transfer m (o.set id (transfer m o id)) x = transfer m o x := by
      refine transfer_congr (hder x hx).2 fun p hp => ?_
      rw [hset, if_neg]
      rintro rfl
      exact hn.1 ⟨hx, hp⟩
    rw [hset, hsame]
    split_ifs with hxi
    · rw [hxi]
    · exact h.solved x hx (by simp [hxi, hn.2])

/-- **The iteration ends within the waiting values plus what the edges can push**, in a
solution of the equations. -/
theorem solveLoop_spec {edges : List (ℕ × ℕ)} {seed : List MirPointerOrigin} {derived : List ℕ}
    (hder : ∀ x ∈ derived, m.IsInst x ∧ IsDerived m x)
    (hedges : ∀ p x, (p, x) ∈ edges ↔ x ∈ derived ∧ p ∈ sources m x) {fuel : ℕ} :
    ∀ {work : List ℕ} {o : List MirPointerOrigin}, Iterating m seed derived work o →
      work.length + potential m edges o ≤ fuel →
      ∃ o', solveLoop m edges fuel work o = some o' ∧ Iterating m seed derived [] o' := by
  induction fuel with
  | zero =>
    intro work o h hf
    have : work = [] := List.length_eq_zero_iff.1 (by omega)
    subst this
    exact ⟨o, rfl, h⟩
  | succ fuel ih =>
    intro work o h hf
    cases work with
    | nil => exact ⟨o, rfl, h⟩
    | cons id work =>
      have hid := h.waiting id List.mem_cons_self
      have hlt : ¬ m.instCount ≤ id := not_le.2 (hder id hid).1.2
      simp only [List.length_cons] at hf
      rw [solveLoop, if_neg hlt]
      split_ifs with hun heq
      · refine ih (h.skip ?_) (by omega)
        have := h.below id hid
        rw [hun] at this ⊢
        exact this.eq_unresolved
      · exact ih (h.skip heq) (by omega)
      · obtain ⟨hmono, hnext⟩ := h.raise hder hedges
        refine ih hnext ?_
        have hrise := potential_rise hmono (by
          rw [originAt_set h.length (hder id hid).1, if_pos rfl]
          exact heq) edges
        rw [List.length_append, List.length_reverse]
        omega

theorem solveLoop_cap {edges : List (ℕ × ℕ)} {fuel fuel' : ℕ} (hle : fuel ≤ fuel') :
    ∀ {work : List ℕ} {o o' : List MirPointerOrigin},
      solveLoop m edges fuel work o = some o' → solveLoop m edges fuel' work o = some o' := by
  induction fuel generalizing fuel' with
  | zero =>
    intro work o o' h
    cases work with
    | nil => cases fuel' <;> exact h
    | cons id work => simp [solveLoop] at h
  | succ fuel ih =>
    intro work o o' h
    obtain ⟨fuel', rfl⟩ : ∃ k, fuel' = k + 1 := ⟨fuel' - 1, by omega⟩
    cases work with
    | nil => exact h
    | cons id work =>
      rw [solveLoop] at h ⊢
      split_ifs at h ⊢ with h1 h2 h3
      all_goals exact ih (by omega) h

structure Grows (st st' : MirPointerEscape) : Prop where
  origins : st'.origins = st.origins
  slotDerived : st'.slotDerived = st.slotDerived
  escaped : st.escapedSlots ⊆ st'.escapedSlots
  frames : st.allSlotsEscape ⊆ st'.allSlotsEscape

theorem Grows.refl (st : MirPointerEscape) : Grows st st :=
  ⟨rfl, rfl, fun _ h => h, fun _ h => h⟩

theorem Grows.trans {a b c : MirPointerEscape} (h : Grows a b) (h' : Grows b c) : Grows a c :=
  ⟨h'.origins.trans h.origins, h'.slotDerived.trans h.slotDerived,
    fun _ hx => h'.escaped (h.escaped hx), fun _ hx => h'.frames (h.frames hx)⟩

def Seen (m : MirData) (st : MirPointerEscape) (f o : ℕ) : Prop :=
  match originAt m st.origins o with
  | .slot s => s ∈ st.escapedSlots
  | .external => True
  | _ => o ∈ st.slotDerived → f ∈ st.allSlotsEscape

theorem Seen.grows {st st' : MirPointerEscape} {f o : ℕ} (h : Seen m st f o)
    (hg : Grows st st') : Seen m st' f o := by
  unfold Seen at *
  rw [hg.origins, hg.slotDerived]
  split at h
  · exact hg.escaped h
  · trivial
  · exact fun ho => hg.frames (h ho)

theorem scanOperand_grows (f : ℕ) (op : MirOpcode) (st : MirPointerEscape) (e : ℕ × ℕ) :
    Grows st (scanOperand m f op st e) := by
  unfold scanOperand
  split
  · exact .refl st
  · split
    · exact ⟨rfl, rfl, List.subset_cons_self _ _, fun _ h => h⟩
    · exact .refl st
    · split
      · exact ⟨rfl, rfl, fun _ h => h, List.subset_cons_self _ _⟩
      · exact .refl st

theorem scanOperand_seen {f : ℕ} {op : MirOpcode} {st : MirPointerEscape} {e : ℕ × ℕ}
    (h : mirPointerUseKind op e.1 = .escapes) : Seen m (scanOperand m f op st e) f e.2 := by
  have hg := scanOperand_grows (m := m) f op st e
  unfold Seen
  rw [hg.origins, hg.slotDerived]
  unfold scanOperand
  rw [if_neg (by simpa using h)]
  split
  · next hor =>
    simp only [hor]
    exact List.mem_cons_self
  · trivial
  · simp only
    intro ho
    rw [if_pos ho]
    exact List.mem_cons_self

theorem foldl_grows {α : Type} {g : MirPointerEscape → α → MirPointerEscape}
    (hg : ∀ st a, Grows st (g st a)) (l : List α) (st : MirPointerEscape) :
    Grows st (l.foldl g st) := by
  induction l generalizing st with
  | nil => exact .refl st
  | cons a l ih => exact (hg st a).trans (ih (g st a))

theorem foldl_seen {α : Type} {g : MirPointerEscape → α → MirPointerEscape}
    (hg : ∀ st a, Grows st (g st a)) {a : α} {f o : ℕ} (ha : ∀ st, Seen m (g st a) f o)
    {l : List α} (hl : a ∈ l) (st : MirPointerEscape) : Seen m (l.foldl g st) f o := by
  induction l generalizing st with
  | nil => simp at hl
  | cons b l ih =>
    rcases List.mem_cons.1 hl with rfl | hl
    · exact (ha st).grows (foldl_grows hg l (g st a))
    · exact ih hl (g st b)

theorem scanInst_grows (st : MirPointerEscape) (e : ℕ × ℕ) : Grows st (scanInst m st e) := by
  unfold scanInst
  split_ifs
  · exact .refl st
  · exact foldl_grows (scanOperand_grows e.1 _) _ st

/-- **Every escaping use of the module is accounted for.** -/
theorem scanEscapes_seen {st : MirPointerEscape} {f u k o : ℕ} (hu : (f, u) ∈ m.allInsts)
    (hphi : mirPointerRootClass (m.instOpcode u) ≠ .merged)
    (hk : (m.instOperands u)[k]? = some o)
    (huse : mirPointerUseKind (m.instOpcode u) k = .escapes) :
    Seen m (scanEscapes m st) f o := by
  refine foldl_seen scanInst_grows (a := (f, u)) (fun st => ?_) hu st
  unfold scanInst
  rw [if_neg hphi]
  have hlt : k < (m.instOperands u).length := (List.getElem?_eq_some_iff.1 hk).1
  refine foldl_seen (scanOperand_grows f _) (a := (k, o))
    (fun st => scanOperand_seen huse) ?_ st
  refine List.mem_of_getElem? (i := k) ?_
  rw [List.getElem?_zip_eq_some]
  exact ⟨List.getElem?_range hlt, hk⟩

end

/-- The origins solve their equations. -/
structure Solved (m : MirData) (st : MirPointerEscape) : Prop where
  root : ∀ id o, m.IsInst id → rootOrigin m id = some o → originAt m st.origins id = o
  derived : ∀ id, m.IsInst id → IsDerived m id →
    originAt m st.origins id = transfer m st.origins id
  slot : ∀ id, m.IsInst id → m.instOpcode id = .alloca → id ∈ st.slotDerived
  closed : ∀ id p, m.IsInst id → IsDerived m id → p ∈ sources m id → p ∈ st.slotDerived →
    id ∈ st.slotDerived
  inside : ∀ id ∈ st.slotDerived, m.IsInst id ∧
    (m.instOpcode id = .alloca ∨ IsDerived m id) ∧
    originAt m st.origins id ≠ .unresolved ∧ originAt m st.origins id ≠ .external
  uses : ∀ u k o, m.IsInst u → mirPointerRootClass (m.instOpcode u) ≠ .merged →
    (m.instOperands u)[k]? = some o → mirPointerUseKind (m.instOpcode u) k = .escapes →
    Seen m st (m.blockFunc (m.instBlock u)) o
  frames : ∀ u, m.IsInst u → mirOpcodeObservesFrame (m.instOpcode u) = true →
    m.blockFunc (m.instBlock u) ∈ st.allSlotsEscape

section

variable {m : MirData}

theorem rootOrigin_alloca {id : ℕ} (h : m.instOpcode id = .alloca) :
    rootOrigin m id = some (.slot id) := by
  simp [rootOrigin, h, mirPointerRootClass]

theorem le_transfer {o : List MirPointerOrigin} {id p : ℕ} (hp : p ∈ sources m id) :
    Le (originAt m o p) (transfer m o id) := by
  have hfold : ∀ (incs : List MirPhiIncoming) (a : MirPointerOrigin),
      Le a (incs.foldl (fun j inc => join j (originAt m o inc.value)) a) ∧
      ∀ inc ∈ incs, Le (originAt m o inc.value)
        (incs.foldl (fun j inc => join j (originAt m o inc.value)) a) := by
    intro incs
    induction incs with
    | nil => exact fun a => ⟨.refl a, by simp⟩
    | cons inc incs ih =>
      intro a
      obtain ⟨h1, h2⟩ := ih (join a (originAt m o inc.value))
      refine ⟨(le_join_left _ _).trans h1, fun inc' hinc' => ?_⟩
      rcases List.mem_cons.1 hinc' with rfl | hinc'
      · exact (le_join_right _ _).trans h1
      · exact h2 inc' hinc'
  unfold sources at hp
  unfold transfer
  cases hc : mirPointerRootClass (m.instOpcode id) <;> simp only [hc] at hp ⊢
  case baseDerived =>
    cases ho : m.instOperands id with
    | nil => simp [ho] at hp
    | cons base rest =>
      rw [ho] at hp
      obtain rfl : p = base := by simpa using hp
      exact .refl _
  case merged =>
    obtain ⟨inc, hinc, rfl⟩ := List.mem_map.1 hp
    exact (hfold _ _).2 inc (List.mem_filter.1 hinc).1
  all_goals simp at hp

theorem potential_le (edges : List (ℕ × ℕ)) (o : List MirPointerOrigin) :
    potential m edges o ≤ 2 * edges.length := by
  induction edges with
  | nil => simp [potential]
  | cons e edges ih =>
    simp only [potential, List.map_cons, List.sum_cons, List.length_cons] at ih ⊢
    omega

end

variable (m : Mir)

theorem mem_derived_iff {id : ℕ} :
    id ∈ (seedAndCollect m.toMirData).derived ↔ m.IsInst id ∧ IsDerived m.toMirData id := by
  rw [seedAndCollect_seeded.derived]
  simp only [List.mem_filter, List.mem_map, decide_eq_true_eq]
  constructor
  · rintro ⟨⟨⟨e, he, rfl⟩, -⟩, hd⟩
    exact ⟨((mem_allInsts m).1 he).1, hd⟩
  · rintro ⟨hi, hd⟩
    exact ⟨⟨⟨(m.blockFunc (m.instBlock id), id), (mem_allInsts m).2 ⟨hi, rfl⟩, rfl⟩, hi.2⟩, hd⟩

theorem mem_edges_iff {p id : ℕ} :
    (p, id) ∈ (seedAndCollect m.toMirData).propEdges ↔
      id ∈ (seedAndCollect m.toMirData).derived ∧ p ∈ sources m.toMirData id := by
  rw [seedAndCollect_seeded.edges, mem_derived_iff]
  simp only [List.mem_flatMap, List.mem_filter, List.mem_map, decide_eq_true_eq, Prod.mk.injEq]
  constructor
  · rintro ⟨e, ⟨he, -⟩, q, hq, rfl, rfl⟩
    refine ⟨⟨((mem_allInsts m).1 he).1, ?_⟩, hq⟩
    by_contra hnd
    rw [sources_root hnd] at hq
    simp at hq
  · rintro ⟨⟨hi, -⟩, hp⟩
    exact ⟨(m.blockFunc (m.instBlock id), id), ⟨(mem_allInsts m).2 ⟨hi, rfl⟩, hi.2⟩, p, hp, rfl,
      rfl⟩

theorem originAt_seed {id : ℕ} (hi : m.IsInst id) :
    originAt m.toMirData (seedAndCollect m.toMirData).origins id =
      (rootOrigin m.toMirData id).getD .unresolved := by
  rw [originAt, if_pos hi, seedAndCollect_seeded.origins, if_pos]
  exact ⟨List.mem_map.2 ⟨(m.blockFunc (m.instBlock id), id), (mem_allInsts m).2 ⟨hi, rfl⟩, rfl⟩,
    hi.2⟩

theorem iterating_seed :
    Iterating m.toMirData (seedAndCollect m.toMirData).origins
      (seedAndCollect m.toMirData).derived (seedAndCollect m.toMirData).derived.reverse
      (seedAndCollect m.toMirData).origins where
  length := seedAndCollect_seeded.length
  waiting id hid := List.mem_reverse.1 hid
  roots _ _ := rfl
  below id hid := by
    obtain ⟨hi, hd⟩ := (mem_derived_iff m).1 hid
    rw [originAt_seed m hi, show rootOrigin m.toMirData id = none from hd]
    exact .inl rfl
  solved id hid hn := absurd (List.mem_reverse.2 hid) hn

def solveWithCap (cap : ℕ) : Option (List MirPointerOrigin) :=
  solveLoop m.toMirData (seedAndCollect m.toMirData).propEdges cap
    (seedAndCollect m.toMirData).derived.reverse (seedAndCollect m.toMirData).origins

def stepBound : ℕ := m.instCount + 2 * (seedAndCollect m.toMirData).propEdges.length

/-- **The iteration ends within its bound**, in a solution that no larger cap changes. -/
theorem solveWithCap_isSome :
    ∃ o, (∀ cap, stepBound m ≤ cap → solveWithCap m cap = some o) ∧
      Iterating m.toMirData (seedAndCollect m.toMirData).origins
        (seedAndCollect m.toMirData).derived [] o := by
  suffices ∃ o, solveWithCap m (stepBound m) = some o ∧
      Iterating m.toMirData (seedAndCollect m.toMirData).origins
        (seedAndCollect m.toMirData).derived [] o by
    obtain ⟨o, ho, hit⟩ := this
    exact ⟨o, fun cap hcap => solveLoop_cap hcap ho, hit⟩
  refine solveLoop_spec (fun x hx => (mem_derived_iff m).1 hx) (fun p x => mem_edges_iff m)
    (iterating_seed m) ?_
  have hder : (seedAndCollect m.toMirData).derived.length ≤ m.instCount := by
    rw [seedAndCollect_seeded.derived]
    calc _ ≤ (m.allInsts.map Prod.snd).length :=
          (List.length_filter_le _ _).trans (List.length_filter_le _ _)
      _ = m.allInsts.length := List.length_map _
      _ ≤ m.instCount := length_allInsts_le m
  have hpot := potential_le (m := m.toMirData) (seedAndCollect m.toMirData).propEdges
    (seedAndCollect m.toMirData).origins
  rw [List.length_reverse, stepBound]
  omega

theorem stepBound_lt_stepCap : stepBound m < stepCap m.toMirData (seedAndCollect m.toMirData) := by
  unfold stepBound stepCap
  omega

/-- **The analysis never aborts, its result does not depend on the step cap, and it is
solved.** -/
theorem build_solved :
    ∃ st, build m.toMirData = some st ∧
      (∀ cap, stepBound m ≤ cap → solveWithCap m cap = some st.origins) ∧
      Solved m.toMirData st := by
  obtain ⟨r, hr, hmem⟩ := markSlotDerived_spec (m := m.toMirData) (seedAndCollect m.toMirData)
  obtain ⟨o, hcap, hit⟩ := solveWithCap_isSome m
  have ho := hcap _ (stepBound_lt_stepCap m).le
  unfold solveWithCap at ho
  set sd := seedAndCollect m.toMirData with hsd
  have hbuild : build m.toMirData =
      some (scanEscapes m.toMirData { sd with slotDerived := r, origins := o }) := by
    unfold build
    rw [← hsd, hr]
    simp only [Option.bind_eq_bind, Option.bind_some, solveOrigins]
    rw [show stepCap m.toMirData { sd with slotDerived := r } = stepCap m.toMirData sd from rfl, ho]
    rfl
  have hg : Grows { sd with slotDerived := r, origins := o }
      (scanEscapes m.toMirData { sd with slotDerived := r, origins := o }) :=
    foldl_grows scanInst_grows _ _
  refine ⟨_, hbuild, by rw [hg.origins]; exact hcap, ?_⟩
  have hroot : ∀ id o', m.IsInst id → rootOrigin m.toMirData id = some o' →
      originAt m.toMirData o id = o' := by
    intro id o' hi hroot
    rw [hit.roots id, originAt_seed m hi, hroot]
    · rfl
    · rw [mem_derived_iff]
      rintro ⟨-, hd⟩
      rw [IsDerived, hroot] at hd
      simp at hd
  have hderived : ∀ id, m.IsInst id → IsDerived m.toMirData id →
      originAt m.toMirData o id = transfer m.toMirData o id := by
    intro id hi hd
    exact hit.solved id ((mem_derived_iff m).2 ⟨hi, hd⟩) (by simp)
  have hslots : ∀ s, s ∈ sd.funcSlots.map Prod.snd ↔
      m.IsInst s ∧ m.instOpcode s = .alloca := by
    intro s
    rw [hsd, seedAndCollect_seeded.slots]
    simp only [List.mem_map, List.mem_filter, decide_eq_true_eq]
    constructor
    · rintro ⟨e, ⟨he, hal⟩, rfl⟩; exact ⟨((mem_allInsts m).1 he).1, hal⟩
    · rintro ⟨hi, hal⟩
      exact ⟨(m.blockFunc (m.instBlock s), s), ⟨(mem_allInsts m).2 ⟨hi, rfl⟩, hal⟩, rfl⟩
  refine ⟨?_, ?_, ?_, ?_, ?_, ?_, ?_⟩
  · rw [hg.origins]; exact hroot
  · rw [hg.origins]; exact hderived
  · rw [hg.slotDerived]
    intro id hi hal
    exact (hmem id).2 ⟨id, (hslots id).2 ⟨hi, hal⟩, hi.2, .refl⟩
  · rw [hg.slotDerived]
    intro id p hi hd hp hpr
    obtain ⟨s, hs, hlt, hsp⟩ := (hmem p).1 hpr
    refine (hmem id).2 ⟨s, hs, hlt, hsp.tail ?_⟩
    rw [Worklist.Edge, List.mem_filter, mem_propUsers, mem_edges_iff, mem_derived_iff]
    exact ⟨⟨⟨hi, hd⟩, hp⟩, by simpa using hi.2⟩
  · rw [hg.slotDerived, hg.origins]
    intro id hid
    obtain ⟨s, hs, -, hsx⟩ := (hmem id).1 hid
    -- along the derivation edges from a slot, the origin only rises above the slot
    induction hsx with
    | refl =>
      obtain ⟨hi, hal⟩ := (hslots s).1 hs
      have := hroot s _ hi (rootOrigin_alloca hal)
      refine ⟨hi, .inl hal, ?_⟩
      rw [show originAt m.toMirData o s = .slot s from this]
      simp
    | @tail v u hsv hvu ih =>
      rw [Worklist.Edge, List.mem_filter, mem_propUsers, mem_edges_iff, mem_derived_iff] at hvu
      obtain ⟨⟨⟨hi, hd⟩, hp⟩, -⟩ := hvu
      obtain ⟨-, -, h1, h2⟩ := ih ((hmem v).2 ⟨s, hs, ((hslots s).1 hs).1.2, hsv⟩)
      refine ⟨hi, .inr hd, ?_⟩
      have hle := le_transfer (o := o) hp
      rw [← hderived u hi hd] at hle
      change originAt m.toMirData o u ≠ _ ∧ originAt m.toMirData o u ≠ _
      change originAt m.toMirData o v ≠ _ at h1 h2
      rcases hle with h | h | h
      · exact absurd h h1
      · rw [h]; simp
      · rw [← h]; exact ⟨h1, h2⟩
  · intro u k o' hu hphi hk huse
    exact scanEscapes_seen ((mem_allInsts m).2 ⟨hu, rfl⟩) hphi hk huse
  · intro u hu hobs
    refine hg.frames ?_
    exact (seedAndCollect_seeded.frames _).2 ⟨u, (mem_allInsts m).2 ⟨hu, rfl⟩, hobs⟩

end DssPrime.MirPointerEscape
