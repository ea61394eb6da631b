import DssPrime.Lir.Liveness

/-!
# What the liveness sets are

`liveFixpoint_spec` : the fixpoint is reached, and a register is in the set of a block's beginning
or end exactly if a path from there reads it before writing it (`LivenessFunc.LiveAt`).
-/

namespace DssPrime

def LivenessInst.useIds (i : LivenessInst) : List ℕ := (forEachUse i).map (·.id)

def LivenessInst.defIds (i : LivenessInst) : List ℕ := (forEachDef i).map (·.1.id)

namespace LivenessFunc

variable (f : LivenessFunc)

/-- A path from before an instruction of a block, or from its end, reads a register before it is
written. -/
inductive LiveAt (v : ℕ) : ℕ → ℕ → Prop
  | use {b i : ℕ} {x : LivenessInst} :
    (f.insts b)[i]? = some x → v ∈ x.useIds → LiveAt v b i
  | pass {b i : ℕ} {x : LivenessInst} :
    (f.insts b)[i]? = some x → v ∉ x.defIds → LiveAt v b (i + 1) → LiveAt v b i
  | edge {b t : ℕ} : t ∈ f.next b → LiveAt v t 0 → LiveAt v b (f.insts b).length

/-- No instruction between two of a block writes a register. -/
def NoDef (v b i j : ℕ) : Prop :=
  ∀ k, i ≤ k → k < j → ∀ x, (f.insts b)[k]? = some x → v ∉ x.defIds

def ReadFirst (v b i : ℕ) : Prop :=
  ∃ k, i ≤ k ∧ (∃ x, (f.insts b)[k]? = some x ∧ v ∈ x.useIds) ∧ f.NoDef v b i k

variable {f}

theorem NoDef.liveAt {v b i j : ℕ} (hj : j ≤ (f.insts b).length) (hij : i ≤ j)
    (h : f.NoDef v b i j) (hl : f.LiveAt v b j) : f.LiveAt v b i := by
  induction j, hij using Nat.le_induction with
  | base => exact hl
  | succ j hij ih =>
    obtain ⟨x, hx⟩ : ∃ x, (f.insts b)[j]? = some x :=
      ⟨_, List.getElem?_eq_getElem (by omega)⟩
    refine ih (by omega) (fun k h1 h2 => h k h1 (by omega)) ?_
    exact .pass hx (h j hij (by omega) x hx) hl

theorem ReadFirst.liveAt {v b i : ℕ} (h : f.ReadFirst v b i) : f.LiveAt v b i := by
  obtain ⟨k, hik, ⟨x, hx, hv⟩, hno⟩ := h
  have hk := (List.getElem?_eq_some_iff.mp hx).1
  exact hno.liveAt (by omega) hik (.use hx hv)

theorem not_liveAt_of_def {v b i : ℕ} {x : LivenessInst} (hx : (f.insts b)[i]? = some x)
    (hu : v ∉ x.useIds) (hd : v ∈ x.defIds) : ¬f.LiveAt v b i := by
  intro h
  cases h with
  | use hy hv =>
    obtain rfl := Option.some.inj (hx.symm.trans hy)
    exact hu hv
  | pass hy hno _ =>
    obtain rfl := Option.some.inj (hx.symm.trans hy)
    exact hno hd
  | edge _ _ => simp at hx

end LivenessFunc

theorem mem_insertVReg {s : Finset ℕ} {id v : ℕ} :
    v ∈ insertVReg s id ↔ v ∈ s ∨ v ≠ 0 ∧ v = id := by
  rw [insertVReg]
  split_ifs with h
  · subst h
    tauto
  · rw [Finset.mem_insert]
    constructor
    · rintro (rfl | hv)
      · exact .inr ⟨h, rfl⟩
      · exact .inl hv
    · rintro (hv | ⟨-, rfl⟩)
      · exact .inr hv
      · exact .inl rfl

theorem mem_foldl_defs {v : ℕ} (ds : List (LirReg × Bool)) (s : Finset ℕ) :
    v ∈ ds.foldl (fun defs d => insertVReg defs d.1.id) s ↔
      v ∈ s ∨ v ≠ 0 ∧ v ∈ ds.map (·.1.id) := by
  induction ds generalizing s with
  | nil => simp
  | cons d ds ih =>
    rw [List.foldl_cons, ih, mem_insertVReg, List.map_cons, List.mem_cons]
    tauto

theorem mem_foldl_uses {v : ℕ} (killed : Finset ℕ) (us : List LirReg) (s : Finset ℕ) :
    v ∈ us.foldl (fun use r => if r.id ∈ killed then use else insertVReg use r.id) s ↔
      v ∈ s ∨ v ≠ 0 ∧ v ∈ us.map (·.id) ∧ v ∉ killed := by
  induction us generalizing s with
  | nil => simp
  | cons u us ih =>
    rw [List.foldl_cons, ih, List.map_cons, List.mem_cons]
    split_ifs with h
    · constructor
      · tauto
      · rintro (hv | ⟨h0, rfl | hv, hk⟩)
        · exact .inl hv
        · exact absurd h hk
        · exact .inr ⟨h0, hv, hk⟩
    · rw [mem_insertVReg]
      constructor
      · rintro ((hv | ⟨h0, rfl⟩) | hv)
        · exact .inl hv
        · exact .inr ⟨h0, .inl rfl, h⟩
        · exact .inr ⟨hv.1, .inr hv.2.1, hv.2.2⟩
      · tauto

theorem mem_localSets {v : ℕ} (insts : List LivenessInst) :
    (v ∈ (localSets insts).2 ↔ v ≠ 0 ∧ ∃ x ∈ insts, v ∈ x.defIds) ∧
      (v ∈ (localSets insts).1 ↔ v ≠ 0 ∧ ∃ l x r, insts = l ++ x :: r ∧ v ∈ x.useIds ∧
        ∀ y ∈ l, v ∉ y.defIds) := by
  induction insts using List.reverseRecOn with
  | nil => simp [localSets]
  | append_singleton l x ih =>
    obtain ⟨ihd, ihu⟩ := ih
    have hstep : localSets (l ++ [x]) = localStep (localSets l) x := by
      rw [localSets, List.foldl_append]
      rfl
    rw [hstep]
    constructor
    · rw [localStep, mem_foldl_defs, ihd]
      simp only [List.mem_append, List.mem_singleton, LivenessInst.defIds]
      constructor
      · rintro (⟨h0, y, hy, hv⟩ | ⟨h0, hv⟩)
        · exact ⟨h0, y, .inl hy, hv⟩
        · exact ⟨h0, x, .inr rfl, hv⟩
      · rintro ⟨h0, y, hy | rfl, hv⟩
        · exact .inl ⟨h0, y, hy, hv⟩
        · exact .inr ⟨h0, hv⟩
    · rw [localStep, mem_foldl_uses, ihu, ihd]
      constructor
      · rintro (⟨h0, l₁, y, r, rfl, hv, hno⟩ | ⟨h0, hv, hno⟩)
        · exact ⟨h0, l₁, y, r ++ [x], by simp, hv, hno⟩
        · exact ⟨h0, l, x, [], rfl, hv, fun y hy hd => hno ⟨h0, y, hy, hd⟩⟩
      · rintro ⟨h0, l₁, y, r, heq, hv, hno⟩
        rcases List.eq_nil_or_concat' r with rfl | ⟨r, z, rfl⟩
        · obtain ⟨rfl, hxy⟩ := List.append_inj' heq rfl
          obtain rfl := (List.cons.inj hxy).1
          refine .inr ⟨h0, hv, ?_⟩
          rintro ⟨-, z, hz, hd⟩
          exact hno z hz hd
        · rw [show l₁ ++ y :: (r ++ [z]) = (l₁ ++ y :: r) ++ [z] by simp] at heq
          exact .inl ⟨h0, l₁, y, r, (List.append_inj' heq rfl).1, hv, hno⟩

section Func

variable {f : LivenessFunc}

theorem mem_use_iff {v b : ℕ} :
    v ∈ (localSets (f.insts b)).1 ↔ v ≠ 0 ∧ f.ReadFirst v b 0 := by
  rw [(mem_localSets _).2]
  refine and_congr_right fun _ => ⟨?_, ?_⟩
  · rintro ⟨l, x, r, heq, hv, hno⟩
    refine ⟨l.length, Nat.zero_le _, ⟨x, by simp [heq], hv⟩, fun k _ hk y hy => ?_⟩
    rw [heq, List.getElem?_append_left hk] at hy
    exact hno y (List.mem_of_getElem? hy)
  · rintro ⟨k, -, ⟨x, hx, hv⟩, hno⟩
    obtain ⟨hk, hx⟩ := List.getElem?_eq_some_iff.mp hx
    refine ⟨(f.insts b).take k, x, (f.insts b).drop (k + 1), ?_, hv, fun y hy => ?_⟩
    · rw [← hx, List.cons_getElem_drop_succ, List.take_append_drop]
    · obtain ⟨j, hj, rfl⟩ := List.mem_take_iff_getElem.mp hy
      exact hno j (Nat.zero_le _) (by omega) _ (List.getElem?_eq_getElem (by omega))

theorem not_mem_def_iff {v b : ℕ} (hv : v ≠ 0) :
    v ∉ (localSets (f.insts b)).2 ↔ f.NoDef v b 0 (f.insts b).length := by
  rw [(mem_localSets _).1]
  constructor
  · intro h k _ _ x hx hd
    exact h ⟨hv, x, List.mem_of_getElem? hx, hd⟩
  · rintro h ⟨-, x, hx, hd⟩
    obtain ⟨k, hk, rfl⟩ := List.mem_iff_getElem.mp hx
    exact h k (Nat.zero_le _) hk _ (List.getElem?_eq_getElem hk) hd

theorem mem_transfer {v b : ℕ} {out : Finset ℕ} (hv : v ≠ 0) :
    v ∈ transfer f b out ↔
      f.ReadFirst v b 0 ∨ v ∈ out ∧ f.NoDef v b 0 (f.insts b).length := by
  rw [transfer, Finset.mem_union, Finset.mem_sdiff, mem_use_iff, not_mem_def_iff hv]
  tauto

theorem mem_joinOut {v b : ℕ} {s : LiveSets} :
    v ∈ joinOut f s b ↔ v ∈ s.liveOut b ∨ ∃ t ∈ f.next b, v ∈ s.liveIn t := by
  have key : ∀ (ts : List ℕ) (out : Finset ℕ),
      v ∈ ts.foldl (fun out t => if t ∈ f.blocks then out ∪ s.liveIn t else out) out ↔
        v ∈ out ∨ ∃ t ∈ ts, t ∈ f.blocks ∧ v ∈ s.liveIn t := by
    intro ts
    induction ts with
    | nil => simp
    | cons t ts ih =>
      intro out
      rw [List.foldl_cons, ih]
      split_ifs with h
      · rw [Finset.mem_union]
        simp only [List.mem_cons, exists_eq_or_imp, h, true_and]
        tauto
      · simp only [List.mem_cons, exists_eq_or_imp, h, false_and, false_or]
  rw [joinOut, key]
  simp only [LivenessFunc.next, List.mem_filter, decide_eq_true_eq, and_assoc]

def readRegs (f : LivenessFunc) : Finset ℕ :=
  f.blocks.toFinset.biUnion fun b => (localSets (f.insts b)).1

/-- What holds of the sets in every round: what is in them is live, and a beginning's set has not
overtaken its block's end. -/
structure Flowing (f : LivenessFunc) (s : LiveSets) : Prop where
  inLive : ∀ b, ∀ v ∈ s.liveIn b, v ≠ 0 ∧ f.LiveAt v b 0
  outLive : ∀ b, ∀ v ∈ s.liveOut b, v ≠ 0 ∧ f.LiveAt v b (f.insts b).length
  inRead : ∀ b, s.liveIn b ⊆ readRegs f
  outRead : ∀ b, s.liveOut b ⊆ readRegs f
  behind : ∀ b, s.liveIn b ⊆ transfer f b (s.liveOut b)

def LiveSets.size (f : LivenessFunc) (s : LiveSets) : ℕ :=
  ∑ b ∈ f.blocks.toFinset, ((s.liveIn b).card + (s.liveOut b).card)

theorem transfer_mono {b : ℕ} {out out' : Finset ℕ} (h : out ⊆ out') :
    transfer f b out ⊆ transfer f b out' :=
  Finset.union_subset_union (Finset.sdiff_subset_sdiff h subset_rfl) subset_rfl

theorem subset_joinOut (s : LiveSets) (b : ℕ) : s.liveOut b ⊆ joinOut f s b :=
  fun _ hv => mem_joinOut.mpr (.inl hv)

theorem Flowing.step {s : LiveSets} (h : Flowing f s) (c : Bool) {b : ℕ} (hb : b ∈ f.blocks) :
    Flowing f (liveStep f (s, c) b).1 := by
  have hout : ∀ v ∈ joinOut f s b, v ≠ 0 ∧ f.LiveAt v b (f.insts b).length := by
    intro v hv
    rcases mem_joinOut.mp hv with hv | ⟨t, ht, hv⟩
    · exact h.outLive b v hv
    · exact ⟨(h.inLive t v hv).1, .edge ht (h.inLive t v hv).2⟩
  have houtRead : joinOut f s b ⊆ readRegs f := by
    intro v hv
    rcases mem_joinOut.mp hv with hv | ⟨t, ht, hv⟩
    · exact h.outRead b hv
    · exact h.inRead t hv
  refine ⟨fun a v hv => ?_, fun a v hv => ?_, fun a => ?_, fun a => ?_, fun a => ?_⟩ <;>
    simp only [liveStep] at * <;> rcases eq_or_ne a b with rfl | hne
  · rw [Function.update_self] at hv
    have h0 : v ≠ 0 := by
      rcases Finset.mem_union.mp hv with hv | hv
      · exact (hout v (Finset.mem_sdiff.mp hv).1).1
      · exact (mem_use_iff.mp hv).1
    refine ⟨h0, ?_⟩
    rcases (mem_transfer h0).mp hv with hr | ⟨ho, hno⟩
    · exact hr.liveAt
    · exact hno.liveAt le_rfl (Nat.zero_le _) (hout v ho).2
  · rw [Function.update_of_ne hne] at hv
    exact h.inLive a v hv
  · rw [Function.update_self] at hv
    exact hout v hv
  · rw [Function.update_of_ne hne] at hv
    exact h.outLive a v hv
  · rw [Function.update_self]
    refine Finset.union_subset (Finset.sdiff_subset.trans houtRead) ?_
    exact Finset.subset_biUnion_of_mem (fun b => (localSets (f.insts b)).1)
      (List.mem_toFinset.mpr hb)
  · rw [Function.update_of_ne hne]
    exact h.inRead a
  · rw [Function.update_self]
    exact houtRead
  · rw [Function.update_of_ne hne]
    exact h.outRead a
  · rw [Function.update_self, Function.update_self]
  · rw [Function.update_of_ne hne, Function.update_of_ne hne]
    exact h.behind a

theorem Flowing.step_size {s : LiveSets} (h : Flowing f s) {b : ℕ} (hb : b ∈ f.blocks) :
    s.size f ≤ (liveStep f (s, false) b).1.size f ∧
      ((liveStep f (s, false) b).2 = true → s.size f < (liveStep f (s, false) b).1.size f) := by
  have hin : s.liveIn b ⊆ transfer f b (joinOut f s b) :=
    (h.behind b).trans (transfer_mono (subset_joinOut s b))
  have hle : ∀ a ∈ f.blocks.toFinset, (s.liveIn a).card + (s.liveOut a).card ≤
      ((liveStep f (s, false) b).1.liveIn a).card +
        ((liveStep f (s, false) b).1.liveOut a).card := by
    intro a _
    simp only [liveStep]
    rcases eq_or_ne a b with rfl | hne
    · rw [Function.update_self, Function.update_self]
      exact Nat.add_le_add (Finset.card_le_card hin) (Finset.card_le_card (subset_joinOut s a))
    · rw [Function.update_of_ne hne, Function.update_of_ne hne]
  refine ⟨Finset.sum_le_sum hle, fun hc => Finset.sum_lt_sum hle ⟨b, List.mem_toFinset.mpr hb, ?_⟩⟩
  simp only [liveStep, Bool.false_or, Bool.or_eq_true, decide_eq_true_eq] at hc ⊢
  rw [Function.update_self, Function.update_self]
  rcases hc with hc | hc
  · exact Nat.add_lt_add_of_le_of_lt (Finset.card_le_card hin)
      (Finset.card_lt_card ((subset_joinOut s b).ssubset_of_ne (Ne.symm hc)))
  · exact Nat.add_lt_add_of_lt_of_le (Finset.card_lt_card (hin.ssubset_of_ne (Ne.symm hc)))
      (Finset.card_le_card (subset_joinOut s b))

theorem liveStep_flag (s : LiveSets) (c : Bool) (b : ℕ) :
    liveStep f (s, c) b = ((liveStep f (s, false) b).1, c || (liveStep f (s, false) b).2) := by
  simp [liveStep, Bool.or_assoc]

theorem foldl_liveStep (bs : List ℕ) (hbs : ∀ b ∈ bs, b ∈ f.blocks) {s : LiveSets} {c : Bool}
    (h : Flowing f s) {r : LiveSets × Bool} (hr : bs.foldl (liveStep f) (s, c) = r) :
    Flowing f r.1 ∧ s.size f ≤ r.1.size f ∧
      (r.2 = true → c = true ∨ s.size f < r.1.size f) ∧
      (r.2 = false → c = false ∧ r.1 = s ∧
        ∀ b ∈ bs, joinOut f s b = s.liveOut b ∧ transfer f b (s.liveOut b) = s.liveIn b) := by
  induction bs generalizing s c with
  | nil =>
    subst hr
    exact ⟨h, le_rfl, .inl, fun hc => ⟨hc, rfl, by simp⟩⟩
  | cons b bs ih =>
    have hb := hbs b List.mem_cons_self
    obtain ⟨hle, hlt⟩ := h.step_size hb
    rw [List.foldl_cons, liveStep_flag] at hr
    obtain ⟨ih1, ih2, ih3, ih4⟩ := ih (fun a ha => hbs a (List.mem_cons_of_mem _ ha))
      (h.step false hb) hr
    refine ⟨ih1, hle.trans ih2, fun hc => ?_, fun hc => ?_⟩
    · rcases ih3 hc with hc | hlt'
      · rcases Bool.or_eq_true_iff.mp hc with hc | hc
        · exact .inl hc
        · exact .inr ((hlt hc).trans_le ih2)
      · exact .inr (hle.trans_lt hlt')
    · obtain ⟨hc, heq, hall⟩ := ih4 hc
      obtain ⟨hc, hch⟩ := Bool.or_eq_false_iff.mp hc
      have hfix : joinOut f s b = s.liveOut b ∧ transfer f b (joinOut f s b) = s.liveIn b := by
        simpa [liveStep] using hch
      have hs : (liveStep f (s, false) b).1 = s := by
        simp only [liveStep]
        rw [hfix.2, hfix.1, Function.update_eq_self, Function.update_eq_self]
      rw [hs] at heq hall
      refine ⟨hc, heq, fun a ha => ?_⟩
      rcases List.mem_cons.mp ha with rfl | ha
      · exact ⟨hfix.1, by rw [← hfix.2, hfix.1]⟩
      · exact hall a ha

theorem flowing_start : Flowing f ⟨fun _ => ∅, fun _ => ∅⟩ := by
  constructor <;> simp

theorem Flowing.size_le {s : LiveSets} (h : Flowing f s) :
    s.size f ≤
      2 * f.blocks.length * (f.blocks.map fun b => (localSets (f.insts b)).1.card).sum := by
  have hcard : (readRegs f).card ≤ (f.blocks.map fun b => (localSets (f.insts b)).1.card).sum := by
    refine Finset.card_biUnion_le.trans (le_of_eq ?_)
    exact List.sum_toFinset _ f.nodup
  calc s.size f ≤ ∑ _b ∈ f.blocks.toFinset, 2 * (readRegs f).card := by
        refine Finset.sum_le_sum fun b _ => ?_
        have h1 := Finset.card_le_card (h.inRead b)
        have h2 := Finset.card_le_card (h.outRead b)
        omega
    _ = f.blocks.length * (2 * (readRegs f).card) := by
        rw [Finset.sum_const, List.toFinset_card_of_nodup f.nodup, smul_eq_mul]
    _ = 2 * f.blocks.length * (readRegs f).card := by ring
    _ ≤ _ := Nat.mul_le_mul_left _ hcard

theorem LivenessFunc.LiveAt.reads_or_out {s : LiveSets}
    (hfix : ∀ b ∈ f.blocks, joinOut f s b = s.liveOut b ∧
      transfer f b (s.liveOut b) = s.liveIn b) {v b i : ℕ} (hv : v ≠ 0) (h : f.LiveAt v b i)
    (hb : b ∈ f.blocks) :
    f.ReadFirst v b i ∨ v ∈ s.liveOut b ∧ f.NoDef v b i (f.insts b).length := by
  induction h with
  | @use b i x hx hu => exact .inl ⟨i, le_rfl, ⟨x, hx, hu⟩, fun k _ _ => by omega⟩
  | @pass b i x hx hd _ ih =>
    have hcons : ∀ j, f.NoDef v b (i + 1) j → f.NoDef v b i j := by
      intro j hno k hik hkj y hy
      rcases Nat.eq_or_lt_of_le hik with rfl | hik
      · obtain rfl := Option.some.inj (hx.symm.trans hy)
        exact hd
      · exact hno k hik hkj y hy
    rcases ih hb with ⟨k, hik, hu, hno⟩ | ⟨ho, hno⟩
    · exact .inl ⟨k, by omega, hu, hcons k hno⟩
    · exact .inr ⟨ho, hcons _ hno⟩
  | @edge b t ht _ ih =>
    have htb : t ∈ f.blocks := by simpa using (List.mem_filter.mp ht).2
    refine .inr ⟨?_, fun k _ _ => by omega⟩
    rw [← (hfix b hb).1]
    refine mem_joinOut.mpr (.inr ⟨t, ht, ?_⟩)
    rw [← (hfix t htb).2, mem_transfer hv]
    exact ih htb

theorem liveFixpoint_spec (order : List ℕ) (horder : ∀ b, b ∈ order ↔ b ∈ f.blocks) :
    ∃ s, liveFixpoint f order = some s ∧ Flowing f s ∧
      ∀ b ∈ f.blocks, joinOut f s b = s.liveOut b ∧ transfer f b (s.liveOut b) = s.liveIn b := by
  have hmem : ∀ b ∈ order.reverse, b ∈ f.blocks := fun b hb => by simpa [horder] using hb
  have hround : ∀ s, Flowing f s → _ := fun s hs =>
    foldl_liveStep order.reverse hmem (c := false) hs (r := liveRound f order s) rfl
  have hI : ∀ s, Flowing f s → Flowing f (liveRound f order s).1 := fun s hs => (hround s hs).1
  obtain ⟨s, hs⟩ : ∃ s, liveFixpoint f order = some s :=
    RoundRobin.run_isSome hI (μ := LiveSets.size f)
      (fun s hs hc => ((hround s hs).2.2.1 hc).resolve_left (by simp)) (fun s hs => hs.size_le)
      flowing_start (by omega)
  obtain ⟨t, ht, hc, rfl⟩ := RoundRobin.run_spec hI flowing_start hs
  obtain ⟨-, heq, hall⟩ := (hround t ht).2.2.2 hc
  refine ⟨_, hs, (hround t ht).1, fun b hb => ?_⟩
  rw [heq]
  exact hall b (by simpa [horder] using hb)

end Func

end DssPrime
