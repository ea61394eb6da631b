import DssPrime.Lir.RegAllocSound

/-!
# The allocation auditor is complete

`findAllocationConflict` sorts the placed ranges by place and start and compares neighbours only.
`Placed.clash_next` is why this is enough: between two ranges of one place that overlap, in the
order of the sort, the next range of the place overlaps the first of them as well, since a range is
not empty.
-/

namespace DssPrime

def Clash (assignments : ℕ → Option LirLocation) (r s : LirLiveRange) : Prop :=
  r.vreg ≠ 0 ∧ s.vreg ≠ 0 ∧
    (∃ l, assignments r.vreg = some l ∧ assignments s.vreg = some l) ∧
    lirRangesInterfere r s = true

def Placed.Clash (p q : Placed) : Prop :=
  p.isSpill = q.isSpill ∧ p.resource = q.resource ∧ lirRangesInterfere p.range q.range = true

namespace Placed

theorem Clash.symm {p q : Placed} (h : p.Clash q) : q.Clash p := by
  obtain ⟨h1, h2, h3⟩ := h
  refine ⟨h1.symm, h2.symm, ?_⟩
  rw [CoalescePartition.interfere_comm]
  exact h3

theorem le_iff {p q : Placed} : p.le q = true ↔
    p.isSpill < q.isSpill ∨ p.isSpill = q.isSpill ∧ (p.resource < q.resource ∨
      p.resource = q.resource ∧ (p.range.start < q.range.start ∨
        p.range.start = q.range.start ∧ p.range.vreg ≤ q.range.vreg)) := by
  unfold Placed.le
  simp only [decide_eq_true_eq, Prod.Lex.toLex_le_toLex]

theorem clash_next {p q r : Placed} (hq : q.range.start < q.range.end) (hpq : p.le q = true)
    (hqr : q.le r = true) (h : p.Clash r) : p.Clash q := by
  obtain ⟨hspill, hres, hover⟩ := h
  have hover' : p.range.start < r.range.end ∧ r.range.start < p.range.end := by
    simpa [lirRangesInterfere] using hover
  rw [le_iff] at hpq hqr
  have hkind : p.isSpill = q.isSpill := by
    rcases hpq with hlt | ⟨heq, -⟩
    · rcases hqr with hlt' | ⟨heq', -⟩
      · exact absurd (hspill ▸ hlt.trans hlt') (lt_irrefl _)
      · exact absurd (hspill ▸ heq' ▸ hlt) (lt_irrefl _)
    · exact heq
  have hplace : p.resource = q.resource := by
    rcases hpq with hlt | ⟨-, hpq⟩
    · exact absurd (hkind ▸ hlt) (lt_irrefl _)
    · rcases hqr with hlt | ⟨-, hqr⟩
      · exact absurd (hspill ▸ hkind ▸ hlt) (lt_irrefl _)
      · omega
  have hstart : p.range.start ≤ q.range.start ∧ q.range.start ≤ r.range.start := by
    rcases hpq with hlt | ⟨-, hpq⟩
    · exact absurd (hkind ▸ hlt) (lt_irrefl _)
    · rcases hqr with hlt | ⟨-, hqr⟩
      · exact absurd (hspill ▸ hkind ▸ hlt) (lt_irrefl _)
      · omega
  refine ⟨hkind, hplace, ?_⟩
  simp only [lirRangesInterfere, Bool.and_eq_true, decide_eq_true_eq]
  omega

end Placed

theorem pairwise_of_neighbourConflict_eq_none {ps : List Placed}
    (hsorted : ps.Pairwise fun p q => p.le q = true)
    (hproper : ∀ p ∈ ps, p.range.start < p.range.end) (h : neighbourConflict ps = none) :
    ps.Pairwise fun p q => ¬ p.Clash q := by
  induction ps with
  | nil => exact .nil
  | cons p ps ih =>
    obtain ⟨hp, hps⟩ := List.pairwise_cons.1 hsorted
    cases ps with
    | nil => exact List.pairwise_singleton _ _
    | cons q ps =>
      unfold neighbourConflict at h
      split_ifs at h with hclash
      · have hrest := ih hps (fun x hx => hproper x (List.mem_cons_of_mem _ hx)) h
        refine List.pairwise_cons.2 ⟨fun r hr hbad => hclash ?_, hrest⟩
        rcases List.mem_cons.1 hr with rfl | hr
        · exact hbad
        · -- the neighbour lies between the two
          exact Placed.clash_next (hproper q (by simp)) (hp q (by simp))
            ((List.pairwise_cons.1 hps).1 r hr) hbad

theorem clash_of_neighbourConflict {ps : List Placed} {r s : LirLiveRange}
    (h : neighbourConflict ps = some (r, s)) :
    ∃ p q, [p, q].Sublist ps ∧ p.Clash q ∧ p.range = r ∧ q.range = s := by
  induction ps with
  | nil => cases h
  | cons p ps ih =>
    cases ps with
    | nil => cases h
    | cons q ps =>
      unfold neighbourConflict at h
      split_ifs at h with hclash
      · obtain ⟨rfl, rfl⟩ := Prod.mk.inj (Option.some.inj h)
        exact ⟨p, q, List.Sublist.cons_cons _ (List.Sublist.cons_cons _ (List.nil_sublist _)),
          hclash,
          rfl, rfl⟩
      · obtain ⟨p', q', hsub, hrest⟩ := ih h
        exact ⟨p', q', hsub.cons _, hrest⟩

theorem clash_iff_placed {a : ℕ → Option LirLocation} {r s : LirLiveRange} :
    Clash a r s ↔ ∃ p q, placedOf a r = some p ∧ placedOf a s = some q ∧ p.Clash q := by
  constructor
  · rintro ⟨hr, hs, ⟨l, hl, hl'⟩, hover⟩
    unfold placedOf
    rw [if_neg hr, if_neg hs, hl, hl']
    cases l with
    | phys ord cls => exact ⟨_, _, rfl, rfl, rfl, rfl, hover⟩
    | spill slot => exact ⟨_, _, rfl, rfl, rfl, rfl, hover⟩
  · rintro ⟨p, q, hp, hq, hspill, hres, hover⟩
    rw [(placedOf_cases hp).1, (placedOf_cases hq).1] at hover
    have hne : ∀ {x : LirLiveRange} {y : Placed}, placedOf a x = some y → x.vreg ≠ 0 := by
      intro x y hxy hzero
      unfold placedOf at hxy
      rw [if_pos hzero] at hxy
      cases hxy
    exact ⟨hne hp, hne hq, placedOf_resource hp hq hspill hres, hover⟩

theorem range_of_placedOf {a : ℕ → Option LirLocation} (ranges : List LirLiveRange) :
    ((ranges.filterMap (placedOf a)).map Placed.range).Sublist ranges := by
  induction ranges with
  | nil => exact List.Sublist.refl []
  | cons r ranges ih =>
    cases hp : placedOf a r with
    | none =>
      rw [List.filterMap_cons_none hp]
      exact ih.cons r
    | some p =>
      rw [List.filterMap_cons_some hp, List.map_cons, (placedOf_cases hp).1]
      exact ih.cons_cons r

theorem placedOf_range {a : ℕ → Option LirLocation} {ranges : List LirLiveRange} {p : Placed}
    (h : p ∈ ranges.filterMap (placedOf a)) : p.range ∈ ranges ∧ placedOf a p.range = some p := by
  obtain ⟨r, hr, hp⟩ := List.mem_filterMap.1 h
  rw [(placedOf_cases hp).1]
  exact ⟨hr, hp⟩

theorem Placed.le_trans {p q r : Placed} (h1 : p.le q = true) (h2 : q.le r = true) :
    p.le r = true := by
  unfold Placed.le at *
  exact decide_eq_true ((of_decide_eq_true h1).trans (of_decide_eq_true h2))

theorem Placed.le_total (p q : Placed) : (p.le q || q.le p) = true := by
  unfold Placed.le
  rw [Bool.or_eq_true, decide_eq_true_eq, decide_eq_true_eq]
  exact Std.Total.total _ _

/-- The audit of neighbours finds a clash if there is one, and reports none that is not. -/
theorem findAllocationConflict_iff (ranges : List LirLiveRange)
    (assignments : ℕ → Option LirLocation) (hproper : ∀ r ∈ ranges, r.start < r.end) :
    ((findAllocationConflict ranges assignments).isSome = true ↔
      ∃ r s, [r, s].Subperm ranges ∧ Clash assignments r s) ∧
    ∀ r s, findAllocationConflict ranges assignments = some (r, s) →
      [r, s].Subperm ranges ∧ Clash assignments r s := by
  have hperm := List.mergeSort_perm (ranges.filterMap (placedOf assignments)) Placed.le
  have hreport : ∀ r s, findAllocationConflict ranges assignments = some (r, s) →
      [r, s].Subperm ranges ∧ Clash assignments r s := by
    intro r s h
    obtain ⟨p, q, hsub, hclash, rfl, rfl⟩ := clash_of_neighbourConflict h
    have hplaced : [p, q].Subperm (ranges.filterMap (placedOf assignments)) :=
      hsub.subperm.trans hperm.subperm
    have hranges : [p.range, q.range].Subperm ranges := by
      obtain ⟨l, hl, hsubl⟩ := hplaced
      exact ⟨l.map Placed.range, hl.map _, (hsubl.map _).trans (range_of_placedOf ranges)⟩
    refine ⟨hranges, ?_⟩
    exact clash_iff_placed.2 ⟨p, q, (placedOf_range (hplaced.subset (by simp))).2,
      (placedOf_range (hplaced.subset (by simp))).2, hclash⟩
  refine ⟨⟨fun h => ?_, ?_⟩, hreport⟩
  · obtain ⟨⟨r, s⟩, hrs⟩ := Option.isSome_iff_exists.1 h
    exact ⟨r, s, hreport r s hrs⟩
  · rintro ⟨r, s, hsub, hclash⟩
    by_contra hnone
    have hnone : findAllocationConflict ranges assignments = none := by simpa using hnone
    have hpair := pairwise_of_neighbourConflict_eq_none
      (List.pairwise_mergeSort (fun p q r => @Placed.le_trans p q r) Placed.le_total _)
      (fun p hp => hproper _ (placedOf_range (hperm.subset hp)).1) hnone
    -- the two ranges are placed, and their places clash in the sorted list
    obtain ⟨p, q, hp, hq, hpq⟩ := clash_iff_placed.1 hclash
    have hsymm : ∀ {x y : Placed}, ¬ x.Clash y → ¬ y.Clash x := fun h h' => h h'.symm
    have hplaced := (hperm.pairwise_iff hsymm).1 hpair
    obtain ⟨l, hl, hsubl⟩ := hsub
    have hl' : (l.filterMap (placedOf assignments)).Pairwise fun x y => ¬ x.Clash y :=
      hplaced.sublist (hsubl.filterMap _)
    have hrs := ((hl.filterMap (placedOf assignments)).pairwise_iff hsymm).1 hl'
    rw [List.filterMap_cons_some hp, List.filterMap_cons_some hq] at hrs
    exact (List.pairwise_cons.1 hrs).1 q (by simp) hpq

theorem findAllocationConflict_iff_oneRegister :
    (findAllocationConflict [⟨1, .gpr, 0, 10⟩, ⟨2, .gpr, 6, 8⟩, ⟨3, .gpr, 2, 4⟩]
      fun v => if v = 0 then none else some (.phys 0 .gpr)).isSome = true := by
  refine (findAllocationConflict_iff _ _ (by decide)).1.2 ⟨⟨1, .gpr, 0, 10⟩, ⟨2, .gpr, 6, 8⟩,
    ?_, ?_⟩
  · exact ⟨[⟨1, .gpr, 0, 10⟩, ⟨2, .gpr, 6, 8⟩], List.Perm.refl _, by decide⟩
  · exact ⟨by decide, by decide, ⟨.phys 0 .gpr, rfl, rfl⟩, by decide⟩

end DssPrime
