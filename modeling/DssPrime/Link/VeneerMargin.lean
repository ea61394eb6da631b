import DssPrime.Link.VeneerLayout

/-!
# One pass of veneer planning is exact

Only a site farther than half its reach can receive a veneer, so the veneers of a plan add at most
`room` bytes. Every decision is taken against the windows narrowed by that margin, and inserting the
veneers changes no distance by more than the margin; so no insertion invalidates a decision.
-/

namespace DssPrime.VeneerLayout

variable {L : VeneerLayout} {m : ℕ}

attribute [local irreducible] int64

def siteDistance (L : VeneerLayout) (s : VeneerLayoutSite) : ℤ :=
  L.targetPos (L.target s.target) - L.sitePos s

def Covers (r : RelocReach) (m : ℕ) (d : ℤ) : Prop := r.minDelta + m ≤ d ∧ d ≤ r.maxDelta - m

/-- A distance that a window covers with a margin to spare, except on an unbounded side. -/
def CoversBounded (r : RelocReach) (m : ℕ) (d : ℤ) : Prop :=
  (r.minDelta = int64Min ∨ r.minDelta + m ≤ d) ∧ (r.maxDelta = int64Max ∨ d ≤ r.maxDelta - m)

/-- The decision for a site: its target is in reach, or the boundary of its veneer, which was
planned for its target. -/
def SiteDecided (L : VeneerLayout) (m : ℕ) (vs : List PlannedVeneer) (s : VeneerLayoutSite) :
    Option ℕ → Prop
  | none => Covers (L.reach s.reach) m (L.siteDistance s)
  | some i => ∃ v, vs[i]? = some v ∧ v.target = s.target ∧
      Covers (L.reach s.reach) m (L.bytesBefore v.boundary - L.sitePos s)

def VeneerDecided (L : VeneerLayout) (m : ℕ) (v : PlannedVeneer) : Prop :=
  v.boundary ≤ L.n ∧ v.target < L.targets.length ∧ v.body < L.bodies.length ∧
    CoversBounded (L.body v.body).reach m
      (L.targetPos (L.target v.target) - L.bytesBefore v.boundary)

/-- A plan all of whose decisions keep the margin, which covers its veneers. -/
structure Decided (L : VeneerLayout) (m : ℕ) (plan : VeneerPlan) : Prop where
  sites : ∀ si s, L.sites[si]? = some s →
    SiteDecided L m plan.veneers s (plan.siteVeneer.getD si none)
  veneers : ∀ v ∈ plan.veneers, VeneerDecided L m v
  total : L.total plan.veneers ≤ m

/-- Sites and targets lie in the layout. -/
structure Checked (L : VeneerLayout) : Prop where
  sites : ∀ s ∈ L.sites, L.SiteFits s
  targets : ∀ t ∈ L.targets, L.TargetFits t

theorem target_mem {i : ℕ} (h : i < L.targets.length) : L.target i ∈ L.targets := by
  unfold target
  rw [List.getD_eq_getElem?_getD, List.getElem?_eq_getElem h]
  exact List.getElem_mem h

theorem reach_mem {i : ℕ} (h : i < L.reaches.length) : L.reach i ∈ L.reaches := by
  unfold reach
  rw [List.getD_eq_getElem?_getD, List.getElem?_eq_getElem h]
  exact List.getElem_mem h

theorem body_mem {i : ℕ} (h : i < L.bodies.length) : L.body i ∈ L.bodies := by
  unfold body
  rw [List.getD_eq_getElem?_getD, List.getElem?_eq_getElem h]
  exact List.getElem_mem h

theorem WellFormed.targetPos_mem (hL : L.WellFormed) {t : VeneerLayoutTarget} (ht : t ∈ L.targets)
    {a b : ℕ} (ha : a ≤ L.room) (hb : b ≤ L.bytesBefore L.n + L.room) :
    int64Min ≤ L.targetPos t + a - b ∧ L.targetPos t + a - b ≤ int64Max := by
  obtain ⟨h1, h2⟩ := hL.targets t ht
  unfold targetPos
  omega

section Measured

variable {plan : VeneerPlan}

theorem Decided.fits (hL : L.WellFormed) (h : Decided L L.room plan) :
    L.bytesBefore L.n + L.total plan.veneers < 2 ^ 63 := by
  have h1 := hL.text
  have h2 := h.total
  omega

theorem Decided.siteAt_fstart (hL : L.WellFormed) (h : Decided L L.room plan)
    {s : VeneerLayoutSite} (hs : L.SiteFits s) :
    ∃ a ≤ L.room, siteAt (L.fstart plan.veneers) s = ((L.sitePos s + a : ℕ) : ℤ) := by
  have hfit := h.fits hL
  have hins := bytesWhere_le_total (L := L) plan.veneers fun k => decide (k < s.function + 1)
  have htotal := h.total
  have hpos := hs.sitePos_lt_text
  have htext := hL.text
  refine ⟨_, hins.trans htotal, ?_⟩
  rw [siteAt_of_shift (fun i hi => fstart_eq hfit hi) hs, ← Nat.cast_add]
  exact int64_natCast (by omega)

theorem Decided.posOf_fstart (hL : L.WellFormed) (h : Decided L L.room plan)
    {t : VeneerLayoutTarget} (ht : t ∈ L.targets) (hfits : L.TargetFits t) :
    ∃ a ≤ L.room, L.posOf (L.fstart plan.veneers) t = L.targetPos t + (a : ℕ) := by
  have hfit := h.fits hL
  obtain ⟨i, _, hpos⟩ := posOf_of_shift (fun i hi => fstart_eq hfit hi) hfits
  have hins := bytesWhere_le_total (L := L) plan.veneers fun k => decide (k < i + 1)
  refine ⟨_, hins.trans h.total, ?_⟩
  obtain ⟨h1, h2⟩ := hL.targetPos_mem ht (hins.trans h.total) (Nat.zero_le _)
  rw [hpos]
  refine int64_of_mem ?_ ?_ <;> omega

theorem Decided.vpos_getD (hL : L.WellFormed) (h : Decided L L.room plan) {i : ℕ}
    {v : PlannedVeneer} (hv : plan.veneers[i]? = some v) (hb : v.boundary ≤ L.n) :
    ∃ a ≤ L.room, int64 ((L.vpos plan.veneers).getD i 0) =
      ((L.bytesBefore v.boundary + a : ℕ) : ℤ) := by
  have hfit := h.fits hL
  obtain ⟨a, ha, hpos⟩ := vpos_eq hfit hv hb
  have hle := bytesBefore_mono (L := L) hb
  refine ⟨a, ha.trans h.total, ?_⟩
  rw [List.getD_eq_getElem?_getD, hpos, Option.getD_some]
  exact int64_natCast (by omega)

theorem Covers.inWindow {r : RelocReach} (hr : r.Centred) {d d' : ℤ} (h : Covers r m d)
    (hle : d - m ≤ d') (hge : d' ≤ d + m) : r.inWindow (int64 d') = true := by
  obtain ⟨h1, h2⟩ := h
  obtain ⟨r1, _, _, r4⟩ := hr
  rw [int64_of_mem (by omega) (by omega), RelocReach.inWindow_iff]
  omega

theorem CoversBounded.inWindow {r : RelocReach} {d d' : ℤ} (h : CoversBounded r m d)
    (hmin : int64Min ≤ d') (hmax : d' ≤ int64Max) (hle : d - m ≤ d') (hge : d' ≤ d + m) :
    r.inWindow (int64 d') = true := by
  obtain ⟨h1, h2⟩ := h
  rw [int64_of_mem hmin hmax, RelocReach.inWindow_iff]
  omega

theorem Decided.siteMisfit_eq_none (hL : L.WellFormed) (hc : Checked L)
    (h : Decided L L.room plan) {si : ℕ} {s : VeneerLayoutSite} (hs : L.sites[si]? = some s) :
    L.siteMisfit plan s si = none := by
  have hfits := hc.sites s (List.mem_of_getElem? hs)
  have hreach := hL.reaches _ (reach_mem hfits.2.2.1)
  obtain ⟨a, ha, hsite⟩ := h.siteAt_fstart hL hfits
  have hdec := h.sites si s hs
  unfold siteMisfit
  cases hv : plan.siteVeneer.getD si none with
  | none =>
    rw [hv] at hdec
    have ht := target_mem hfits.2.1
    obtain ⟨b, hb, htarget⟩ := h.posOf_fstart hL ht (hc.targets _ ht)
    simp only [htarget, hsite]
    rw [if_pos]
    refine Covers.inWindow hreach hdec ?_ ?_ <;> unfold siteDistance <;> omega
  | some i =>
    rw [hv] at hdec
    obtain ⟨v, hvi, _, hcov⟩ := hdec
    have hb := (h.veneers v (List.mem_of_getElem? hvi)).1
    obtain ⟨b, hb, hvpos⟩ := h.vpos_getD hL hvi hb
    simp only [hvpos, hsite]
    rw [if_pos]
    refine Covers.inWindow hreach hcov ?_ ?_ <;> omega

theorem Decided.veneerMisfit_eq_none (hL : L.WellFormed) (hc : Checked L)
    (h : Decided L L.room plan) {i : ℕ} {v : PlannedVeneer} (hv : plan.veneers[i]? = some v) :
    L.veneerMisfit plan v i = none := by
  obtain ⟨hbound, htgt, _, hcov⟩ := h.veneers v (List.mem_of_getElem? hv)
  have ht := target_mem htgt
  obtain ⟨a, ha, htarget⟩ := h.posOf_fstart hL ht (hc.targets _ ht)
  obtain ⟨b, hb, hvpos⟩ := h.vpos_getD hL hv hbound
  have hle := bytesBefore_mono (L := L) hbound
  obtain ⟨h1, h2⟩ := hL.targetPos_mem ht ha (Nat.add_le_add hle hb)
  unfold veneerMisfit
  simp only [htarget, hvpos]
  rw [if_pos]
  clear htarget hvpos
  refine CoversBounded.inWindow hcov h1 h2 ?_ ?_ <;> omega

/-- **Plans that keep the margin measure up.** -/
theorem Decided.misfit_eq_none (hL : L.WellFormed) (hc : Checked L) (h : Decided L L.room plan) :
    L.findVeneerPlanMisfit plan = none := by
  unfold findVeneerPlanMisfit
  have hstray : (plan.veneers.zipIdx.findSome? fun v => L.strayVeneer v.1 v.2) = none := by
    rw [List.findSome?_eq_none_iff]
    intro v hv
    obtain ⟨hbound, _, hbody, _⟩ := h.veneers v.1 (List.fst_mem_of_mem_zipIdx hv)
    exact if_neg (not_or.2 ⟨Nat.not_le.2 hbody, Nat.not_lt.2 hbound⟩)
  have hsites : (L.sites.zipIdx.findSome? fun s => L.siteMisfit plan s.1 s.2) = none := by
    rw [List.findSome?_eq_none_iff]
    intro s hs
    exact h.siteMisfit_eq_none hL hc (List.mem_zipIdx_iff_getElem?.1 hs)
  have hveneers : (plan.veneers.zipIdx.findSome? fun v => L.veneerMisfit plan v.1 v.2) = none := by
    rw [List.findSome?_eq_none_iff]
    intro v hv
    exact h.veneerMisfit_eq_none hL hc (List.mem_zipIdx_iff_getElem?.1 hv)
  rw [hstray, hsites, hveneers]
  rfl

end Measured

theorem firstBadSite_eq_none {l : List VeneerLayoutSite} {prev : Option VeneerLayoutSite} {si : ℕ}
    (h : L.firstBadSite prev si l = none) (hprev : ∀ q ∈ prev, L.SiteFits q) :
    (∀ s ∈ l, L.SiteFits s) ∧ l.Pairwise (fun s t => L.sitePos s ≤ L.sitePos t) ∧
      ∀ q ∈ prev, ∀ s ∈ l, L.sitePos q ≤ L.sitePos s := by
  induction l generalizing prev si with
  | nil => simp
  | cons s rest ih =>
    unfold firstBadSite at h
    split at h
    · cases h
    rename_i hbad
    simp only [badSite, Bool.or_eq_true, decide_eq_true_eq, not_or, not_le] at hbad
    obtain ⟨⟨⟨⟨hf, ht⟩, hr⟩, ho⟩, horder⟩ := hbad
    have hfits : L.SiteFits s := ⟨hf, ht, hr, ho⟩
    obtain ⟨hall, hpair, hafter⟩ := ih h (by simpa using hfits)
    have hfirst : ∀ q ∈ prev, L.sitePos q ≤ L.sitePos s := by
      intro q hq
      obtain rfl : prev = some q := hq
      simp only [Bool.or_eq_true, Bool.and_eq_true, decide_eq_true_eq, not_or, not_and,
        not_lt] at horder
      rcases Nat.lt_or_eq_of_le horder.1 with hlt | heq
      · -- the earlier site lies in an earlier function
        have hq' := (hprev q rfl).sitePos_lt
        have hmono := @bytesBefore_mono L (q.function + 1) s.function hlt
        unfold sitePos at hq' ⊢
        omega
      · have hoff := horder.2 heq.symm
        unfold sitePos
        rw [heq]
        omega
    have hrest : ∀ t ∈ rest, L.sitePos s ≤ L.sitePos t := hafter s rfl
    refine ⟨List.forall_mem_cons.2 ⟨hfits, hall⟩, List.pairwise_cons.2 ⟨hrest, hpair⟩, ?_⟩
    intro q hq t ht
    rcases List.mem_cons.1 ht with rfl | ht
    · exact hfirst q hq
    · exact (hfirst q hq).trans (hrest t ht)

theorem checked_of_checks (hs : L.firstBadSite none 0 L.sites = none)
    (ht : L.targets.any L.badTarget = false) : Checked L := by
  refine ⟨(firstBadSite_eq_none hs (by simp)).1, fun t hmem => ?_⟩
  have hbad := List.any_eq_false.1 ht t hmem
  simp only [badTarget, Bool.and_eq_true, decide_eq_true_eq, not_and, not_le] at hbad
  by_cases hstub : t.function = kVeneerTargetIsStub
  · exact .inl hstub
  · exact .inr (hbad hstub)

def HalfMargin (L : VeneerLayout) (m : ℕ) : Prop :=
  ∀ r ∈ L.reaches, 2 * (m : ℤ) ≤ r.symmetricReach

theorem foldl_min_le (rs : List RelocReach) (h : ℤ) :
    let k := rs.foldl (fun h r => min h (r.symmetricReach.tdiv 2)) h
    k ≤ h ∧ ∀ r ∈ rs, k ≤ r.symmetricReach.tdiv 2 := by
  induction rs generalizing h with
  | nil => simp
  | cons r rs ih =>
    obtain ⟨h1, h2⟩ := ih (min h (r.symmetricReach.tdiv 2))
    refine ⟨h1.trans (min_le_left _ _), List.forall_mem_cons.2 ⟨h1.trans (min_le_right _ _), h2⟩⟩

theorem halfMargin_of_le (hreach : ∀ r ∈ L.reaches, r.Centred) (h : (m : ℤ) ≤ L.halfMin) :
    L.HalfMargin m ∧ (m : ℤ) ≤ int64Max := by
  obtain ⟨hmax, hall⟩ := foldl_min_le L.reaches int64Max
  refine ⟨fun r hr => ?_, h.trans hmax⟩
  have hsym := (hreach r hr).symmetricReach_le.1
  have hle := h.trans (hall r hr)
  rw [Int.tdiv_eq_ediv_of_nonneg hsym] at hle
  omega

theorem marginOf_le (h : 0 < L.halfMin) : (L.marginOf.1 : ℤ) ≤ L.halfMin := by
  unfold marginOf
  simp only
  split <;> simp only <;> omega

theorem marginOf_le_room (L : VeneerLayout) : L.marginOf.1 ≤ L.room := by
  have hle : uint64 L.room ≤ L.room := Nat.mod_le _ _
  unfold marginOf
  simp only
  split
  · rename_i hcapped
    exact hcapped.le.trans hle
  · exact hle

theorem marginOf_eq_room (hL : L.WellFormed) (h : L.marginOf.2 = false) :
    L.marginOf.1 = L.room := by
  have htext := hL.text
  unfold marginOf at h ⊢
  simp only at h ⊢
  split at h
  · cases h
  rename_i hle
  rw [if_neg hle]
  exact uint64_of_lt (by unfold room at htext; omega)

section Window

variable {s : VeneerLayoutSite}

theorem inWindow_window_iff (hr : (L.reach s.reach).Centred)
    (hm : 2 * (m : ℤ) ≤ (L.reach s.reach).symmetricReach) {d : ℤ} :
    (L.window m s).inWindow d = true ↔ Covers (L.reach s.reach) m d := by
  obtain ⟨h0, hmax, hmin⟩ := hr.symmetricReach_le
  obtain ⟨r1, r2, r3, r4⟩ := hr
  have hlo : int64 ((L.reach s.reach).minDelta + m) = (L.reach s.reach).minDelta + m :=
    int64_of_mem (by omega) (by unfold int64Max; omega)
  have hhi : int64 ((L.reach s.reach).maxDelta - m) = (L.reach s.reach).maxDelta - m :=
    int64_of_mem (by unfold int64Min; omega) (by omega)
  rw [RelocReach.inWindow_iff]
  simp only [window, hlo, hhi]
  rfl

theorem covers_of_not_isFar (hr : (L.reach s.reach).Centred)
    (hm : 2 * (m : ℤ) ≤ (L.reach s.reach).symmetricReach) (h : L.isFar s = false) :
    Covers (L.reach s.reach) m (L.delta s) := by
  obtain ⟨h0, hmax, hmin⟩ := hr.symmetricReach_le
  simp only [isFar, Bool.or_eq_false_iff, decide_eq_false_iff_not, not_lt,
    Int.tdiv_eq_ediv_of_nonneg h0] at h
  unfold Covers
  omega

end Window

section Distances

variable {s : VeneerLayoutSite} (hL : L.WellFormed)
include hL

theorem WellFormed.start_shift (i : ℕ) (hi : i ≤ L.n) : L.start i = L.bytesBefore i + 0 := by
  have htext := hL.text
  exact start_eq (by omega) hi

theorem WellFormed.siteAt_eq (hs : L.SiteFits s) : siteAt L.start s = L.sitePos s := by
  have htext := hL.text
  have hpos := hs.sitePos_lt_text
  rw [@siteAt_of_shift L L.start (fun _ => 0) s hL.start_shift hs, Nat.cast_zero, add_zero]
  exact int64_natCast (by omega)

theorem WellFormed.posOf_eq {t : VeneerLayoutTarget} (ht : t ∈ L.targets) (hf : L.TargetFits t) :
    L.posOf L.start t = L.targetPos t := by
  obtain ⟨i, _, h⟩ := @posOf_of_shift L L.start (fun _ => 0) t hL.start_shift hf
  obtain ⟨h1, h2⟩ := hL.targetPos_mem ht (Nat.zero_le _) (Nat.zero_le _)
  rw [h, Nat.cast_zero, add_zero]
  simp only [Nat.cast_zero, add_zero, sub_zero] at h1 h2
  exact int64_of_mem h1 h2

theorem WellFormed.int64_start {b : ℕ} (hb : b ≤ L.n) : int64 (L.start b) = L.bytesBefore b := by
  have htext := hL.text
  have hle := bytesBefore_mono (L := L) hb
  rw [hL.start_shift b hb, add_zero]
  exact int64_natCast (by omega)

theorem WellFormed.delta_eq (hc : Checked L) (hs : L.SiteFits s) :
    L.delta s = L.siteDistance s := by
  have ht := target_mem hs.2.1
  have hpos := hs.sitePos_lt_text
  obtain ⟨h1, h2⟩ := @WellFormed.targetPos_mem L hL _ ht 0 (L.sitePos s) (Nat.zero_le _) (by omega)
  unfold delta siteDistance
  rw [hL.posOf_eq ht (hc.targets _ ht), hL.siteAt_eq hs]
  rw [Nat.cast_zero, add_zero] at h1 h2
  exact int64_of_mem h1 h2

theorem WellFormed.boundaryDelta_eq (hs : L.SiteFits s) {b : ℕ} (hb : b ≤ L.n) :
    L.boundaryDelta b (siteAt L.start s) = L.bytesBefore b - L.sitePos s := by
  have htext := hL.text
  have hle := bytesBefore_mono (L := L) hb
  have hpos := hs.sitePos_lt_text
  unfold boundaryDelta
  rw [hL.siteAt_eq hs, hL.int64_start hb]
  refine int64_of_mem ?_ ?_
  · unfold int64Min
    omega
  · unfold int64Max
    omega

theorem WellFormed.veneerDelta_eq (hc : Checked L) {i : ℕ} (ht : i < L.targets.length) {b : ℕ}
    (hb : b ≤ L.n) :
    L.veneerDelta b (L.target i) = L.targetPos (L.target i) - L.bytesBefore b := by
  have hmem := target_mem ht
  have hle := bytesBefore_mono (L := L) hb
  obtain ⟨h1, h2⟩ :=
    @WellFormed.targetPos_mem L hL _ hmem 0 (L.bytesBefore b) (Nat.zero_le _) (by omega)
  unfold veneerDelta
  rw [hL.posOf_eq hmem (hc.targets _ hmem), hL.int64_start hb]
  rw [Nat.cast_zero, add_zero] at h1 h2
  exact int64_of_mem h1 h2

theorem WellFormed.advance_spec (hs : L.SiteFits s) {maxDelta : ℤ} (k : ℕ) {p : ℕ} (hp : p ≤ L.n)
    (hreach : L.bytesBefore p - L.sitePos s ≤ maxDelta) :
    let p' := L.advance (siteAt L.start s) maxDelta k p
    p' ≤ L.n ∧ L.bytesBefore p' - L.sitePos s ≤ maxDelta := by
  induction k generalizing p with
  | zero => exact ⟨hp, hreach⟩
  | succ k ih =>
    unfold advance
    split
    · rename_i h
      obtain ⟨hlt, hnext⟩ := h
      rw [hL.boundaryDelta_eq hs hlt] at hnext
      exact ih hlt hnext
    · exact ⟨hp, hreach⟩

end Distances

/-- The invariant of the sweep. -/
structure SweepInv (L : VeneerLayout) (m : ℕ) (done : List (VeneerLayoutSite × ℕ)) (st : Sweep) :
    Prop where
  capped : st.plan.marginCapped = L.marginOf.2
  length : st.plan.siteVeneer.length = L.sites.length
  undone : ∀ si, done.length ≤ si → st.plan.siteVeneer.getD si none = none
  sites : ∀ q ∈ done, SiteDecided L m st.plan.veneers q.1 (st.plan.siteVeneer.getD q.2 none)
  veneers : ∀ v ∈ st.plan.veneers, VeneerDecided L m v
  count : st.plan.veneers.length ≤ (done.map Prod.fst).countP L.isFar
  latest : ∀ t i, st.latest t = some i → ∃ v, st.plan.veneers[i]? = some v ∧ v.target = t
  ahead : ∀ s ∈ L.sites, (∀ q ∈ done, L.sitePos q.1 ≤ L.sitePos s) →
    st.ahead s.reach ≤ L.n ∧
      L.bytesBefore (st.ahead s.reach) - L.sitePos s ≤ (L.reach s.reach).maxDelta - (m : ℤ)

theorem SiteDecided.append {vs : List PlannedVeneer} {s : VeneerLayoutSite} {o : Option ℕ}
    (h : SiteDecided L m vs s o) (v : PlannedVeneer) : SiteDecided L m (vs ++ [v]) s o := by
  cases o with
  | none => exact h
  | some i =>
    obtain ⟨u, hu, hrest⟩ := h
    refine ⟨u, ?_, hrest⟩
    rw [List.getElem?_append_left (List.getElem?_eq_some_iff.1 hu).1]
    exact hu

theorem getD_set {α : Type*} {l : List (Option α)} {i j : ℕ} {o : Option α} :
    (l.set i o).getD j none = if i = j ∧ i < l.length then o else l.getD j none := by
  rw [List.getD_eq_getElem?_getD, List.getD_eq_getElem?_getD, List.getElem?_set]
  by_cases hij : i = j
  · subst hij
    by_cases hi : i < l.length <;> simp [hi]
  · simp [hij]

theorem latest_cases {latest : ℕ → Option ℕ} {c : Bool} {t t' i k : ℕ}
    (h : (if c then Function.update latest t' (some k) else latest) t = some i) :
    (t = t' ∧ i = k) ∨ latest t = some i := by
  split at h
  · by_cases ht : t = t'
    · subst ht
      rw [Function.update_self] at h
      exact .inl ⟨rfl, (Option.some.inj h).symm⟩
    · rw [Function.update_of_ne ht] at h
      exact .inr h
  · exact .inr h

theorem SweepInv.extend {done : List (VeneerLayoutSite × ℕ)} {st st' : Sweep}
    (hI : SweepInv L m done st) {s : VeneerLayoutSite} {o : Option ℕ}
    (hindex : ∀ q ∈ done, q.2 < done.length)
    (hcapped : st'.plan.marginCapped = st.plan.marginCapped)
    (hlength : st'.plan.siteVeneer.length = st.plan.siteVeneer.length)
    (hentry : ∀ j, st'.plan.siteVeneer.getD j none =
      if done.length = j then o else st.plan.siteVeneer.getD j none)
    (hdecided : SiteDecided L m st'.plan.veneers s o)
    (hkept : ∀ s o, SiteDecided L m st.plan.veneers s o → SiteDecided L m st'.plan.veneers s o)
    (hveneers : ∀ v ∈ st'.plan.veneers, VeneerDecided L m v)
    (hcount : st'.plan.veneers.length ≤
      st.plan.veneers.length + if L.isFar s then 1 else 0)
    (hlatest : ∀ t i, st'.latest t = some i → ∃ v, st'.plan.veneers[i]? = some v ∧ v.target = t)
    (hahead : ∀ t ∈ L.sites, (∀ q ∈ done, L.sitePos q.1 ≤ L.sitePos t) →
      L.sitePos s ≤ L.sitePos t → st'.ahead t.reach ≤ L.n ∧
        L.bytesBefore (st'.ahead t.reach) - L.sitePos t ≤ (L.reach t.reach).maxDelta - (m : ℤ)) :
    SweepInv L m (done ++ [(s, done.length)]) st' where
  capped := hcapped.trans hI.capped
  length := hlength.trans hI.length
  undone := by
    intro j hj
    rw [List.length_append, List.length_singleton] at hj
    rw [hentry, if_neg (by omega)]
    exact hI.undone j (by omega)
  sites := by
    intro q hq
    rw [hentry]
    rcases List.mem_append.1 hq with hq | hq
    · rw [if_neg (hindex q hq).ne']
      exact hkept _ _ (hI.sites q hq)
    · obtain rfl := List.mem_singleton.1 hq
      rw [if_pos rfl]
      exact hdecided
  veneers := hveneers
  count := by
    have hold := hI.count
    rw [List.map_append, List.countP_append]
    simp only [List.map_cons, List.map_nil, List.countP_singleton]
    omega
  latest := hlatest
  ahead := by
    intro t ht hq
    have hs := hq (s, done.length) (by simp)
    exact hahead t ht (fun q hmem => hq q (List.mem_append_left _ hmem)) hs

section Visit

variable {done : List (VeneerLayoutSite × ℕ)} {st : Sweep} {s : VeneerLayoutSite}
variable (hL : L.WellFormed) (hc : Checked L) (hm : L.HalfMargin m)
variable (hs : s ∈ L.sites) (hdone : done.length < L.sites.length)
variable (hindex : ∀ q ∈ done, q.2 < done.length)
variable (hbefore : ∀ q ∈ done, L.sitePos q.1 ≤ L.sitePos s)

include hL hc hm hs in
theorem visit_isFar (hout : ¬ (L.window m s).inWindow (L.delta s) = true) : L.isFar s = true := by
  have hfits := hc.sites s hs
  have hmem := reach_mem hfits.2.2.1
  rw [inWindow_window_iff (hL.reaches _ hmem) (hm _ hmem)] at hout
  by_contra hfar
  exact hout (covers_of_not_isFar (hL.reaches _ hmem) (hm _ hmem) (by simpa using hfar))

include hL hc hm hs in
theorem boundaryFor_spec {p b : ℕ} (hp : p ≤ L.n)
    (hreach : L.bytesBefore p - L.sitePos s ≤ (L.reach s.reach).maxDelta - (m : ℤ))
    (hb : L.boundaryFor m s p = some b) :
    b ≤ L.n ∧ Covers (L.reach s.reach) m (L.bytesBefore b - L.sitePos s) := by
  have hfits := hc.sites s hs
  have hmem := reach_mem hfits.2.2.1
  have hcentred := hL.reaches _ hmem
  have hhalf := hm _ hmem
  obtain ⟨h0, hmax, hmin⟩ := hcentred.symmetricReach_le
  unfold boundaryFor at hb
  split at hb
  · -- a boundary ahead of the site
    rename_i hahead
    obtain rfl := Option.some.inj hb
    have hpos := hfits.sitePos_lt
    have hmono := @bytesBefore_mono L (s.function + 1) p hahead
    refine ⟨hp, ?_, hreach⟩
    omega
  · split at hb
    · rename_i hbehind
      obtain rfl := Option.some.inj hb
      rw [hL.boundaryDelta_eq hfits hfits.1.le] at hbehind
      have hlo : (L.window m s).minDelta = (L.reach s.reach).minDelta + m := by
        obtain ⟨r1, r2, _, _⟩ := hcentred
        exact int64_of_mem (by omega) (by unfold int64Max; omega)
      rw [hlo] at hbehind
      refine ⟨hfits.1.le, hbehind, ?_⟩
      unfold sitePos
      omega
    · cases hb

include hL in
theorem bodyFor_spec (hroom : m ≤ L.room) {vd : ℤ} (h : L.bodyFor m vd ≠ L.bodies.length) :
    L.bodyFor m vd < L.bodies.length ∧ CoversBounded (L.body (L.bodyFor m vd)).reach m vd := by
  have hlt : L.bodyFor m vd < L.bodies.length := lt_of_le_of_ne List.findIdx_le_length h
  refine ⟨hlt, ?_⟩
  obtain ⟨h1, h2, h3, h4⟩ := hL.bodies _ (body_mem hlt)
  have hfound : ((L.body (L.bodyFor m vd)).reach.shrink m).inWindow vd = true := by
    have hget := @List.findIdx_getElem VeneerBodyModel
      (fun b => (b.reach.shrink m).inWindow vd) L.bodies hlt
    unfold body
    rw [List.getD_eq_getElem?_getD, List.getElem?_eq_getElem hlt]
    exact hget
  rw [RelocReach.inWindow_iff] at hfound
  obtain ⟨hlo, hhi⟩ := hfound
  unfold RelocReach.shrink at hlo hhi
  simp only at hlo hhi
  constructor
  · by_cases hmin : (L.body (L.bodyFor m vd)).reach.minDelta = int64Min
    · exact .inl hmin
    · rw [if_neg hmin, int64_of_mem (by omega) (by omega)] at hlo
      exact .inr hlo
  · by_cases hmax : (L.body (L.bodyFor m vd)).reach.maxDelta = int64Max
    · exact .inl hmax
    · rw [if_neg hmax, int64_of_mem (by omega) (by omega)] at hhi
      exact .inr hhi

include hL hc hm hs hdone hindex in
theorem place_inv (hroom : m ≤ L.room) {st₀ : Sweep} (hI : SweepInv L m done st₀)
    (hfar : L.isFar s = true) (hveneers : st.plan.veneers = st₀.plan.veneers)
    (hsites : st.plan.siteVeneer = st₀.plan.siteVeneer)
    (hcapped : st.plan.marginCapped = st₀.plan.marginCapped) (hlatest : st.latest = st₀.latest)
    (hahead : ∀ t ∈ L.sites, (∀ q ∈ done, L.sitePos q.1 ≤ L.sitePos t) →
      L.sitePos s ≤ L.sitePos t → st.ahead t.reach ≤ L.n ∧
        L.bytesBefore (st.ahead t.reach) - L.sitePos t ≤ (L.reach t.reach).maxDelta - (m : ℤ))
    {p : ℕ} (hp : p ≤ L.n)
    (hreach : L.bytesBefore p - L.sitePos s ≤ (L.reach s.reach).maxDelta - (m : ℤ)) :
    Holds (fun plan => plan.status ≠ .ok) (SweepInv L m (done ++ [(s, done.length)]))
      (L.place m st done.length s p) := by
  have hfits := hc.sites s hs
  have hlen := hI.length
  unfold place
  simp only [hveneers, hsites, hlatest]
  split
  · exact holds_error (by simp)
  rename_i b hb
  obtain ⟨hbn, hcov⟩ := boundaryFor_spec hL hc hm hs hp hreach hb
  split
  · exact holds_error (by simp)
  rename_i hbody
  obtain ⟨hlt, hbounded⟩ := bodyFor_spec hL hroom hbody
  rw [hL.veneerDelta_eq hc hfits.2.1 hbn] at hlt hbounded
  -- the new veneer is the last one of the list
  have hlast : ∀ v : PlannedVeneer,
      (st₀.plan.veneers ++ [v])[st₀.plan.veneers.length]? = some v := by simp
  have hearlier : ∀ {i : ℕ} {v : PlannedVeneer} (u : PlannedVeneer),
      st₀.plan.veneers[i]? = some v → (st₀.plan.veneers ++ [u])[i]? = some v := by
    intro i v u h
    rw [List.getElem?_append_left (List.getElem?_eq_some_iff.1 h).1]
    exact h
  refine holds_ok (hI.extend (o := some st₀.plan.veneers.length) hindex hcapped ?_ ?_
    ⟨_, hlast _, rfl, hcov⟩ ?_ ?_ ?_ ?_ hahead)
  · simp
  · intro j
    simp only [getD_set, hlen]
    by_cases hj : done.length = j <;> simp [hj, hdone]
    omega
  · intro t o ht
    exact ht.append _
  · intro v hv
    rcases List.mem_append.1 hv with hv | hv
    · exact hI.veneers v hv
    · obtain rfl := List.mem_singleton.1 hv
      rw [← hL.veneerDelta_eq hc hfits.2.1 hbn] at hlt hbounded
      refine ⟨hbn, hfits.2.1, hlt, ?_⟩
      rw [← hL.veneerDelta_eq hc hfits.2.1 hbn]
      exact hbounded
  · simp [hfar]
  · intro t i ht
    rcases latest_cases ht with ⟨rfl, rfl⟩ | hold
    · exact ⟨_, hlast _, rfl⟩
    · obtain ⟨v, hv, hvt⟩ := hI.latest t i hold
      exact ⟨v, hearlier _ hv, hvt⟩

include hL hc hm hs hdone hindex hbefore in
theorem visit_inv (hroom : m ≤ L.room) (hI : SweepInv L m done st) :
    Holds (fun plan => plan.status ≠ .ok) (SweepInv L m (done ++ [(s, done.length)]))
      (L.visit m st s done.length) := by
  have hfits := hc.sites s hs
  have hmem := reach_mem hfits.2.2.1
  have hcentred := hL.reaches _ hmem
  have hhalf := hm _ hmem
  have hkeep : ∀ t ∈ L.sites, (∀ q ∈ done, L.sitePos q.1 ≤ L.sitePos t) →
      L.sitePos s ≤ L.sitePos t → st.ahead t.reach ≤ L.n ∧
        L.bytesBefore (st.ahead t.reach) - L.sitePos t ≤ (L.reach t.reach).maxDelta - (m : ℤ) :=
    fun t ht hq _ => hI.ahead t ht hq
  unfold visit
  by_cases hin : (L.window m s).inWindow (L.delta s) = true
  · -- the target is in reach
    simp only [hin, ↓reduceIte]
    rw [inWindow_window_iff hcentred hhalf, hL.delta_eq hc hfits] at hin
    refine holds_ok (hI.extend (o := none) hindex rfl rfl ?_ hin (fun _ _ h => h) hI.veneers
      (by simp) hI.latest hkeep)
    intro j
    split
    · rename_i hj
      exact hI.undone j hj.le
    · rfl
  have hfar := visit_isFar hL hc hm hs hin
  simp only [hin, Bool.false_eq_true, ↓reduceIte]
  cases hroutable : s.routable with
  | false => exact holds_error (by simp)
  | true =>
  simp only [Bool.not_true, Bool.false_eq_true, ↓reduceIte]
  split
  · -- the latest veneer of the target is in reach
    rename_i i hi
    unfold reuse at hi
    split at hi
    · cases hi
    rename_i i' hlatest
    simp only at hi
    split at hi
    · rename_i hin
      obtain rfl := Option.some.inj hi
      obtain ⟨v, hv, hvt⟩ := hI.latest _ _ hlatest
      have hbound := (hI.veneers v (List.mem_of_getElem? hv)).1
      rw [List.getD_eq_getElem?_getD, hv, Option.getD_some, hL.boundaryDelta_eq hfits hbound,
        inWindow_window_iff hcentred hhalf] at hin
      refine holds_ok (hI.extend (o := some i') hindex rfl (by simp) ?_ ⟨v, hv, hvt, hin⟩
        (fun _ _ h => h) hI.veneers (by simp) hI.latest hkeep)
      intro j
      simp only [getD_set, hI.length, hdone, and_true]
    · cases hi
  · -- a new veneer
    obtain ⟨hp, hreach⟩ := hI.ahead s hs hbefore
    have hmax : (L.window m s).maxDelta = (L.reach s.reach).maxDelta - m := by
      obtain ⟨h0, hmax, hmin⟩ := hcentred.symmetricReach_le
      obtain ⟨_, _, r3, r4⟩ := hcentred
      exact int64_of_mem (by unfold int64Min; omega) (by omega)
    rw [← hmax] at hreach
    obtain ⟨hp', hreach'⟩ := hL.advance_spec hfits (L.n - st.ahead s.reach) hp hreach
    refine place_inv hL hc hm hs hdone hindex hroom hI hfar ?_ ?_ ?_ ?_ ?_ hp' (hmax ▸ hreach')
    iterate 4 rfl
    intro t ht hq hst
    by_cases hr : t.reach = s.reach
    · simp only [hr, Function.update_self]
      refine ⟨hp', ?_⟩
      rw [hmax] at hreach' ⊢
      omega
    · simp only [ne_eq, hr, not_false_eq_true, Function.update_of_ne]
      exact hI.ahead t ht hq

end Visit

theorem zipIdx_split {α : Type*} {l : List α} {done rest : List (α × ℕ)} {q : α × ℕ}
    (h : l.zipIdx = done ++ q :: rest) :
    q.2 = done.length ∧ done.length < l.length ∧ l[done.length]? = some q.1 ∧
      ∀ r ∈ done, r.2 < done.length := by
  have hq : l.zipIdx[done.length]? = some q := by simp [h]
  rw [List.getElem?_zipIdx, Option.map_eq_some_iff] at hq
  obtain ⟨a, ha, rfl⟩ := hq
  refine ⟨by simp, (List.getElem?_eq_some_iff.1 ha).1, ha, fun r hr => ?_⟩
  obtain ⟨j, hj, hget⟩ := List.mem_iff_getElem.1 hr
  have hr' : l.zipIdx[j]? = some r := by
    rw [h, List.getElem?_append_left hj, List.getElem?_eq_getElem hj, hget]
  rw [List.getElem?_zipIdx, Option.map_eq_some_iff] at hr'
  obtain ⟨b, _, rfl⟩ := hr'
  simpa using hj

theorem sweep_inv (hL : L.WellFormed) (hc : Checked L) (hm : L.HalfMargin m) (hroom : m ≤ L.room)
    (hsorted : L.sites.Pairwise fun s t => L.sitePos s ≤ L.sitePos t) {plan : VeneerPlan}
    (hsites : plan.siteVeneer = List.replicate L.sites.length none) (hveneers : plan.veneers = [])
    (hcapped : plan.marginCapped = L.marginOf.2) :
    Holds (fun plan => plan.status ≠ .ok) (SweepInv L m L.sites.zipIdx) (L.sweep m plan) := by
  unfold sweep
  refine Holds.foldlM ?_ ?_
  · refine ⟨hcapped, ?_, ?_, ?_, ?_, ?_, ?_, ?_⟩
    · simp [hsites]
    · intro si _
      rw [hsites, List.getD_eq_getElem?_getD, List.getElem?_replicate]
      split <;> rfl
    · intro q hq
      cases hq
    · simp [hveneers]
    · simp [hveneers]
    · intro t i h
      cases h
    · intro s hs _
      have hmem := reach_mem (hc.sites s hs).2.2.1
      obtain ⟨h0, hmax, _⟩ := (hL.reaches _ hmem).symmetricReach_le
      have hhalf := hm _ hmem
      refine ⟨Nat.zero_le _, ?_⟩
      simp only [bytesBefore, List.take_zero, List.sum_nil, Nat.cast_zero]
      omega
  · rintro done ⟨s, si⟩ rest st hsplit hI
    obtain ⟨hsi, hlt, hget, hindex⟩ := zipIdx_split hsplit
    obtain rfl : si = done.length := hsi
    refine visit_inv hL hc hm (List.mem_of_getElem? hget) hlt hindex ?_ hroom hI
    -- the sites done stand before this one
    have hmap : L.sites = done.map Prod.fst ++ s :: rest.map Prod.fst := by
      have := congrArg (List.map Prod.fst) hsplit
      simpa [List.zipIdx_map_fst] using this
    intro q hq
    rw [hmap, List.pairwise_append] at hsorted
    exact hsorted.2.2 _ (List.mem_map_of_mem hq) s (by simp)

theorem sizeOf_le_largestBody {v : PlannedVeneer} (h : v.body < L.bodies.length) :
    L.sizeOf v ≤ L.largestBody := by
  have key : ∀ (bs : List VeneerBodyModel) (a : ℕ),
      a ≤ bs.foldl (fun a b => max a b.size) a ∧
        ∀ b ∈ bs, b.size ≤ bs.foldl (fun a b => max a b.size) a := by
    intro bs
    induction bs with
    | nil => simp
    | cons b bs ih =>
      intro a
      obtain ⟨h1, h2⟩ := ih (max a b.size)
      exact ⟨(le_max_left _ _).trans h1,
        List.forall_mem_cons.2 ⟨(le_max_right _ _).trans h1, h2⟩⟩
  exact (key L.bodies 0).2 _ (body_mem h)

theorem total_le (vs : List PlannedVeneer) (h : ∀ v ∈ vs, v.body < L.bodies.length) :
    L.total vs ≤ vs.length * L.largestBody := by
  induction vs with
  | nil => simp [total]
  | cons v vs ih =>
    obtain ⟨hv, hvs⟩ := List.forall_mem_cons.1 h
    have h1 := sizeOf_le_largestBody hv
    have h2 := ih hvs
    simp only [total, List.map_cons, List.sum_cons, List.length_cons, Nat.add_mul] at h2 ⊢
    omega

theorem SweepInv.decided {st : Sweep} (h : SweepInv L L.room L.sites.zipIdx st) :
    Decided L L.room st.plan where
  sites := fun si s hs => h.sites (s, si) (List.mem_zipIdx_iff_getElem?.2 hs)
  veneers := h.veneers
  total := by
    have hcount := h.count
    rw [List.zipIdx_map_fst] at hcount
    calc L.total st.plan.veneers
        ≤ st.plan.veneers.length * L.largestBody :=
          total_le _ fun v hv => (h.veneers v hv).2.2.1
      _ ≤ L.farSites * L.largestBody := Nat.mul_le_mul_right _ hcount

def NearDirect (L : VeneerLayout) (siteVeneer : List (Option ℕ)) : Prop :=
  siteVeneer.length = L.sites.length ∧
    ∀ si s, L.sites[si]? = some s → L.isFar s = false → siteVeneer.getD si none = none

theorem nearDirect_replicate : NearDirect L (List.replicate L.sites.length none) := by
  refine ⟨by simp, fun si s _ _ => ?_⟩
  rw [List.getD_eq_getElem?_getD, List.getElem?_replicate]
  split <;> rfl

theorem NearDirect.set {siteVeneer : List (Option ℕ)} (h : NearDirect L siteVeneer) {si : ℕ}
    {s : VeneerLayoutSite} (hs : L.sites[si]? = some s) (hfar : L.isFar s = true) (o : Option ℕ) :
    NearDirect L (siteVeneer.set si o) := by
  refine ⟨by simp [h.1], fun sj t ht hnear => ?_⟩
  rw [getD_set, if_neg]
  · exact h.2 sj t ht hnear
  · rintro ⟨rfl, _⟩
    rw [hs] at ht
    obtain rfl := Option.some.inj ht
    rw [hfar] at hnear
    cases hnear

theorem place_near {st : Sweep} {si p : ℕ} {s : VeneerLayoutSite} (hs : L.sites[si]? = some s)
    (hfar : L.isFar s = true) (h : NearDirect L st.plan.siteVeneer) :
    Holds (fun plan => NearDirect L plan.siteVeneer) (fun st => NearDirect L st.plan.siteVeneer)
      (L.place m st si s p) := by
  unfold place
  simp only
  split
  · exact holds_error h
  · split
    · exact holds_error h
    · exact holds_ok (h.set hs hfar _)

theorem visit_near (hreach : ∀ r ∈ L.reaches, r.Centred) (hc : ∀ s ∈ L.sites, L.SiteFits s)
    (hm : L.HalfMargin m) {st : Sweep} {si : ℕ} {s : VeneerLayoutSite} (hs : L.sites[si]? = some s)
    (h : NearDirect L st.plan.siteVeneer) :
    Holds (fun plan => NearDirect L plan.siteVeneer) (fun st => NearDirect L st.plan.siteVeneer)
      (L.visit m st s si) := by
  have hmem := reach_mem (hc s (List.mem_of_getElem? hs)).2.2.1
  unfold visit
  by_cases hin : (L.window m s).inWindow (L.delta s) = true
  · simp only [hin, ↓reduceIte]
    exact holds_ok h
  have hfar : L.isFar s = true := by
    rw [inWindow_window_iff (hreach _ hmem) (hm _ hmem)] at hin
    by_contra hnear
    exact hin (covers_of_not_isFar (hreach _ hmem) (hm _ hmem) (by simpa using hnear))
  simp only [hin, Bool.false_eq_true, ↓reduceIte]
  split
  · exact holds_error h
  split
  · exact holds_ok (h.set hs hfar _)
  · exact place_near hs hfar h

theorem sweep_near (hreach : ∀ r ∈ L.reaches, r.Centred) (hc : ∀ s ∈ L.sites, L.SiteFits s)
    (hm : L.HalfMargin m) {plan : VeneerPlan} (h : NearDirect L plan.siteVeneer) :
    Holds (fun plan => NearDirect L plan.siteVeneer) (fun st => NearDirect L st.plan.siteVeneer)
      (L.sweep m plan) := by
  unfold sweep
  refine Holds.foldlM (I := fun _ (st : Sweep) => NearDirect L st.plan.siteVeneer) h ?_
  rintro done ⟨s, si⟩ rest st hsplit hI
  obtain ⟨rfl, _, hget, _⟩ := zipIdx_split hsplit
  exact visit_near hreach hc hm hget hI

theorem planBranchVeneers_cases (L : VeneerLayout) :
    (L.planBranchVeneers.status = .malformed ∧
      L.planBranchVeneers.siteVeneer = List.replicate L.sites.length none) ∨
    L.firstBadSite none 0 L.sites = none ∧ L.targets.any L.badTarget = false ∧
      ((L.farSites = 0 ∧ L.planBranchVeneers.veneers = [] ∧
        L.planBranchVeneers.siteVeneer = List.replicate L.sites.length none) ∨
      (0 < L.halfMin ∧ ∃ plan : VeneerPlan,
        plan.siteVeneer = List.replicate L.sites.length none ∧ plan.veneers = [] ∧
        plan.marginCapped = L.marginOf.2 ∧
        match L.sweep (int64 L.marginOf.1) plan with
        | .ok st => L.planBranchVeneers = st.plan
        | .error plan => L.planBranchVeneers = plan)) := by
  cases hchecks : L.firstBadSite none 0 L.sites with
  | some si =>
    refine .inl ?_
    unfold planBranchVeneers
    simp [hchecks]
  | none =>
  cases htargets : L.targets.any L.badTarget with
  | true =>
    refine .inl ?_
    unfold planBranchVeneers
    simp [hchecks, htargets]
  | false =>
  unfold planBranchVeneers
  simp only [hchecks, htargets, Bool.false_eq_true, ↓reduceIte]
  split_ifs with hfar hzero hhalf
  · exact .inr ⟨trivial, trivial, .inl ⟨hfar, rfl, rfl⟩⟩
  · exact .inl ⟨rfl, rfl⟩
  · exact .inl ⟨rfl, rfl⟩
  · refine .inr ⟨trivial, trivial, .inr ⟨by omega, ?_⟩⟩
    let plan : VeneerPlan :=
      { siteVeneer := List.replicate L.sites.length none
        margin := L.marginOf.1
        marginCapped := L.marginOf.2
        work := { farSites := L.farSites } }
    refine ⟨plan, rfl, rfl, rfl, ?_⟩
    change match L.sweep (int64 L.marginOf.1) plan with
      | .ok st => (match L.sweep (int64 L.marginOf.1) plan with
        | .ok st => st.plan
        | .error plan => plan) = st.plan
      | .error p => (match L.sweep (int64 L.marginOf.1) plan with
        | .ok st => st.plan
        | .error plan => plan) = p
    cases L.sweep (int64 L.marginOf.1) plan <;> rfl

theorem int64_marginOf (hreach : ∀ r ∈ L.reaches, r.Centred) (hpos : 0 < L.halfMin) :
    L.HalfMargin L.marginOf.1 ∧ int64 (L.marginOf.1 : ℤ) = (L.marginOf.1 : ℤ) := by
  obtain ⟨hm, hmax⟩ := halfMargin_of_le hreach (marginOf_le hpos)
  exact ⟨hm, int64_of_mem (by unfold int64Min; omega) hmax⟩

theorem planBranchVeneers_near (hreach : ∀ r ∈ L.reaches, r.Centred) :
    NearDirect L L.planBranchVeneers.siteVeneer := by
  rcases L.planBranchVeneers_cases with ⟨_, hsv⟩ | ⟨hchecks, _, ⟨_, _, hsv⟩ | ⟨hpos, plan, hsv, _,
    _, hplan⟩⟩
  · rw [hsv]
    exact nearDirect_replicate
  · rw [hsv]
    exact nearDirect_replicate
  · obtain ⟨hm, hint⟩ := int64_marginOf hreach hpos
    have hfits := (firstBadSite_eq_none hchecks (by simp)).1
    have hstart : NearDirect L plan.siteVeneer := hsv ▸ nearDirect_replicate
    have hsweep := sweep_near hreach hfits hm hstart
    rw [hint] at hplan
    split at hplan
    · rename_i st hst
      rw [hplan]
      exact hsweep.of_ok hst
    · rename_i plan' hst
      rw [hplan]
      exact hsweep.of_error hst

theorem planBranchVeneers_decided (hL : L.WellFormed) (hok : L.planBranchVeneers.status = .ok)
    (huncapped : L.planBranchVeneers.marginCapped = false) :
    Checked L ∧ Decided L L.room L.planBranchVeneers := by
  rcases L.planBranchVeneers_cases with ⟨hbad, _⟩ | ⟨hchecks, htargets, hrest⟩
  · rw [hbad] at hok
    cases hok
  have hc := checked_of_checks hchecks htargets
  refine ⟨hc, ?_⟩
  rcases hrest with ⟨hfar, hvs, hsv⟩ | ⟨hpos, plan, hsv, hvs, hcapped, hplan⟩
  · -- no site is far, so every one is in reach as it stands
    have hroom : L.room = 0 := by simp [room, hfar]
    refine ⟨fun si s hs => ?_, by simp [hvs], by simp [hvs, total]⟩
    have hmem := List.mem_of_getElem? hs
    have hfits := hc.sites s hmem
    have hreach := reach_mem hfits.2.2.1
    have hnear : L.isFar s = false := by
      have := List.countP_eq_zero.1 hfar s hmem
      simpa using this
    have hentry : L.planBranchVeneers.siteVeneer.getD si none = none :=
      (planBranchVeneers_near hL.reaches).2 si s hs hnear
    rw [hentry, hroom]
    have hcov := @covers_of_not_isFar L 0 s (hL.reaches _ hreach)
      (by simpa using (hL.reaches _ hreach).symmetricReach_le.1) hnear
    rw [hL.delta_eq hc hfits] at hcov
    exact hcov
  · obtain ⟨hm, hint⟩ := int64_marginOf hL.reaches hpos
    rw [hint] at hplan
    have hsorted := (firstBadSite_eq_none hchecks (by simp)).2.1
    have hsweep := sweep_inv hL hc hm (marginOf_le_room L) hsorted hsv hvs hcapped
    split at hplan
    · rename_i st hst
      have hI := hsweep.of_ok hst
      rw [hplan, hI.capped] at huncapped
      rw [marginOf_eq_room hL huncapped] at hI
      rw [hplan]
      exact hI.decided
    · rename_i plan' hst
      rw [hplan] at hok
      exact absurd hok (hsweep.of_error hst)

/-- **One pass is exact.**  If planning succeeds with the margin uncapped, then on the final layout
every site's field reaches its target or its veneer, and every veneer's body its target.  And
however planning ends, a site within half its own reach is given no veneer. -/
theorem planBranchVeneers_exact (L : VeneerLayout) (hL : L.WellFormed) :
    (L.planBranchVeneers.status = .ok → L.planBranchVeneers.marginCapped = false →
      L.findVeneerPlanMisfit L.planBranchVeneers = none) ∧
    ∀ (si : ℕ) (s : VeneerLayoutSite), L.sites[si]? = some s →
      |L.siteDistance s| ≤ (L.reach s.reach).symmetricReach / 2 →
        L.planBranchVeneers.siteVeneer[si]? = some none := by
  refine ⟨fun hok huncapped => ?_, fun si s hs hhalf => ?_⟩
  · obtain ⟨hc, hdecided⟩ := planBranchVeneers_decided hL hok huncapped
    exact hdecided.misfit_eq_none hL hc
  · have hlt := (List.getElem?_eq_some_iff.1 hs).1
    rcases L.planBranchVeneers_cases with ⟨_, hsv⟩ | ⟨hchecks, htargets, _⟩
    · simp [hsv, hlt]
    · have hc := checked_of_checks hchecks htargets
      have hfits := hc.sites s (List.mem_of_getElem? hs)
      have hsym := (hL.reaches _ (reach_mem hfits.2.2.1)).symmetricReach_le.1
      obtain ⟨hlength, hnear⟩ := planBranchVeneers_near hL.reaches
      have hfar : L.isFar s = false := by
        rw [abs_le] at hhalf
        simp only [isFar, hL.delta_eq hc hfits, Int.tdiv_eq_ediv_of_nonneg hsym,
          Bool.or_eq_false_iff, decide_eq_false_iff_not]
        omega
      have hentry := hnear si s hs hfar
      rw [List.getD_eq_getElem?_getD, List.getElem?_eq_getElem (hlength ▸ hlt)] at hentry
      rw [List.getElem?_eq_getElem (hlength ▸ hlt)]
      exact congrArg some hentry

def farCall : VeneerLayout where
  functionSizes := [100, 1000, 100]
  sites :=
    [{ function := 0, offset := 4, target := 0 }, { function := 0, offset := 8, target := 1 }]
  targets := [{ function := 2 }, { function := 1, addend := 8 }]
  reaches := [⟨-200, 200⟩]
  bodies := [⟨12, ⟨-4096, 4095⟩⟩]

theorem farCall_wellFormed : farCall.WellFormed where
  reaches := by
    unfold farCall RelocReach.Centred
    decide
  bodies := by
    have hroom : farCall.room = 12 := by decide +kernel
    rw [hroom]
    unfold farCall
    decide
  functions := by decide
  sites := by decide
  text := by decide +kernel
  targets := by decide +kernel

theorem planBranchVeneers_exact_farCall :
    farCall.planBranchVeneers.veneers = [⟨1, 0, 0⟩] ∧
      farCall.findVeneerPlanMisfit farCall.planBranchVeneers = none ∧
      farCall.planBranchVeneers.siteVeneer[1]? = some none :=
  ⟨by decide +kernel,
    (planBranchVeneers_exact farCall farCall_wellFormed).1 (by decide +kernel) (by decide +kernel),
    (planBranchVeneers_exact farCall farCall_wellFormed).2 1 _ rfl (by decide +kernel)⟩

end DssPrime.VeneerLayout
