import DssPrime.Link.BranchVeneers

/-!
# The layout a veneer plan produces

What the positions of `BranchVeneers` are when no address leaves the 64-bit range.
-/

namespace DssPrime

theorem uint64_of_lt {x : ℕ} (h : x < 2 ^ 64) : uint64 x = x := Nat.mod_eq_of_lt h

theorem int64_of_mem {x : ℤ} (h : int64Min ≤ x) (h' : x ≤ int64Max) : int64 x = x := by
  unfold int64Min at h
  unfold int64Max at h'
  unfold int64
  exact Int.bmod_eq_of_le (by norm_num; omega) (by norm_num; omega)

theorem int64_natCast {x : ℕ} (h : x < 2 ^ 63) : int64 x = x := by
  apply int64_of_mem
  · unfold int64Min
    omega
  · unfold int64Max
    omega

theorem int64_int64_add (x y : ℤ) : int64 (int64 x + y) = int64 (x + y) := Int.bmod_add_bmod

theorem int64_uint64 (x : ℕ) : int64 (uint64 x : ℕ) = int64 x := by
  unfold int64 uint64
  rw [Int.natCast_mod]
  exact Int.emod_bmod _ _

namespace RelocReach

variable {r : RelocReach} {m d d' : ℤ}

theorem inWindow_iff : r.inWindow d = true ↔ r.minDelta ≤ d ∧ d ≤ r.maxDelta := by
  simp [inWindow]

/-- The window contains zero, and its ends are 64-bit integers. -/
def Centred (r : RelocReach) : Prop :=
  int64Min ≤ r.minDelta ∧ r.minDelta ≤ 0 ∧ 0 ≤ r.maxDelta ∧ r.maxDelta ≤ int64Max

theorem Centred.symmetricReach_le (h : r.Centred) :
    0 ≤ r.symmetricReach ∧ r.symmetricReach ≤ r.maxDelta ∧ r.symmetricReach ≤ -r.minDelta := by
  obtain ⟨h1, h2, h3, h4⟩ := h
  unfold symmetricReach
  by_cases hmin : r.minDelta = int64Min
  · simp only [hmin, ↓reduceIte]
    unfold int64Max int64Min at *
    omega
  · have hneg : int64 (-r.minDelta) = -r.minDelta := by
      refine int64_of_mem ?_ ?_ <;> unfold int64Min int64Max at * <;> omega
    simp only [hmin, ↓reduceIte, hneg]
    omega

end RelocReach

namespace VeneerLayout

variable (L : VeneerLayout)

def bytesBefore (i : ℕ) : ℕ := (L.functionSizes.take i).sum

def baseOf (t : VeneerLayoutTarget) : ℕ :=
  if t.function = kVeneerTargetIsStub then L.bytesBefore L.n + t.pastTextEnd
  else L.bytesBefore t.function

def room : ℕ := L.farSites * L.largestBody

/-- **A well-formed layout.**  Every window of a branch contains zero, and no address or distance
of the layout, with the veneers of all far sites added, leaves the 64-bit range. -/
structure WellFormed : Prop where
  reaches : ∀ r ∈ L.reaches, r.Centred
  bodies : ∀ b ∈ L.bodies, int64Min ≤ b.reach.minDelta ∧ b.reach.minDelta + L.room ≤ int64Max ∧
    int64Min ≤ b.reach.maxDelta - L.room ∧ b.reach.maxDelta ≤ int64Max
  functions : L.n ≤ kVeneerTargetIsStub
  /-- The indices of the veneers are signed 32-bit integers. -/
  sites : L.sites.length < 2 ^ 31
  text : L.bytesBefore L.n + L.room < 2 ^ 63
  targets : ∀ t ∈ L.targets,
    int64Min ≤ L.baseOf t + t.addend - (L.bytesBefore L.n + L.room) ∧
      L.baseOf t + t.addend + L.room ≤ int64Max

variable {L}

theorem bytesBefore_succ (i : ℕ) : L.bytesBefore (i + 1) = L.bytesBefore i + L.sizeAt i := by
  unfold bytesBefore sizeAt
  rw [List.take_add_one, List.sum_append, List.getD_eq_getElem?_getD]
  cases L.functionSizes[i]? <;> simp

theorem bytesBefore_mono {i j : ℕ} (h : i ≤ j) : L.bytesBefore i ≤ L.bytesBefore j := by
  induction j, h using Nat.le_induction with
  | base => exact le_refl _
  | succ j _ ih => exact ih.trans (by rw [bytesBefore_succ]; omega)

theorem start_eq (h : L.bytesBefore L.n < 2 ^ 63) {i : ℕ} (hi : i ≤ L.n) :
    L.start i = L.bytesBefore i := by
  induction i with
  | zero => rfl
  | succ i ih =>
    have hle := bytesBefore_mono (L := L) hi
    unfold start
    rw [ih (by omega), ← bytesBefore_succ, uint64_of_lt (by omega)]

def SiteFits (L : VeneerLayout) (s : VeneerLayoutSite) : Prop :=
  s.function < L.n ∧ s.target < L.targets.length ∧ s.reach < L.reaches.length ∧
    s.offset < L.sizeAt s.function

def sitePos (L : VeneerLayout) (s : VeneerLayoutSite) : ℕ := L.bytesBefore s.function + s.offset

def targetPos (L : VeneerLayout) (t : VeneerLayoutTarget) : ℤ := L.baseOf t + t.addend

theorem SiteFits.sitePos_lt {s : VeneerLayoutSite} (h : L.SiteFits s) :
    L.sitePos s < L.bytesBefore (s.function + 1) := by
  have := h.2.2.2
  rw [bytesBefore_succ]
  unfold sitePos
  omega

theorem SiteFits.sitePos_lt_text {s : VeneerLayoutSite} (h : L.SiteFits s) :
    L.sitePos s < L.bytesBefore L.n := h.sitePos_lt.trans_le (bytesBefore_mono h.1)

def TargetFits (L : VeneerLayout) (t : VeneerLayoutTarget) : Prop :=
  t.function = kVeneerTargetIsStub ∨ t.function < L.n

theorem posOf_of_shift {start shift : ℕ → ℕ} {t : VeneerLayoutTarget}
    (hs : ∀ i ≤ L.n, start i = L.bytesBefore i + shift i) (ht : L.TargetFits t) :
    ∃ i ≤ L.n, L.posOf start t = int64 (L.targetPos t + shift i) := by
  unfold posOf targetPos baseOf
  by_cases hstub : t.function = kVeneerTargetIsStub
  · refine ⟨L.n, le_refl _, ?_⟩
    simp only [hstub, ↓reduceIte, hs L.n (le_refl _), int64_uint64, int64_int64_add]
    congr 1
    push_cast
    ring
  · have hlt := ht.resolve_left hstub
    refine ⟨t.function, hlt.le, ?_⟩
    simp only [hstub, ↓reduceIte, hs _ hlt.le, int64_int64_add]
    congr 1
    push_cast
    ring

theorem siteAt_of_shift {start shift : ℕ → ℕ} {s : VeneerLayoutSite}
    (hs : ∀ i ≤ L.n, start i = L.bytesBefore i + shift i) (h : L.SiteFits s) :
    siteAt start s = int64 (L.sitePos s + shift s.function) := by
  unfold siteAt sitePos
  rw [int64_uint64, hs _ h.1.le]
  congr 1
  push_cast
  ring

section Inserted

variable (L)

def total (vs : List PlannedVeneer) : ℕ := (vs.map L.sizeOf).sum

def bytesWhere (vs : List PlannedVeneer) (p : ℕ → Bool) : ℕ :=
  L.total (vs.filter fun v => p v.boundary)

variable {L} {vs : List PlannedVeneer}

theorem bytesWhere_cons (v : PlannedVeneer) (vs : List PlannedVeneer) (p : ℕ → Bool) :
    L.bytesWhere (v :: vs) p = (if p v.boundary then L.sizeOf v else 0) + L.bytesWhere vs p := by
  unfold bytesWhere total
  cases hp : p v.boundary <;> simp [hp]

theorem bytesWhere_le_total (vs : List PlannedVeneer) (p : ℕ → Bool) :
    L.bytesWhere vs p ≤ L.total vs := by
  induction vs with
  | nil => exact le_refl _
  | cons v vs ih =>
    rw [bytesWhere_cons]
    have htotal : L.total (v :: vs) = L.sizeOf v + L.total vs := by simp [total]
    split <;> omega

theorem bytesWhere_take_le (vs : List PlannedVeneer) (i : ℕ) (p : ℕ → Bool) :
    L.bytesWhere (vs.take i) p ≤ L.bytesWhere vs p := by
  induction vs generalizing i with
  | nil => simp
  | cons v vs ih =>
    cases i with
    | zero => simp [bytesWhere, total]
    | succ i =>
      rw [List.take_succ_cons, bytesWhere_cons, bytesWhere_cons]
      exact Nat.add_le_add_left (ih i) _

theorem bytesWhere_lt_succ (vs : List PlannedVeneer) (b : ℕ) :
    L.bytesWhere vs (fun k => decide (k < b + 1)) =
      L.bytesWhere vs (fun k => decide (k < b)) + L.bytesWhere vs fun k => decide (k = b) := by
  induction vs with
  | nil => rfl
  | cons v vs ih =>
    simp only [bytesWhere_cons, decide_eq_true_eq]
    split_ifs <;> omega

theorem foldl_fill (vs : List PlannedVeneer) (filled : ℕ → ℕ) (b : ℕ)
    (h : filled b + L.bytesWhere vs (fun k => decide (k = b)) < 2 ^ 64) :
    vs.foldl L.fill filled b = filled b + L.bytesWhere vs fun k => decide (k = b) := by
  induction vs generalizing filled with
  | nil => rfl
  | cons v vs ih =>
    rw [bytesWhere_cons] at h ⊢
    simp only [decide_eq_true_eq] at h ⊢
    have hfill : L.fill filled v b = filled b + if v.boundary = b then L.sizeOf v else 0 := by
      unfold fill
      by_cases hb : v.boundary = b
      · subst hb
        simp only [↓reduceIte] at h ⊢
        rw [Function.update_self, uint64_of_lt (by omega)]
      · rw [Function.update_of_ne (Ne.symm hb)]
        simp [hb]
    rw [List.foldl_cons, ih _ (by rw [hfill]; omega), hfill]
    omega

variable (hfit : L.bytesBefore L.n + L.total vs < 2 ^ 63)
include hfit

theorem islandBytes_eq (b : ℕ) : L.islandBytes vs b = L.bytesWhere vs fun k => decide (k = b) := by
  have hle := bytesWhere_le_total (L := L) vs fun k => decide (k = b)
  unfold islandBytes
  rw [foldl_fill _ _ _ (by omega)]
  simp

theorem before_eq {b : ℕ} (hb : b ≤ L.n) :
    L.before vs b = (L.bytesBefore b, L.bytesWhere vs fun k => decide (k < b)) := by
  induction b with
  | zero =>
    simp [before, bytesBefore, bytesWhere, total]
  | succ b ih =>
    have hle := bytesBefore_mono (L := L) hb
    have hins := bytesWhere_le_total (L := L) vs fun k => decide (k < b + 1)
    unfold before
    rw [ih (by omega)]
    simp only
    rw [islandBytes_eq hfit, ← bytesWhere_lt_succ, ← bytesBefore_succ, uint64_of_lt (by omega),
      uint64_of_lt (by omega)]

theorem fstart_eq {b : ℕ} (hb : b ≤ L.n) :
    L.fstart vs b = L.bytesBefore b + L.bytesWhere vs fun k => decide (k < b + 1) := by
  have hle := bytesBefore_mono (L := L) hb
  have hins := bytesWhere_le_total (L := L) vs fun k => decide (k < b + 1)
  have hinner : uint64 (L.bytesWhere vs fun k => decide (k < b + 1)) =
      L.bytesWhere vs fun k => decide (k < b + 1) := uint64_of_lt (by omega)
  unfold fstart
  rw [before_eq hfit hb]
  simp only
  rw [islandBytes_eq hfit, ← bytesWhere_lt_succ, hinner, uint64_of_lt (by omega)]

theorem islandBase_eq {b : ℕ} (hb : b ≤ L.n) :
    L.islandBase vs b = L.bytesBefore b + L.bytesWhere vs fun k => decide (k < b) := by
  have hle := bytesBefore_mono (L := L) hb
  have hins := bytesWhere_le_total (L := L) vs fun k => decide (k < b)
  unfold islandBase
  rw [before_eq hfit hb]
  exact uint64_of_lt (by omega)

omit hfit in
theorem stack_getElem? (base filled : ℕ → ℕ) (vs : List PlannedVeneer) (i : ℕ) {v : PlannedVeneer}
    (hv : vs[i]? = some v) :
    (L.stack base filled vs)[i]? =
      some (uint64 (base v.boundary + (vs.take i).foldl L.fill filled v.boundary)) := by
  induction vs generalizing i filled with
  | nil => simp at hv
  | cons u vs ih =>
    cases i with
    | zero =>
      obtain rfl : u = v := by simpa using hv
      simp [stack]
    | succ i => exact ih (L.fill filled u) i (by simpa using hv)

theorem vpos_eq {i : ℕ} {v : PlannedVeneer} (hv : vs[i]? = some v) (hb : v.boundary ≤ L.n) :
    ∃ δ ≤ L.total vs, (L.vpos vs)[i]? = some (L.bytesBefore v.boundary + δ) := by
  have hle := bytesBefore_mono (L := L) hb
  have htake := bytesWhere_take_le (L := L) vs i fun k => decide (k = v.boundary)
  have hsucc := bytesWhere_lt_succ (L := L) vs v.boundary
  have hins := bytesWhere_le_total (L := L) vs fun k => decide (k < v.boundary + 1)
  refine ⟨L.bytesWhere vs (fun k => decide (k < v.boundary)) +
    L.bytesWhere (vs.take i) (fun k => decide (k = v.boundary)), by omega, ?_⟩
  unfold vpos
  rw [stack_getElem? _ _ _ _ hv, islandBase_eq hfit hb, foldl_fill _ _ _ (by omega),
    uint64_of_lt (by omega)]
  congr 1
  omega

end Inserted

end VeneerLayout

end DssPrime
