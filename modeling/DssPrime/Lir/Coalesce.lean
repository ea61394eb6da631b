import DssPrime.Lir.RegAlloc

/-!
# The free lists and the classes of the allocator

What the scan relies on: no register is on the free lists twice (`buildFreeLists_nodup`), and the
coalesced classes partition the ranges into classes of ranges that do not overlap, each inside the
hull of its class (`CoalescePartition.Sound`, `partitionOf_sound`).
-/

namespace DssPrime

def RegList.all (b : RegList) : List ℕ := b.calleeSaved ++ b.callerSaved

def FreeNodup (free : FreeListsByClass) : Prop := ∀ c, (free c).all.Nodup

theorem drawReserve_sublist (argOrdinals : List ℕ) (scan : ℕ) (l : List ℕ) (want : ℕ) :
    ((drawReserve argOrdinals scan l want).1).Sublist l := by
  induction scan generalizing l want with
  | zero => exact List.Sublist.refl l
  | succ scan ih =>
    unfold drawReserve
    split_ifs
    · exact List.Sublist.refl l
    · exact ih l want
    · exact (ih _ _).trans (List.eraseIdx_sublist l scan)

theorem reserveFrom_nodup (argOrdinals : List ℕ) (k : ℕ) {bucket : RegList}
    (h : bucket.all.Nodup) : (reserveFrom argOrdinals k bucket).1.all.Nodup := by
  have hcaller := drawReserve_sublist argOrdinals bucket.callerSaved.length bucket.callerSaved k
  unfold reserveFrom
  split_ifs
  · exact h
  simp only
  split_ifs
  · exact h.sublist ((drawReserve_sublist _ _ _ _).append hcaller)
  · exact h.sublist ((List.Sublist.refl _).append hcaller)

/-- The registers sorted so far are listed once, and are those before `k`. -/
def ListedBefore (k : ℕ) (free : FreeListsByClass) : Prop :=
  ∀ c, (free c).all.Nodup ∧ ∀ x ∈ (free c).all, x < k

theorem ListedBefore.update {k : ℕ} {free : FreeListsByClass} (h : ListedBefore k free)
    {c : LirRegClass} {bucket : RegList} (hb : bucket.all.Perm (k :: (free c).all)) :
    ListedBefore (k + 1) (Function.update free c bucket) := by
  intro c'
  by_cases hc : c' = c
  · subst hc
    rw [Function.update_self]
    obtain ⟨hnodup, hlt⟩ := h c'
    have hk : k ∉ (free c').all := fun hmem => Nat.lt_irrefl k (hlt k hmem)
    refine ⟨hb.nodup_iff.2 (List.nodup_cons.2 ⟨hk, hnodup⟩), fun x hx => ?_⟩
    rcases List.mem_cons.1 (hb.mem_iff.1 hx) with rfl | hx
    · exact Nat.lt_succ_self _
    · exact Nat.lt_succ_of_lt (hlt x hx)
  · rw [Function.update_of_ne hc]
    exact ⟨(h c').1, fun x hx => Nat.lt_succ_of_lt ((h c').2 x hx)⟩

theorem all_append_callerSaved (b : RegList) (k : ℕ) :
    ({ b with callerSaved := b.callerSaved ++ [k] } : RegList).all.Perm (k :: b.all) := by
  simp only [RegList.all, ← List.append_assoc]
  exact List.perm_append_singleton k _

theorem all_append_calleeSaved (b : RegList) (k : ℕ) :
    ({ b with calleeSaved := b.calleeSaved ++ [k] } : RegList).all.Perm (k :: b.all) := by
  simp only [RegList.all, List.append_assoc, List.singleton_append]
  exact List.perm_middle

theorem ListedBefore.addFreeReg {cc : TargetCallingConvention} {fp : Option ℕ} {k : ℕ}
    {free : FreeListsByClass} (h : ListedBefore k free) (info : TargetRegister) :
    ListedBefore (k + 1) (addFreeReg cc fp free (info, k)) := by
  have hmono : ListedBefore (k + 1) free :=
    fun c => ⟨(h c).1, fun x hx => Nat.lt_succ_of_lt ((h c).2 x hx)⟩
  unfold DssPrime.addFreeReg
  simp only
  by_cases h1 : info.regClass = .none
  · rw [if_pos h1]
    exact hmono
  rw [if_neg h1]
  by_cases h2 : info.name ∉ cc.allocatable
  · rw [if_pos h2]
    exact hmono
  rw [if_neg h2]
  by_cases h3 : fp = some k
  · rw [if_pos h3]
    exact hmono
  rw [if_neg h3]
  refine h.update ?_
  split_ifs
  · exact all_append_callerSaved _ k
  · exact all_append_calleeSaved _ k

theorem listedBefore_foldl {cc : TargetCallingConvention} {fp : Option ℕ}
    (regs : List TargetRegister) (k : ℕ) {free : FreeListsByClass} (h : ListedBefore k free) :
    ListedBefore (k + regs.length) ((regs.zipIdx k).foldl (addFreeReg cc fp) free) := by
  induction regs generalizing k free with
  | nil => exact h
  | cons info regs ih =>
    rw [List.zipIdx_cons, List.foldl_cons, List.length_cons, Nat.add_comm regs.length,
      ← Nat.add_assoc]
    exact ih (k + 1) (h.addFreeReg info)

theorem buildFreeLists_nodup (regs : List TargetRegister) (cc : TargetCallingConvention)
    (reserve : LirRegClass → ℕ) (fp : Option ℕ) :
    FreeNodup (buildFreeLists regs cc reserve fp) := by
  have hstart : ListedBefore 0 fun _ => ⟨[], []⟩ :=
    fun c => ⟨List.nodup_nil, fun x hx => by cases hx⟩
  intro c
  exact reserveFrom_nodup _ _ (listedBefore_foldl regs 0 hstart c).1

/-- A forest whose parents are never larger than their children, and in which a register with a
range has a parent with one. -/
structure Forest (valid : ℕ → Prop) (parent : ℕ → ℕ) : Prop where
  le : ∀ x, parent x ≤ x
  valid : ∀ x, valid x → valid (parent x)

theorem Forest.halve {valid : ℕ → Prop} {parent : ℕ → ℕ} (h : Forest valid parent) (x : ℕ) :
    Forest valid (Function.update parent x (parent (parent x))) where
  le := by
    intro y
    by_cases hy : y = x
    · subst hy
      rw [Function.update_self]
      exact (h.le _).trans (h.le y)
    · rw [Function.update_of_ne hy]
      exact h.le y
  valid := by
    intro y hv
    by_cases hy : y = x
    · subst hy
      rw [Function.update_self]
      exact h.valid _ (h.valid _ hv)
    · rw [Function.update_of_ne hy]
      exact h.valid y hv

theorem Forest.halve_root {valid : ℕ → Prop} {parent : ℕ → ℕ} (h : Forest valid parent) {x : ℕ}
    (hx : parent x ≠ x) (y : ℕ) :
    Function.update parent x (parent (parent x)) y = y ↔ parent y = y := by
  by_cases hy : y = x
  · subst hy
    rw [Function.update_self]
    have h1 := h.le y
    have h2 := h.le (parent y)
    omega
  · rw [Function.update_of_ne hy]

theorem Forest.findRoot {valid : ℕ → Prop} (fuel : ℕ) {parent : ℕ → ℕ} (h : Forest valid parent)
    {x : ℕ} (hx : x < fuel) :
    let r := findRoot fuel parent x
    Forest valid r.1 ∧ (∀ y, r.1 y = y ↔ parent y = y) ∧ r.1 r.2 = r.2 ∧
      (valid x → valid r.2) := by
  induction fuel generalizing parent x with
  | zero => omega
  | succ fuel ih =>
    unfold DssPrime.findRoot
    by_cases hroot : parent x = x
    · rw [if_neg (not_not.2 hroot)]
      exact ⟨h, fun _ => Iff.rfl, hroot, id⟩
    · simp only [ne_eq, hroot, not_false_eq_true, ↓reduceIte, Function.update_self]
      have hlt : parent (parent x) < fuel := by
        have h1 := h.le x
        have h2 := h.le (parent x)
        omega
      obtain ⟨g1, g2, g3, g4⟩ := ih (h.halve x) hlt
      refine ⟨g1, fun y => (g2 y).trans (h.halve_root hroot y), g3, fun hv => g4 ?_⟩
      exact h.valid _ (h.valid _ hv)

/-- The ranges of the registers: not empty, and listed under their register. -/
def RangesOk (rangeOf : ℕ → LirLiveRange) : Prop :=
  ∀ x, (rangeOf x).vreg ≠ 0 → (rangeOf x).vreg = x ∧ (rangeOf x).start < (rangeOf x).end

def HasRange (rangeOf : ℕ → LirLiveRange) (x : ℕ) : Prop := (rangeOf x).vreg ≠ 0

namespace CoalescePartition

/-- The classes partition the registers with ranges; the ranges of a class lie in its hull and do
not overlap. -/
structure Sound (rangeOf : ℕ → LirLiveRange) (p : CoalescePartition) : Prop where
  forest : Forest (HasRange rangeOf) p.parent
  cover : ∀ x, HasRange rangeOf x → ∃ r, x ∈ p.members r
  root : ∀ r x, x ∈ p.members r → p.parent r = r ∧ HasRange rangeOf r ∧ HasRange rangeOf x
  unique : ∀ r r' x, x ∈ p.members r → x ∈ p.members r' → r = r'
  self : ∀ r, HasRange rangeOf r → p.parent r = r → r ∈ p.members r
  within : ∀ r x, x ∈ p.members r → (p.hull r).start ≤ (rangeOf x).start ∧
    (rangeOf x).end ≤ (p.hull r).end ∧ (rangeOf x).regClass = (p.hull r).regClass
  apart : ∀ r x y, x ∈ p.members r → y ∈ p.members r → x ≠ y →
    lirRangesInterfere (rangeOf x) (rangeOf y) = false
  hull : ∀ r, HasRange rangeOf r → (p.hull r).start < (p.hull r).end ∧ (p.hull r).vreg ≠ 0

variable {rangeOf : ℕ → LirLiveRange} {p : CoalescePartition}

theorem sound_singletons (h : RangesOk rangeOf) : Sound rangeOf (singletons rangeOf) where
  forest := ⟨fun x => le_refl x, fun x hx => hx⟩
  cover := fun x hx => ⟨x, by simp [singletons, show (rangeOf x).vreg ≠ 0 from hx]⟩
  root := by
    intro r x hx
    simp only [singletons] at hx
    split_ifs at hx with hv
    · obtain rfl := List.mem_singleton.1 hx
      exact ⟨rfl, hv, hv⟩
    · cases hx
  unique := by
    intro r r' x hx hx'
    simp only [singletons] at hx hx'
    split_ifs at hx hx'
    · rw [← List.mem_singleton.1 hx, ← List.mem_singleton.1 hx']
    all_goals simp at hx hx'
  self := fun r hr _ => by simp [singletons, show (rangeOf r).vreg ≠ 0 from hr]
  within := by
    intro r x hx
    simp only [singletons] at hx ⊢
    split_ifs at hx
    · obtain rfl := List.mem_singleton.1 hx
      exact ⟨le_refl _, le_refl _, rfl⟩
    · cases hx
  apart := by
    intro r x y hx hy hne
    simp only [singletons] at hx hy
    split_ifs at hx hy
    · exact absurd ((List.mem_singleton.1 hx).trans (List.mem_singleton.1 hy).symm) hne
    all_goals simp at hx
  hull := fun r hr => ⟨(h r hr).2, hr⟩

theorem Sound.of_parent (h : Sound rangeOf p) {q : CoalescePartition}
    (hhull : q.hull = p.hull) (hmembers : q.members = p.members)
    (hforest : Forest (HasRange rangeOf) q.parent) (hroots : ∀ y, q.parent y = y ↔ p.parent y = y) :
    Sound rangeOf q where
  forest := hforest
  cover := by rw [hmembers]; exact h.cover
  root := by
    intro r x hx
    rw [hmembers] at hx
    obtain ⟨h1, h2, h3⟩ := h.root r x hx
    exact ⟨(hroots r).2 h1, h2, h3⟩
  unique := by rw [hmembers]; exact h.unique
  self := by
    intro r hr hroot
    rw [hmembers]
    exact h.self r hr ((hroots r).1 hroot)
  within := by rw [hmembers, hhull]; exact h.within
  apart := by rw [hmembers]; exact h.apart
  hull := by rw [hhull]; exact h.hull

theorem Sound.find (h : Sound rangeOf p) (x : ℕ) :
    Sound rangeOf (p.find x).1 ∧ (p.find x).1.hull = p.hull ∧
      (∀ y, (p.find x).1.parent y = y ↔ p.parent y = y) ∧
      p.parent (p.find x).2 = (p.find x).2 ∧
      (HasRange rangeOf x → HasRange rangeOf (p.find x).2) := by
  obtain ⟨h1, h2, h3, h4⟩ := h.forest.findRoot (x + 1) (Nat.lt_succ_self x)
  exact ⟨h.of_parent rfl rfl h1 h2, rfl, h2, (h2 _).1 h3, h4⟩

theorem Sound.probe {forbidden : List (ℕ × ℕ)} {ra rb : ℕ} (side : List ℕ)
    (h : Sound rangeOf p) :
    let q := (probe forbidden ra rb side p).1
    Sound rangeOf q ∧ q.hull = p.hull ∧ ∀ y, q.parent y = y ↔ p.parent y = y := by
  induction side generalizing p with
  | nil => exact ⟨h, rfl, fun _ => Iff.rfl⟩
  | cons fi side ih =>
    unfold CoalescePartition.probe
    simp only
    have h0 : Sound rangeOf { p with antiAffinityProbes := p.antiAffinityProbes + 1 } :=
      h.of_parent rfl rfl h.forest fun _ => Iff.rfl
    obtain ⟨h1, g1, r1, -⟩ := h0.find (forbidden.getD fi (0, 0)).1
    obtain ⟨h2, g2, r2, -⟩ := h1.find (forbidden.getD fi (0, 0)).2
    split_ifs
    · exact ⟨h2, g2.trans g1, fun y => (r2 y).trans (r1 y)⟩
    · obtain ⟨h3, g3, r3⟩ := ih h2
      exact ⟨h3, g3.trans (g2.trans g1), fun y => (r3 y).trans ((r2 y).trans (r1 y))⟩

theorem Sound.straddles (h : Sound rangeOf p) (forbidden : List (ℕ × ℕ)) (incident : ℕ → List ℕ)
    (ra rb : ℕ) :
    let q := (p.straddles forbidden incident ra rb).1
    Sound rangeOf q ∧ q.hull = p.hull ∧ ∀ y, q.parent y = y ↔ p.parent y = y :=
  Sound.probe (p := { p with antiAffinityQueries := p.antiAffinityQueries + 1 }) _
    (h.of_parent rfl rfl h.forest fun _ => Iff.rfl)

theorem interfere_false_iff {a b : LirLiveRange} :
    lirRangesInterfere a b = false ↔ b.end ≤ a.start ∨ a.end ≤ b.start := by
  unfold lirRangesInterfere
  simp only [Bool.and_eq_false_iff, decide_eq_false_iff_not, not_lt]

theorem interfere_comm (a b : LirLiveRange) : lirRangesInterfere a b = lirRangesInterfere b a :=
  Bool.and_comm _ _

theorem Sound.join (h : Sound rangeOf p) {k d : ℕ} (hkd : k < d) (hk : p.parent k = k)
    (hd : p.parent d = d) (hkr : HasRange rangeOf k) (hdr : HasRange rangeOf d)
    (hclass : (p.hull k).regClass = (p.hull d).regClass)
    (hapart : lirRangesInterfere (p.hull k) (p.hull d) = false) {q : CoalescePartition}
    (hparent : q.parent = Function.update p.parent d k)
    (hhull : q.hull = Function.update p.hull k ((p.hull k).hullWith (p.hull d)))
    (hmembers : q.members = Function.update
      (Function.update p.members k (p.members k ++ p.members d)) d []) :
    Sound rangeOf q := by
  have hmem : ∀ r x, x ∈ q.members r ↔
      (r = k ∧ (x ∈ p.members k ∨ x ∈ p.members d)) ∨ (r ≠ k ∧ r ≠ d ∧ x ∈ p.members r) := by
    intro r x
    rw [hmembers]
    by_cases hrd : r = d
    · subst hrd
      simp [hkd.ne']
    · rw [Function.update_of_ne hrd]
      by_cases hrk : r = k
      · subst hrk
        simp
      · simp [hrk, hrd]
  have hkept : ∀ r, r ≠ k → q.hull r = p.hull r := fun r hr => by
    rw [hhull, Function.update_of_ne hr]
  have hnew : q.hull k = (p.hull k).hullWith (p.hull d) := by rw [hhull, Function.update_self]
  -- a member of either class lies in the joint hull
  have hin : ∀ x, x ∈ p.members k ∨ x ∈ p.members d → (q.hull k).start ≤ (rangeOf x).start ∧
      (rangeOf x).end ≤ (q.hull k).end ∧ (rangeOf x).regClass = (q.hull k).regClass := by
    intro x hx
    rw [hnew]
    unfold LirLiveRange.hullWith
    simp only
    rcases hx with hx | hx
    · obtain ⟨h1, h2, h3⟩ := h.within k x hx
      exact ⟨by omega, by omega, h3⟩
    · obtain ⟨h1, h2, h3⟩ := h.within d x hx
      exact ⟨by omega, by omega, h3.trans hclass.symm⟩
  have hcross : ∀ x y, x ∈ p.members k → y ∈ p.members d →
      lirRangesInterfere (rangeOf x) (rangeOf y) = false := by
    intro x y hx hy
    obtain ⟨h1, h2, -⟩ := h.within k x hx
    obtain ⟨h3, h4, -⟩ := h.within d y hy
    rw [interfere_false_iff] at hapart ⊢
    omega
  refine ⟨⟨fun x => ?_, fun x hx => ?_⟩, fun x hx => ?_, fun r x hx => ?_, fun r r' x hx hx' => ?_,
    fun r hr hroot => ?_, fun r x hx => ?_, fun r x y hx hy hne => ?_, fun r hr => ?_⟩
  · rw [hparent]
    by_cases hx : x = d
    · subst hx
      rw [Function.update_self]
      exact hkd.le
    · rw [Function.update_of_ne hx]
      exact h.forest.le x
  · rw [hparent]
    by_cases hxd : x = d
    · subst hxd
      rw [Function.update_self]
      exact hkr
    · rw [Function.update_of_ne hxd]
      exact h.forest.valid x hx
  · obtain ⟨r, hr⟩ := h.cover x hx
    by_cases hrk : r = k
    · exact ⟨k, (hmem k x).2 (.inl ⟨rfl, .inl (hrk ▸ hr)⟩)⟩
    · by_cases hrd : r = d
      · exact ⟨k, (hmem k x).2 (.inl ⟨rfl, .inr (hrd ▸ hr)⟩)⟩
      · exact ⟨r, (hmem r x).2 (.inr ⟨hrk, hrd, hr⟩)⟩
  · rw [hparent]
    rcases (hmem r x).1 hx with ⟨rfl, hx⟩ | ⟨hrk, hrd, hx⟩
    · rw [Function.update_of_ne hkd.ne]
      refine ⟨hk, hkr, ?_⟩
      rcases hx with hx | hx
      · exact (h.root _ x hx).2.2
      · exact (h.root _ x hx).2.2
    · rw [Function.update_of_ne hrd]
      exact h.root r x hx
  · -- where `x` was before tells where it is now
    rcases (hmem r x).1 hx with ⟨rfl, hx⟩ | ⟨hrk, hrd, hx⟩ <;>
      rcases (hmem r' x).1 hx' with ⟨rfl, hx'⟩ | ⟨hrk', hrd', hx'⟩
    · rfl
    · rcases hx with hx | hx
      · exact absurd (h.unique _ _ x hx' hx) hrk'
      · exact absurd (h.unique _ _ x hx' hx) hrd'
    · rcases hx' with hx' | hx'
      · exact absurd (h.unique _ _ x hx hx') hrk
      · exact absurd (h.unique _ _ x hx hx') hrd
    · exact h.unique r r' x hx hx'
  · rw [hparent] at hroot
    by_cases hrd : r = d
    · subst hrd
      rw [Function.update_self] at hroot
      exact absurd hroot hkd.ne
    · rw [Function.update_of_ne hrd] at hroot
      have hself := h.self r hr hroot
      by_cases hrk : r = k
      · subst hrk
        exact (hmem _ _).2 (.inl ⟨rfl, .inl hself⟩)
      · exact (hmem _ _).2 (.inr ⟨hrk, hrd, hself⟩)
  · rcases (hmem r x).1 hx with ⟨rfl, hx⟩ | ⟨hrk, _, hx⟩
    · exact hin x hx
    · rw [hkept r hrk]
      exact h.within r x hx
  · rcases (hmem r x).1 hx with ⟨rfl, hx⟩ | ⟨hrk, _, hx⟩ <;>
      rcases (hmem _ y).1 hy with ⟨hrk', hy⟩ | ⟨hrk', _, hy⟩
    · rcases hx with hx | hx <;> rcases hy with hy | hy
      · exact h.apart _ x y hx hy hne
      · exact hcross x y hx hy
      · rw [interfere_comm]
        exact hcross y x hy hx
      · exact h.apart _ x y hx hy hne
    · exact absurd rfl hrk'
    · exact absurd hrk' hrk
    · exact h.apart r x y hx hy hne
  · by_cases hrk : r = k
    · subst hrk
      obtain ⟨h1, h2⟩ := h.hull r hr
      rw [hnew]
      unfold LirLiveRange.hullWith
      exact ⟨by simp only; omega, h2⟩
    · rw [hkept r hrk]
      exact h.hull r hr

theorem Sound.union (h : Sound rangeOf p) {ra rb : ℕ} (hne : ra ≠ rb) (ha : p.parent ra = ra)
    (hb : p.parent rb = rb) (har : HasRange rangeOf ra) (hbr : HasRange rangeOf rb)
    (hclass : (p.hull ra).regClass = (p.hull rb).regClass)
    (hapart : lirRangesInterfere (p.hull ra) (p.hull rb) = false) :
    Sound rangeOf (p.union ra rb) := by
  unfold CoalescePartition.union
  rcases Nat.lt_or_gt_of_ne hne with hlt | hlt
  · simp only [hlt, ↓reduceIte]
    exact h.join hlt ha hb har hbr hclass hapart rfl rfl rfl
  · simp only [Nat.not_lt_of_gt hlt, ↓reduceIte]
    rw [interfere_comm] at hapart
    exact h.join hlt hb ha hbr har hclass.symm hapart rfl rfl rfl

end CoalescePartition

open CoalescePartition in
theorem coalesceEdge_cases (facts : RegallocFacts) (n : ℕ) (rangeOf : ℕ → LirLiveRange)
    (hot : LirRegClass → LirLiveRange → Bool) (p : CoalescePartition) (incident : ℕ → List ℕ)
    (e : ℕ × ℕ) :
    let st := coalesceEdge facts n rangeOf hot (p, incident) e
    st = (p, incident) ∨
      (rangeOf e.1).vreg ≠ 0 ∧ (rangeOf e.2).vreg ≠ 0 ∧ ∃ p₁ p₂ p₃ ra rb straddle,
        p.find e.1 = (p₁, ra) ∧ p₁.find e.2 = (p₂, rb) ∧
        p₂.straddles facts.forbidden incident ra rb = (p₃, straddle) ∧
        (st = (p₂, incident) ∨ st = (p₃, incident) ∨
          ra ≠ rb ∧ (p₂.hull ra).regClass = (p₂.hull rb).regClass ∧
          lirRangesInterfere (p₂.hull ra) (p₂.hull rb) = false ∧ straddle = false ∧
          st = (p₃.union ra rb, mergeIncident incident ra rb)) := by
  unfold coalesceEdge
  simp only
  by_cases h0 : e.1 = 0 ∨ e.2 = 0
  · exact .inl (if_pos h0)
  rw [if_neg h0]
  by_cases hn : e.1 ≥ n ∨ e.2 ≥ n
  · exact .inl (if_pos hn)
  rw [if_neg hn]
  by_cases hr : (rangeOf e.1).vreg = 0 ∨ (rangeOf e.2).vreg = 0
  · exact .inl (if_pos hr)
  rw [if_neg hr]
  push Not at hr
  rcases hp₁ : p.find e.1 with ⟨p₁, ra⟩
  rcases hp₂ : p₁.find e.2 with ⟨p₂, rb⟩
  rcases hp₃ : p₂.straddles facts.forbidden incident ra rb with ⟨p₃, straddle⟩
  refine .inr ⟨hr.1, hr.2, p₁, p₂, p₃, ra, rb, straddle, rfl, hp₂, hp₃, ?_⟩
  dsimp only
  split_ifs with heq hclass hover hstraddle hhot
  · exact .inl rfl
  · exact .inl rfl
  · exact .inl rfl
  · exact .inr (.inl rfl)
  · exact .inr (.inl rfl)
  · exact .inr (.inr ⟨heq, not_not.1 hclass, by simpa using hover, by simpa using hstraddle, rfl⟩)

open CoalescePartition in
theorem coalesceEdge_sound {facts : RegallocFacts} {n : ℕ} {rangeOf : ℕ → LirLiveRange}
    {hot : LirRegClass → LirLiveRange → Bool} {p : CoalescePartition} {incident : ℕ → List ℕ}
    (h : Sound rangeOf p) (e : ℕ × ℕ) :
    Sound rangeOf (coalesceEdge facts n rangeOf hot (p, incident) e).1 := by
  rcases coalesceEdge_cases facts n rangeOf hot p incident e with
    hst | ⟨hv1, hv2, p₁, p₂, p₃, ra, rb, straddle, hp₁, hp₂, hp₃, hst⟩
  · rw [hst]
    exact h
  obtain ⟨h1, g1, r1, root1, v1⟩ := h.find e.1
  rw [hp₁] at h1 g1 r1 root1 v1
  obtain ⟨h2, g2, r2, root2, v2⟩ := h1.find e.2
  rw [hp₂] at h2 g2 r2 root2 v2
  obtain ⟨h3, g3, r3⟩ := h2.straddles facts.forbidden incident ra rb
  rw [hp₃] at h3 g3 r3
  rcases hst with hst | hst | ⟨heq, hclass, hover, -, hst⟩
  · rw [hst]
    exact h2
  · rw [hst]
    exact h3
  · rw [hst]
    refine h3.union heq ?_ ?_ (v1 hv1) (v2 hv2) ?_ ?_
    · exact (r3 ra).2 ((r2 ra).2 ((r1 ra).2 root1))
    · exact (r3 rb).2 ((r2 rb).2 root2)
    · rw [g3]
      exact hclass
    · rw [g3]
      exact hover

open CoalescePartition in
theorem buildCoalescePartition_sound (facts : RegallocFacts) (n : ℕ) {rangeOf : ℕ → LirLiveRange}
    (hot : LirRegClass → LirLiveRange → Bool) (h : RangesOk rangeOf) :
    Sound rangeOf (buildCoalescePartition facts n rangeOf hot) := by
  unfold buildCoalescePartition
  have key : ∀ (es : List (ℕ × ℕ)) (st : CoalescePartition × (ℕ → List ℕ)), Sound rangeOf st.1 →
      Sound rangeOf (es.foldl (coalesceEdge facts n rangeOf hot) st).1 := by
    intro es
    induction es with
    | nil => exact fun st hst => hst
    | cons e es ih => exact fun st hst => ih _ (coalesceEdge_sound hst e)
  exact key _ _ (sound_singletons h)

end DssPrime
