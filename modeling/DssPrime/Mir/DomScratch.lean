import DssPrime.Mir.Dom
import DssPrime.Run.Outcome

/-!
# Scratch reuse is invisible

The scratch overloads of `Dom` work in arrays that hold what earlier functions left. `Tidy` says
what every run keeps true of a scratch: outside the slots it has recorded as touched, its arrays are
as they were allocated.
-/

namespace DssPrime

namespace ChkArrays

/-- Only slots of `S` are set. -/
structure Within (S : List ℕ) (a : ChkArrays) : Prop where
  off : ∀ s, s ∉ S → a.idom s = none ∧ a.gaveUp s = false ∧ a.rpoIndex s = none
  idom : ∀ s v, a.idom s = some v → v ∈ S

variable {S : List ℕ} {a : ChkArrays}

theorem within_unset (S : List ℕ) : Within S unset := ⟨fun _ _ => ⟨rfl, rfl, rfl⟩, nofun⟩

theorem Within.rpoIndex_mem (h : Within S a) {s : ℕ} (hs : a.rpoIndex s ≠ none) : s ∈ S := by
  by_contra hn
  exact hs (h.off s hn).2.2

theorem Within.index (h : Within S a) {order : List ℕ} (ho : ∀ b ∈ order, b ∈ S) :
    Within S (index order a) := by
  unfold ChkArrays.index
  have key : ∀ (l : List (ℕ × ℕ)) (a : ChkArrays), (∀ b ∈ l, b.1 ∈ S) → Within S a →
      Within S (l.foldl (fun a b =>
        { a with rpoIndex := Function.update a.rpoIndex b.1 (some b.2) }) a) := by
    intro l
    induction l with
    | nil => exact fun a _ ha => ha
    | cons b l ih =>
      intro a hl ha
      obtain ⟨hb, hl⟩ := List.forall_mem_cons.1 hl
      refine ih _ hl ⟨fun s hs => ?_, ha.idom⟩
      have hne : s ≠ b.1 := fun heq => hs (heq ▸ hb)
      obtain ⟨h1, h2, h3⟩ := ha.off s hs
      exact ⟨h1, h2, by simp only [Function.update_of_ne hne, h3]⟩
  exact key _ a (fun b hb => ho _ (List.fst_mem_of_mem_zipIdx hb)) h

theorem Within.climb_mem (h : Within S a) {steps f g f' steps' : ℕ} (hf : f ∈ S)
    (hc : a.climb steps f g = some (f', steps')) : f' ∈ S := by
  induction steps generalizing f with
  | zero =>
    unfold climb at hc
    split_ifs at hc
    · split at hc
      · cases hc
      · split_ifs at hc
    · obtain ⟨rfl, -⟩ := Prod.mk.inj (Option.some.inj hc)
      exact hf
  | succ steps ih =>
    unfold climb at hc
    split_ifs at hc
    · split at hc
      · cases hc
      · rename_i next hnext
        split_ifs at hc
        exact ih (h.idom _ _ hnext) hc
    · obtain ⟨rfl, -⟩ := Prod.mk.inj (Option.some.inj hc)
      exact hf

theorem Within.intersectLoop_mem (h : Within S a) {rounds steps f g r : ℕ} (hf : f ∈ S)
    (hg : g ∈ S) (hr : a.intersectLoop rounds steps f g = some r) : r ∈ S := by
  fun_induction a.intersectLoop rounds steps f g with
  | case1 | case3 | case5 => exact Option.some.inj hr ▸ hf
  | case2 | case4 | case6 | case7 | case8 => cases hr
  | case9 rounds steps f g _ _ f' steps' hc g' steps'' hc' ih =>
    exact ih (h.climb_mem hf hc) (h.climb_mem hg hc') hr

theorem Within.meet (h : Within S a) (cap : ℕ) {b : ℕ} (hb : b ∈ S) {o : Option ℕ}
    (ho : ∀ q ∈ o, q ∈ S)
    (p : ℕ) :
    Within S (meet cap b (o, a) p).2 ∧ ∀ q ∈ (ChkArrays.meet cap b (o, a) p).1, q ∈ S := by
  unfold ChkArrays.meet
  simp only
  split_ifs with hp hi
  · exact ⟨h, ho⟩
  · exact ⟨h, ho⟩
  have hpS := h.rpoIndex_mem hp
  split
  · refine ⟨h, fun q hq => ?_⟩
    obtain rfl := Option.some.inj hq
    exact hpS
  · rename_i q
    have hqS : q ∈ S := ho q rfl
    split
    · refine ⟨⟨fun s hs => ?_, h.idom⟩, ho⟩
      have hne : s ≠ b := fun heq => hs (heq ▸ hb)
      obtain ⟨h1, h2, h3⟩ := h.off s hs
      exact ⟨h1, by simp only [Function.update_of_ne hne, h2], h3⟩
    · rename_i r hr
      refine ⟨h, fun q' hq' => ?_⟩
      obtain rfl := Option.some.inj hq'
      exact h.intersectLoop_mem hqS hpS hr

theorem Within.foldl_meet (cap : ℕ) {b : ℕ} (hb : b ∈ S) (ps : List ℕ) (o : Option ℕ)
    (a : ChkArrays)
    (h : Within S a) (ho : ∀ q ∈ o, q ∈ S) :
    Within S (ps.foldl (ChkArrays.meet cap b) (o, a)).2 ∧
      ∀ q ∈ (ps.foldl (ChkArrays.meet cap b) (o, a)).1, q ∈ S := by
  induction ps generalizing o a with
  | nil => exact ⟨h, ho⟩
  | cons p ps ih =>
    obtain ⟨h1, h2⟩ := h.meet cap hb ho p
    exact ih _ _ h1 h2

theorem Within.relax (h : Within S a) {cap b : ℕ} (hb : b ∈ S) (preds : ℕ → List ℕ) (c : Bool) :
    Within S (relax cap preds (a, c) b).1 := by
  obtain ⟨h1, h2⟩ := Within.foldl_meet cap hb (preds b) none a h (by simp)
  unfold ChkArrays.relax
  simp only
  split_ifs
  · refine ⟨fun s hs => ?_, fun s v hv => ?_⟩
    · have hne : s ≠ b := fun heq => hs (heq ▸ hb)
      obtain ⟨g1, g2, g3⟩ := h1.off s hs
      exact ⟨by simp only [Function.update_of_ne hne, g1], g2, g3⟩
    · simp only at hv
      by_cases hsb : s = b
      · subst hsb
        rw [Function.update_self] at hv
        exact h2 v hv
      · rw [Function.update_of_ne hsb] at hv
        exact h1.idom s v hv
  · exact h1

theorem Within.foldl_relax (cap : ℕ) (preds : ℕ → List ℕ) (bs : List ℕ) (hbs : ∀ b ∈ bs, b ∈ S)
    (a : ChkArrays) (c : Bool) (h : Within S a) :
    Within S (bs.foldl (ChkArrays.relax cap preds) (a, c)).1 := by
  induction bs generalizing a c with
  | nil => exact h
  | cons b bs ih =>
    obtain ⟨hb, hbs⟩ := List.forall_mem_cons.1 hbs
    exact ih hbs _ _ (h.relax hb preds c)

theorem Within.iterate {cap : ℕ} {order : List ℕ} (preds : ℕ → List ℕ) (ho : ∀ b ∈ order, b ∈ S)
    (fuel : ℕ) (h : Within S a) :
    Holds (fun _ => True) (Within S) (iterate cap order preds fuel a) := by
  induction fuel generalizing a with
  | zero => exact holds_error trivial
  | succ fuel ih =>
    have hround := Within.foldl_relax cap preds order.tail
      (fun b hb => ho b (List.mem_of_mem_tail hb)) a false h
    unfold ChkArrays.iterate
    simp only
    split_ifs
    · exact ih hround
    · exact holds_ok hround

theorem Within.runChkCoreInto {fuel nodeCount entry : ℕ} {order : List ℕ} (preds : ℕ → List ℕ)
    (h : Within S a) (ho : ∀ b ∈ order, b ∈ S) (he : entry < nodeCount → entry ∈ S) :
    Holds (fun _ => True) (Within S) (a.runChkCoreInto fuel nodeCount entry order preds) := by
  have hindex := h.index ho
  unfold ChkArrays.runChkCoreInto
  simp only
  split_ifs with hentry
  · exact holds_ok hindex
  have heS := he (Nat.lt_of_not_le hentry)
  refine Within.iterate preds ho fuel ⟨fun s hs => ?_, fun s v hv => ?_⟩
  · have hne : s ≠ entry := fun heq => hs (heq ▸ heS)
    obtain ⟨g1, g2, g3⟩ := hindex.off s hs
    exact ⟨by simp only [Function.update_of_ne hne, g1], g2, g3⟩
  · simp only at hv
    by_cases hs : s = entry
    · subst hs
      rw [Function.update_self] at hv
      exact Option.some.inj hv ▸ heS
    · rw [Function.update_of_ne hs] at hv
      exact hindex.idom s v hv

end ChkArrays

section Clear

variable {α : Type*}

def clear (l : List ℕ) (d : α) (f : ℕ → α) (x : ℕ) : α := if x ∈ l then d else f x

theorem clear_nil (d : α) (f : ℕ → α) : clear [] d f = f := by
  funext x
  simp [clear]

theorem clear_update (l : List ℕ) (d : α) (f : ℕ → α) (s : ℕ) :
    clear l d (Function.update f s d) = clear (s :: l) d f := by
  funext x
  unfold clear
  by_cases hx : x ∈ l
  · simp [hx]
  · by_cases hs : x = s
    · simp [hs]
    · simp [hx, hs]

theorem foldl_update (l : List ℕ) (d : α) (f : ℕ → α) :
    l.foldl (fun f s => Function.update f s d) f = clear l d f := by
  induction l generalizing f with
  | nil => exact (clear_nil d f).symm
  | cons s l ih => rw [List.foldl_cons, ih, clear_update]

theorem clear_eq {l : List ℕ} {d : α} {f : ℕ → α} (h : ∀ s, s ∉ l → f s = d) :
    clear l d f = fun _ => d := by
  funext x
  unfold clear
  split_ifs with hx
  · rfl
  · exact h x hx

end Clear

theorem foldl_filter_of_skip {α β : Type*} {f : β → α → β} {p : α → Bool}
    (hskip : ∀ b a, p a = false → f b a = b) (l : List α) (b : β) :
    (l.filter p).foldl f b = l.foldl f b := by
  induction l generalizing b with
  | nil => rfl
  | cons a l ih =>
    cases hp : p a with
    | true => simp only [List.filter_cons, hp, ↓reduceIte, List.foldl_cons, ih]
    | false =>
      simp only [List.filter_cons, hp, Bool.false_eq_true, ↓reduceIte, List.foldl_cons, ih,
        hskip b a hp]

theorem foldlM_filter_of_skip {ε α β : Type} {f : β → α → Except ε β} {p : α → Bool}
    (hskip : ∀ b a, p a = false → f b a = .ok b) (l : List α) (b : β) :
    (l.filter p).foldlM f b = l.foldlM f b := by
  induction l generalizing b with
  | nil => rfl
  | cons a l ih =>
    cases hp : p a with
    | true => simp only [List.filter_cons, hp, ↓reduceIte, List.foldlM_cons, ih]
    | false =>
      simp only [List.filter_cons, hp, Bool.false_eq_true, ↓reduceIte, List.foldlM_cons,
        hskip b a hp]
      exact ih b

theorem mem_unique {l : List ℕ} {x : ℕ} : x ∈ unique l ↔ x ∈ l := by
  fun_induction unique l with
  | case1 | case2 => rfl
  | case3 a l ih => rw [ih, List.mem_cons (b := a) (l := a :: l), List.mem_cons]; tauto
  | case4 a b l hne ih => rw [List.mem_cons, ih, List.mem_cons (l := b :: l)]

theorem unique_pairwise {l : List ℕ} (h : l.Pairwise (· ≤ ·)) : (unique l).Pairwise (· < ·) := by
  fun_induction unique l with
  | case1 => exact .nil
  | case2 => simp
  | case3 a l ih => exact ih (List.pairwise_cons.1 h).2
  | case4 a b l hne ih =>
    obtain ⟨ha, hl⟩ := List.pairwise_cons.1 h
    refine List.pairwise_cons.2 ⟨fun c hc => ?_, ih hl⟩
    have hac := ha c (mem_unique.1 hc)
    have hab := ha b (by simp)
    rcases List.mem_cons.1 (mem_unique.1 hc) with rfl | hc
    · omega
    · have hbc := (List.pairwise_cons.1 hl).1 c hc
      omega

theorem unique_mergeSort_eq {l : List ℕ} {n : ℕ} (h : ∀ x ∈ l, x < n) :
    unique (l.mergeSort (· ≤ ·)) = (List.range n).filter (fun x => decide (x ∈ l)) := by
  have hsorted : (l.mergeSort (· ≤ ·)).Pairwise (· ≤ ·) := by
    have := @List.pairwise_mergeSort ℕ (fun a b => decide (a ≤ b))
      (fun a b c hab hbc => by simp only [decide_eq_true_eq] at *; omega)
      (fun a b => by simp only [Bool.or_eq_true, decide_eq_true_eq]; omega) l
    simpa using this
  have h1 := unique_pairwise hsorted
  have h2 : ((List.range n).filter (fun x => decide (x ∈ l))).Pairwise (· < ·) :=
    List.pairwise_lt_range.filter _
  refine List.Perm.eq_of_pairwise (fun a b _ _ hab hba => by omega) h1 h2 ?_
  refine (List.perm_ext_iff_of_nodup (h1.imp Nat.ne_of_lt) (h2.imp Nat.ne_of_lt)).2 fun x => ?_
  rw [mem_unique, List.mem_mergeSort, List.mem_filter, List.mem_range, decide_eq_true_eq]
  exact ⟨fun hx => ⟨h x hx, hx⟩, fun hx => hx.2⟩

namespace MirDomScratch

/-- Outside the slots it has recorded, a scratch is as it was allocated. -/
structure Tidy (sc : MirDomScratch) : Prop where
  core : sc.core.Within sc.touched
  tree : ∀ s, s ∉ sc.touched → sc.tree.idom s = none ∧ sc.tree.gaveUp s = false
  parent : ∀ s v, sc.tree.idom s = some v → v ∈ sc.touched
  children : ∀ s, s ∉ sc.touched → sc.children s = []
  frontier : ∀ s, s ∉ sc.frontier.first → sc.frontier.df s = []
  size : sc.tree.size = sc.blockCount

theorem tidy_empty : empty.Tidy where
  core := ChkArrays.within_unset _
  tree := fun _ _ => ⟨rfl, rfl⟩
  parent := nofun
  children := fun _ _ => rfl
  frontier := fun _ _ => rfl
  size := rfl

def Fits (sc : MirDomScratch) (A : MirDomInput) : Prop :=
  (sc.blockCount = 0 ∧ sc.moduleIdV = 0) ∨
    (sc.moduleIdV = A.moduleId ∧ sc.blockCount = A.blockCount)

theorem Tidy.bind {sc : MirDomScratch} (h : sc.Tidy) (A : MirDomInput) :
    Holds (fun _ => ¬ sc.Fits A)
      (fun sc' => sc'.Tidy ∧ sc'.moduleIdV = A.moduleId ∧ sc'.blockCount = A.blockCount)
      (sc.bind A) := by
  unfold MirDomScratch.bind
  split_ifs with hunbound hstale
  · exact holds_ok ⟨⟨ChkArrays.within_unset _, fun _ _ => ⟨rfl, rfl⟩, nofun, fun _ _ => rfl,
      fun _ _ => rfl, rfl⟩, rfl, rfl⟩
  · refine holds_error ?_
    rintro (hfits | ⟨h1, h2⟩)
    · exact hunbound hfits
    · exact hstale.elim (fun hne => hne h1) fun hne => hne h2
  · push Not at hstale
    exact holds_ok ⟨h, hstale.1, hstale.2⟩

theorem foldl_resetSlot (l : List ℕ) (sc : MirDomScratch) :
    l.foldl resetSlot sc = { sc with
      core :=
        { idom := clear l none sc.core.idom
          gaveUp := clear l false sc.core.gaveUp
          rpoIndex := clear l none sc.core.rpoIndex }
      tree :=
        { sc.tree with
          idom := clear l none sc.tree.idom
          gaveUp := clear l false sc.tree.gaveUp }
      children := clear l [] sc.children } := by
  induction l generalizing sc with
  | nil => simp only [List.foldl_nil, clear_nil]
  | cons s l ih =>
    rw [List.foldl_cons, ih]
    simp only [resetSlot, clear_update]

theorem Tidy.reset {sc : MirDomScratch} (h : sc.Tidy) :
    sc.reset = { empty with
      moduleIdV := sc.moduleIdV
      blockCount := sc.blockCount
      tree := .unset sc.blockCount
      touchedSorted := sc.touchedSorted
      childrenFilled := sc.childrenFilled } := by
  have hcore := h.core.off
  unfold MirDomScratch.reset
  simp only [foldl_resetSlot, foldl_update, clear_eq h.frontier, clear_eq h.children,
    clear_eq fun s hs => (hcore s hs).1, clear_eq fun s hs => (hcore s hs).2.1,
    clear_eq fun s hs => (hcore s hs).2.2, clear_eq fun s hs => (h.tree s hs).1,
    clear_eq fun s hs => (h.tree s hs).2, h.size]
  rfl

theorem computeMirDomTree_eq_empty {sc : MirDomScratch} (h : sc.Tidy) {A : MirDomInput}
    (hfits : sc.Fits A) (fuel : ℕ) :
    sc.computeMirDomTree fuel A = empty.computeMirDomTree fuel A := by
  obtain ⟨sc', hbind, htidy, hid, hbc⟩ := (h.bind A).exists_ok fun _ hn => hn hfits
  obtain ⟨e', hbind', htidy', hid', hbc'⟩ :=
    (tidy_empty.bind A).exists_ok fun _ hn => hn (.inl ⟨rfl, rfl⟩)
  unfold computeMirDomTree
  rw [hbind, hbind']
  change (if _ then _ else sc'.reset.computeInto fuel A) =
    if _ then _ else e'.reset.computeInto fuel A
  rw [htidy.reset, htidy'.reset, hid, hbc, hid', hbc']
  rfl

theorem computeMirDomTree_empty {A : MirDomInput} (hp : A.preds.length = A.blockCount) (fuel : ℕ) :
    empty.computeMirDomTree fuel A = computeInto fuel A { empty with
      moduleIdV := A.moduleId
      blockCount := A.blockCount
      tree := .unset A.blockCount } := by
  have hbind : empty.bind A = .ok { empty with
      moduleIdV := A.moduleId
      blockCount := A.blockCount
      tree := .unset A.blockCount } := rfl
  unfold computeMirDomTree
  rw [hbind]
  simp only [hp, ne_eq, not_true_eq_false, ↓reduceIte]
  rfl

end MirDomScratch

namespace MirDomTree

theorem foldl_take (core : ChkArrays) (l : List ℕ) (t : MirDomTree) :
    l.foldl (take core) t =
      { t with
        idom := fun s => if s ∈ l then core.idom s else t.idom s
        gaveUp := fun s => if s ∈ l then core.gaveUp s else t.gaveUp s } := by
  induction l generalizing t with
  | nil => simp
  | cons a l ih =>
    rw [List.foldl_cons, ih]
    unfold take
    simp only [List.mem_cons, MirDomTree.mk.injEq, true_and]
    constructor <;> funext s <;> by_cases hl : s ∈ l <;> by_cases hs : s = a <;> simp [hl, hs]

end MirDomTree

theorem MirDomScratch.mem_touchedBy_lt {A : MirDomInput} {s : ℕ} (h : s ∈ touchedBy A) :
    s < A.blockCount := by
  unfold touchedBy at h
  rcases List.mem_append.1 h with h | h
  · exact A.order_lt s h
  · split_ifs at h with he
    · rw [List.mem_singleton.1 h]
      exact he.2
    · cases h

theorem MirDomScratch.within_touchedBy {A : MirDomInput} (he : A.entry ≠ 0) (fuel : ℕ) :
    Holds (fun _ => True) (ChkArrays.Within (touchedBy A))
      (ChkArrays.unset.runChkCoreInto fuel A.blockCount A.entry A.order
        fun b => A.preds.getD b []) := by
  refine ChkArrays.Within.runChkCoreInto _ (ChkArrays.within_unset _) ?_ ?_
  · exact fun b hb => List.mem_append_left _ hb
  · intro hlt
    unfold touchedBy
    rw [if_pos ⟨he, hlt⟩]
    simp

namespace MirDomScratch

/-- The scratch holds the tree. -/
structure Computed (A : MirDomInput) (t : MirDomTree) (sc : MirDomScratch) : Prop where
  module : sc.moduleIdV = A.moduleId ∧ sc.blockCount = A.blockCount
  tree : sc.tree = t
  touched : sc.touched = touchedBy A
  sorted : sc.touchedSorted =
    (List.range A.blockCount).filter (fun s => decide (s ∈ touchedBy A))
  off : ∀ s, s ∉ touchedBy A → t.idom s = none ∧ t.gaveUp s = false
  tidy : sc.Tidy
  children : sc.children =
    if sc.childrenFilled then DssPrime.mirDomTreeChildren A t else fun _ => []
  frontier : if sc.frontierFilled then DssPrime.mirDominanceFrontier A t = .ok sc.frontier.df
    else sc.frontier = ⟨fun _ => [], []⟩

theorem Computed.of_record {A : MirDomInput} {core : ChkArrays} {t : MirDomTree}
    (hcore : core.Within (touchedBy A)) (hsize : t.size = A.blockCount)
    (hoff : ∀ s, s ∉ touchedBy A → t.idom s = none ∧ t.gaveUp s = false)
    (hparent : ∀ s v, t.idom s = some v → v ∈ touchedBy A) {sc : MirDomScratch}
    (hmodule : sc.moduleIdV = A.moduleId ∧ sc.blockCount = A.blockCount)
    (hchildren : sc.children = fun _ => []) (hfrontier : sc.frontier = ⟨fun _ => [], []⟩)
    (hfilled : sc.frontierFilled = false) : Computed A t (sc.record A core t) where
  module := hmodule
  tree := rfl
  touched := rfl
  sorted := unique_mergeSort_eq fun _ => mem_touchedBy_lt
  off := hoff
  tidy :=
    { core := hcore
      tree := hoff
      parent := hparent
      children := fun s _ => congrFun hchildren s
      frontier := fun s _ => congrFun (congrArg MirFrontier.df hfrontier) s
      size := hsize.trans hmodule.2.symm }
  children := hchildren
  frontier := by
    have hkept : (sc.record A core t).frontierFilled = false := hfilled
    rw [hkept]
    exact hfrontier

theorem computeMirDomTree_empty_spec {A : MirDomInput} (hp : A.preds.length = A.blockCount)
    (fuel : ℕ) :
    (∃ e, empty.computeMirDomTree fuel A = .error e ∧
      DssPrime.computeMirDomTree fuel A = .error e) ∨
    ∃ sc t, empty.computeMirDomTree fuel A = .ok sc ∧ DssPrime.computeMirDomTree fuel A = .ok t ∧
      Computed A t sc := by
  rw [computeMirDomTree_empty hp]
  unfold computeInto DssPrime.computeMirDomTree
  by_cases he : A.entry = 0
  · simp only [he, ↓reduceIte]
    refine .inr ⟨_, _, rfl, rfl, ?_⟩
    refine Computed.of_record (ChkArrays.within_unset _) rfl (fun _ _ => ⟨rfl, rfl⟩) ?_
      ⟨rfl, rfl⟩ rfl rfl rfl
    intro s v hv
    cases hv
  · have hempty : empty.core = .unset := rfl
    simp only [he, ↓reduceIte, hempty]
    have hcore := within_touchedBy he fuel
    cases hrun : ChkArrays.unset.runChkCoreInto fuel A.blockCount A.entry A.order
        fun b => A.preds.getD b [] with
    | error e => exact .inl ⟨e, rfl, rfl⟩
    | ok core =>
      have hwithin := hcore.of_ok hrun
      -- taking over the touched slots or all slots is the same
      have htree : (touchedBy A).foldl (MirDomTree.take core) (.unset A.blockCount) =
          (List.range A.blockCount).foldl (MirDomTree.take core) (.unset A.blockCount) := by
        rw [MirDomTree.foldl_take, MirDomTree.foldl_take]
        simp only [MirDomTree.mk.injEq, true_and, List.mem_range]
        constructor <;> funext s <;> by_cases hs : s ∈ touchedBy A
        · simp [hs, mem_touchedBy_lt hs]
        · simp [hs, (hwithin.off s hs).1, MirDomTree.unset]
        · simp [hs, mem_touchedBy_lt hs]
        · simp [hs, (hwithin.off s hs).2.1, MirDomTree.unset]
      refine .inr ⟨_, _, rfl, rfl, ?_⟩
      simp only [← htree]
      refine Computed.of_record hwithin ?_ ?_ ?_ ⟨rfl, rfl⟩ rfl rfl rfl
      · rw [MirDomTree.foldl_take]
        rfl
      · intro s hs
        rw [MirDomTree.foldl_take]
        simp [hs, MirDomTree.unset]
      · intro s v hv
        rw [MirDomTree.foldl_take] at hv
        simp only [MirDomTree.unset] at hv
        split_ifs at hv
        exact hwithin.idom s v hv

theorem addChild_of_off {t : MirDomTree} {s : ℕ} (h : t.idom s = none) (children : ℕ → List ℕ) :
    addChild t children s = children := by
  have hvalid : t.validIdom s = none := by
    unfold MirDomTree.validIdom
    rw [h]
    split_ifs <;> rfl
  unfold addChild
  rw [hvalid]
  split_ifs <;> rfl

theorem contribution_of_off {t : MirDomTree} {s : ℕ} (h : t.idom s = none)
    (preds : List (List ℕ)) (F : MirFrontier) : F.contribution t preds s = .ok F := by
  have hvalid : t.validIdom s = none := by
    unfold MirDomTree.validIdom
    rw [h]
    split_ifs <;> rfl
  unfold MirFrontier.contribution
  simp only [hvalid]
  split_ifs <;> rfl

theorem Tidy.mirDomTreeChildren {sc : MirDomScratch} (h : sc.Tidy) :
    sc.mirDomTreeChildren.Tidy := by
  unfold MirDomScratch.mirDomTreeChildren
  split_ifs
  · exact h
  refine { h with children := ?_ }
  have key : ∀ (l : List ℕ) (c : ℕ → List ℕ), (∀ s, s ∉ sc.touched → c s = []) →
      ∀ s, s ∉ sc.touched → l.foldl (addChild sc.tree) c s = [] := by
    intro l
    induction l with
    | nil => exact fun c hc => hc
    | cons i l ih =>
      refine fun c hc => ih _ fun s hs => ?_
      unfold addChild
      split_ifs
      · exact hc s hs
      · exact hc s hs
      cases hparent : sc.tree.validIdom i with
      | none => exact hc s hs
      | some parent =>
        simp only
        split_ifs
        · exact hc s hs
        · have hmem : parent ∈ sc.touched := by
            unfold MirDomTree.validIdom at hparent
            split_ifs at hparent
            exact h.parent i parent (Option.filter_eq_some_iff.1 hparent).1
          have hne : s ≠ parent := fun heq => hs (heq ▸ hmem)
          rw [Function.update_of_ne hne]
          exact hc s hs
  exact key _ _ h.children

def Recorded (F : MirFrontier) : Prop := ∀ s, s ∉ F.first → F.df s = []

theorem Recorded.push {F : MirFrontier} (h : Recorded F) (slot b : ℕ) :
    Recorded (F.push slot b) := by
  intro s hs
  unfold MirFrontier.push at hs ⊢
  simp only at hs ⊢
  by_cases heq : s = slot
  · subst heq
    split_ifs at hs with hempty
    · simp at hs
    · exact absurd (h s hs) hempty
  · rw [Function.update_of_ne heq]
    split_ifs at hs
    · exact h s fun hmem => hs (List.mem_append_left _ hmem)
    · exact h s hs

theorem Recorded.climb {t : MirDomTree} {b bIdom : ℕ} (steps : ℕ) {runner : ℕ} {F : MirFrontier}
    (h : Recorded F) :
    Holds (fun _ => True) Recorded (MirFrontier.climb t b bIdom steps runner F) := by
  induction steps generalizing runner F with
  | zero =>
    unfold MirFrontier.climb
    split_ifs
    · exact holds_error trivial
    · exact holds_ok h
  | succ steps ih =>
    unfold MirFrontier.climb
    split_ifs
    · simp only
      split
      · exact holds_ok (h.push _ _)
      · split_ifs
        · exact holds_ok (h.push _ _)
        · exact ih (h.push _ _)
    · exact holds_ok h

theorem Recorded.contribution {t : MirDomTree} {preds : List (List ℕ)} {F : MirFrontier}
    (h : Recorded F) (i : ℕ) :
    Holds (fun _ => True) Recorded (F.contribution t preds i) := by
  unfold MirFrontier.contribution
  split_ifs
  · exact holds_ok h
  · exact holds_ok h
  simp only
  split_ifs
  · exact holds_ok h
  split
  · exact holds_ok h
  · exact Holds.foldlM (I := fun _ F => Recorded F) h fun _ _ _ _ _ hF => hF.climb _

theorem Tidy.mirDominanceFrontier {sc : MirDomScratch} (h : sc.Tidy) (A : MirDomInput) :
    Holds (fun _ => True) Tidy (sc.mirDominanceFrontier A) := by
  unfold MirDomScratch.mirDominanceFrontier
  split_ifs
  · exact holds_error trivial
  · exact holds_ok h
  · have hfold : Holds (fun _ => True) Recorded
        (sc.touchedSorted.foldlM (MirFrontier.contribution sc.tree A.preds) sc.frontier) :=
      Holds.foldlM (I := fun _ F => Recorded F) h.frontier fun _ i _ _ _ hF => hF.contribution i
    exact hfold.bind fun F hF => holds_ok { h with frontier := hF }

theorem Computed.mirDomTreeChildren {A : MirDomInput} {t : MirDomTree} {sc : MirDomScratch}
    (h : Computed A t sc) :
    Computed A t sc.mirDomTreeChildren ∧
      sc.mirDomTreeChildren.children = DssPrime.mirDomTreeChildren A t := by
  have htidy := h.tidy.mirDomTreeChildren
  have hchildren := h.children
  unfold MirDomScratch.mirDomTreeChildren at htidy ⊢
  split_ifs at htidy ⊢ with hfilled
  · rw [if_pos hfilled] at hchildren
    exact ⟨h, hchildren⟩
  rw [if_neg hfilled] at hchildren
  have heq : sc.touchedSorted.foldl (addChild sc.tree) sc.children =
      DssPrime.mirDomTreeChildren A t := by
    rw [h.sorted, h.tree, hchildren]
    refine foldl_filter_of_skip (fun c s hs => ?_) _ _
    exact addChild_of_off (h.off s (by simpa using hs)).1 c
  exact ⟨{ h with tidy := htidy, children := heq }, heq⟩

theorem Computed.mirDominanceFrontier {A : MirDomInput} (hp : A.preds.length = A.blockCount)
    {t : MirDomTree} {sc : MirDomScratch} (h : Computed A t sc) :
    (∃ e, sc.mirDominanceFrontier A = .error e ∧ DssPrime.mirDominanceFrontier A t = .error e) ∨
    ∃ sc', sc.mirDominanceFrontier A = .ok sc' ∧
      DssPrime.mirDominanceFrontier A t = .ok sc'.frontier.df ∧ Computed A t sc' := by
  have htidy := h.tidy.mirDominanceFrontier A
  have hfrontier := h.frontier
  unfold MirDomScratch.mirDominanceFrontier at htidy ⊢
  simp only [hp, ne_eq, not_true_eq_false, ↓reduceIte] at htidy ⊢
  split_ifs at htidy ⊢ with hfilled
  · rw [if_pos hfilled] at hfrontier
    exact .inr ⟨sc, rfl, hfrontier, h⟩
  rw [if_neg hfilled] at hfrontier
  have heq : sc.touchedSorted.foldlM (MirFrontier.contribution sc.tree A.preds) sc.frontier =
      (List.range A.blockCount).foldlM (MirFrontier.contribution t A.preds) ⟨fun _ => [], []⟩ := by
    rw [h.sorted, h.tree, hfrontier]
    refine foldlM_filter_of_skip (fun F s hs => ?_) _ _
    exact contribution_of_off (h.off s (by simpa using hs)).1 A.preds F
  rw [heq] at htidy ⊢
  unfold DssPrime.mirDominanceFrontier
  cases hrun : (List.range A.blockCount).foldlM (MirFrontier.contribution t A.preds)
      ⟨fun _ => [], []⟩ with
  | error e => exact .inl ⟨e, rfl, rfl⟩
  | ok F =>
    rw [hrun] at htidy
    refine .inr ⟨_, rfl, rfl, { h with tidy := htidy, frontier := ?_ }⟩
    simp only [↓reduceIte]
    unfold DssPrime.mirDominanceFrontier
    rw [hrun]
    rfl

/-- One use of the scratch. -/
inductive Use where
  | tree (A : MirDomInput)
  | children
  | frontier (A : MirDomInput)

def use (fuel : ℕ) (sc : MirDomScratch) : Use → Except MirDomAbort MirDomScratch
  | .tree A => sc.computeMirDomTree fuel A
  | .children => .ok sc.mirDomTreeChildren
  | .frontier A => sc.mirDominanceFrontier A

def Use.OfModule (moduleId blockCount : ℕ) : Use → Prop
  | .tree A => A.moduleId = moduleId ∧ A.blockCount = blockCount
  | .children => True
  | .frontier _ => True

def Use.Asks (A : MirDomInput) : Use → Prop
  | .tree _ => False
  | .children => True
  | .frontier A' => A' = A

def BoundTo (moduleId blockCount : ℕ) (sc : MirDomScratch) : Prop :=
  (sc.blockCount = 0 ∧ sc.moduleIdV = 0) ∨
    (sc.moduleIdV = moduleId ∧ sc.blockCount = blockCount)

theorem mirDominanceFrontier_module {sc : MirDomScratch} {A : MirDomInput} :
    Holds (fun _ => True) (fun sc' => sc'.moduleIdV = sc.moduleIdV ∧ sc'.blockCount = sc.blockCount)
      (sc.mirDominanceFrontier A) := by
  unfold MirDomScratch.mirDominanceFrontier
  split_ifs
  · exact holds_error trivial
  · exact holds_ok ⟨rfl, rfl⟩
  · have hfold : Holds (fun _ => True) (fun _ => True)
        (sc.touchedSorted.foldlM (MirFrontier.contribution sc.tree A.preds) sc.frontier) := by
      cases sc.touchedSorted.foldlM (MirFrontier.contribution sc.tree A.preds) sc.frontier <;>
        trivial
    exact hfold.bind fun F _ => holds_ok ⟨rfl, rfl⟩

theorem Tidy.computeMirDomTree {sc : MirDomScratch} (h : sc.Tidy) (fuel : ℕ) (A : MirDomInput) :
    Holds (fun _ => True)
      (fun sc' => sc'.Tidy ∧ sc'.moduleIdV = A.moduleId ∧ sc'.blockCount = A.blockCount)
      (sc.computeMirDomTree fuel A) := by
  by_cases hfits : sc.Fits A
  · rw [computeMirDomTree_eq_empty h hfits]
    by_cases hp : A.preds.length = A.blockCount
    · rcases computeMirDomTree_empty_spec hp fuel with ⟨e, herr, _⟩ | ⟨sc', t, hok, _, hcomp⟩
      · rw [herr]
        exact holds_error trivial
      · rw [hok]
        exact holds_ok ⟨hcomp.tidy, hcomp.module⟩
    · have herr : empty.computeMirDomTree fuel A = .error .predsSize := by
        unfold MirDomScratch.computeMirDomTree
        simp only [hp, ne_eq, not_false_eq_true, ↓reduceIte]
        rfl
      rw [herr]
      exact holds_error trivial
  · have herr : ∃ e, sc.bind A = .error e := by
      unfold MirDomScratch.bind
      split_ifs with hunbound hstale
      · exact absurd (.inl hunbound) hfits
      · exact ⟨_, rfl⟩
      · push Not at hstale
        exact absurd (.inr hstale) hfits
    obtain ⟨e, he⟩ := herr
    unfold MirDomScratch.computeMirDomTree
    rw [he]
    exact holds_error trivial

theorem Tidy.use {sc : MirDomScratch} (h : sc.Tidy) {moduleId blockCount : ℕ}
    (hb : sc.BoundTo moduleId blockCount) {u : Use} (hu : u.OfModule moduleId blockCount)
    (fuel : ℕ) :
    Holds (fun _ => True) (fun sc' => sc'.Tidy ∧ sc'.BoundTo moduleId blockCount)
      (sc.use fuel u) := by
  cases u with
  | tree A =>
    refine (h.computeMirDomTree fuel A).imp fun sc' hsc' => ⟨hsc'.1, .inr ?_⟩
    exact ⟨hsc'.2.1.trans hu.1, hsc'.2.2.trans hu.2⟩
  | children =>
    refine holds_ok ⟨h.mirDomTreeChildren, ?_⟩
    unfold MirDomScratch.mirDomTreeChildren
    split_ifs <;> exact hb
  | frontier A =>
    change Holds _ _ (sc.mirDominanceFrontier A)
    have htidy := h.mirDominanceFrontier A
    have hmodule := @mirDominanceFrontier_module sc A
    cases hrun : sc.mirDominanceFrontier A with
    | error e => exact holds_error trivial
    | ok sc' =>
      obtain ⟨h1, h2⟩ := hmodule.of_ok hrun
      refine holds_ok ⟨htidy.of_ok hrun, ?_⟩
      unfold BoundTo
      rw [h1, h2]
      exact hb

theorem tidy_foldlM {moduleId blockCount : ℕ} {uses : List Use}
    (hu : ∀ u ∈ uses, u.OfModule moduleId blockCount) (fuel : ℕ) :
    Holds (fun _ => True) (fun sc => sc.Tidy ∧ sc.BoundTo moduleId blockCount)
      (uses.foldlM (MirDomScratch.use fuel) empty) := by
  refine Holds.foldlM (I := fun _ (sc : MirDomScratch) => sc.Tidy ∧ sc.BoundTo moduleId blockCount)
    ⟨tidy_empty, .inl ⟨rfl, rfl⟩⟩ ?_
  rintro done u rest sc rfl ⟨htidy, hbound⟩
  exact htidy.use hbound (hu u (by simp)) fuel

theorem Computed.foldlM {A : MirDomInput} (hp : A.preds.length = A.blockCount) {t : MirDomTree}
    {uses : List Use} (hu : ∀ u ∈ uses, u.Asks A) (fuel : ℕ) {sc : MirDomScratch}
    (h : Computed A t sc) :
    Holds (fun _ => True) (Computed A t) (uses.foldlM (MirDomScratch.use fuel) sc) := by
  refine Holds.foldlM (I := fun _ sc => Computed A t sc) h ?_
  rintro done u rest sc rfl hsc
  have hask := hu u (by simp)
  cases u with
  | tree A' => exact hask.elim
  | children => exact holds_ok hsc.mirDomTreeChildren.1
  | frontier A' =>
    obtain rfl : A' = A := hask
    change Holds _ _ (sc.mirDominanceFrontier A')
    rcases hsc.mirDominanceFrontier hp with ⟨e, herr, _⟩ | ⟨sc', hok, _, hcomp⟩
    · rw [herr]
      exact holds_error trivial
    · rw [hok]
      exact holds_ok hcomp

end MirDomScratch

namespace PostDomBuffers

/-- Outside the slots they record, the buffers are as they were allocated. -/
structure Tidy (B : PostDomBuffers) : Prop where
  rev : ∀ s, s ∉ B.touchedRev → B.revPreds s = [] ∧ B.revSuccs s = []
  visited : ∀ s, s ∉ B.touchedNodes → B.visited s = false
  core : B.core.Within B.touchedNodes
  tree : ∀ s, s ∉ B.touchedNodes → B.tree.ipdom s = none ∧ B.tree.gaveUp s = false

theorem tidy_fresh (n : ℕ) : (fresh n).Tidy :=
  ⟨fun _ _ => ⟨rfl, rfl⟩, fun _ _ => rfl, ChkArrays.within_unset _, fun _ _ => ⟨rfl, rfl⟩⟩

/-- The graph is written only at the slots it records. -/
def RevTidy (B : PostDomBuffers) : Prop :=
  ∀ s, s ∉ B.touchedRev → B.revPreds s = [] ∧ B.revSuccs s = []

def SameNodes (B B' : PostDomBuffers) : Prop :=
  B'.visited = B.visited ∧ B'.core = B.core ∧ B'.tree = B.tree

theorem RevTidy.pushRevPred {B : PostDomBuffers} (h : B.RevTidy) (slot v : ℕ) :
    (B.pushRevPred slot v).RevTidy := by
  intro s hs
  unfold PostDomBuffers.pushRevPred at hs ⊢
  simp only at hs ⊢
  have hold : s ∉ B.touchedRev := by
    split_ifs at hs
    · exact fun hmem => hs (List.mem_append_left _ hmem)
    · exact hs
  by_cases heq : s = slot
  · subst heq
    rw [if_pos (h s hold).1] at hs
    simp at hs
  · rw [Function.update_of_ne heq]
    exact h s hold

theorem RevTidy.pushRevSucc {B : PostDomBuffers} (h : B.RevTidy) (slot v : ℕ) :
    (B.pushRevSucc slot v).RevTidy := by
  intro s hs
  unfold PostDomBuffers.pushRevSucc at hs ⊢
  simp only at hs ⊢
  have hold : s ∉ B.touchedRev := by
    split_ifs at hs
    · exact fun hmem => hs (List.mem_append_left _ hmem)
    · exact hs
  by_cases heq : s = slot
  · subst heq
    rw [if_pos (h s hold).2] at hs
    simp at hs
  · rw [Function.update_of_ne heq]
    exact h s hold

/-- Adding edges keeps a graph tidy and leaves the rest alone. -/
def Grown (B B' : PostDomBuffers) : Prop := (B.RevTidy → B'.RevTidy) ∧ SameNodes B B'

theorem Grown.refl (B : PostDomBuffers) : Grown B B := ⟨id, rfl, rfl, rfl⟩

theorem Grown.trans {B C D : PostDomBuffers} (h : Grown B C) (h' : Grown C D) : Grown B D := by
  obtain ⟨h1, h2, h3, h4⟩ := h
  obtain ⟨g1, g2, g3, g4⟩ := h'
  exact ⟨g1 ∘ h1, g2.trans h2, g3.trans h3, g4.trans h4⟩

theorem grown_pushEdge (B : PostDomBuffers) (b s : ℕ) : Grown B (B.pushEdge b s) :=
  ⟨fun h => (h.pushRevPred b s).pushRevSucc s b, rfl, rfl, rfl⟩

theorem grown_foldl {α : Type} {f : PostDomBuffers → α → PostDomBuffers}
    (hf : ∀ B a, Grown B (f B a)) (l : List α) (B : PostDomBuffers) : Grown B (l.foldl f B) := by
  induction l generalizing B with
  | nil => exact .refl B
  | cons a l ih => exact (hf B a).trans (ih (f B a))

theorem grown_pushBlock (m : MirData) (reachable : List ℕ) (B : PostDomBuffers) (b : ℕ) :
    Grown B (pushBlock m reachable B b) := by
  have hsuccs : Grown B ((m.blockSuccessors b).foldl
      (fun B s => if s = 0 ∨ s ≥ m.blockCount then B else B.pushEdge b s) B) := by
    refine grown_foldl (fun B s => ?_) _ _
    split_ifs
    · exact .refl B
    · exact grown_pushEdge B b s
  unfold pushBlock
  simp only
  split_ifs
  · exact hsuccs
  · exact hsuccs.trans (grown_pushEdge _ _ _)
  · exact hsuccs
  · exact hsuccs

theorem walk_spec {succs : ℕ → List ℕ} (fuel : ℕ) (stack : List (ℕ × ℕ)) (visited : ℕ → Bool)
    (order : List ℕ)
    (h : ∀ s, visited s = true → s ∈ order ∨ s ∈ stack.map Prod.fst) :
    Holds (fun _ => True)
      (fun r => (∀ s, r.1 s = true → s ∈ r.2) ∧ ∀ s, visited s = true → r.1 s = true)
      (walk succs fuel stack visited order) := by
  induction fuel generalizing stack visited order with
  | zero =>
    cases stack with
    | nil =>
      unfold walk
      exact holds_ok ⟨fun s hs => (h s hs).resolve_right (by simp), fun s hs => hs⟩
    | cons f stack =>
      unfold walk
      exact holds_error trivial
  | succ fuel ih =>
    cases stack with
    | nil =>
      unfold walk
      exact holds_ok ⟨fun s hs => (h s hs).resolve_right (by simp), fun s hs => hs⟩
    | cons f stack =>
      obtain ⟨slot, nextSucc⟩ := f
      unfold walk
      split
      · rename_i s hs
        split_ifs with hvis
        · exact ih _ _ _ (by simpa using h)
        · refine (ih _ _ _ fun x hx => ?_).imp fun r hr => ⟨hr.1, fun x hx => hr.2 x ?_⟩
          · by_cases hxs : x = s
            · subst hxs
              simp
            · rw [Function.update_of_ne hxs] at hx
              rcases h x hx with ho | hst
              · exact .inl ho
              · exact .inr (List.mem_cons_of_mem _ (by simpa using hst))
          · by_cases hxs : x = s
            · subst hxs
              simp
            · rw [Function.update_of_ne hxs]
              exact hx
      · refine ih _ _ _ fun x hx => ?_
        rcases h x hx with ho | hst
        · exact .inl (List.mem_cons_of_mem _ ho)
        · rcases List.mem_cons.1 hst with rfl | hst
          · exact .inl (by simp)
          · exact .inr hst

theorem foldl_take (core : ChkArrays) (l : List ℕ) (t : MirPostDomTree) :
    l.foldl (take core) t =
      { t with
        ipdom := fun s => if s ∈ l then core.idom s else t.ipdom s
        gaveUp := fun s => if s ∈ l then core.gaveUp s else t.gaveUp s } := by
  induction l generalizing t with
  | nil => simp
  | cons a l ih =>
    rw [List.foldl_cons, ih]
    unfold take
    simp only [List.mem_cons, MirPostDomTree.mk.injEq, and_true]
    constructor <;> funext s <;> by_cases hl : s ∈ l <;> by_cases hs : s = a <;> simp [hl, hs]

theorem tidy_computePostDomInto (fuel : ℕ) (m : MirData) (f n : ℕ) :
    Holds (fun _ => True) Tidy ((fresh n).computePostDomInto fuel m f) := by
  unfold computePostDomInto
  simp only
  split_ifs
  · exact holds_ok ⟨fun _ _ => ⟨rfl, rfl⟩, fun _ _ => rfl, ChkArrays.within_unset _,
      fun _ _ => ⟨rfl, rfl⟩⟩
  obtain ⟨hrev, hvis, hcore, htree⟩ := grown_foldl
    (grown_pushBlock m (mirReversePostOrder m (m.funcEntry f))) (m.funcBlocks f)
    { fresh n with
      order := []
      touchedRev := []
      touchedNodes := []
      tree := { (fresh n).tree with virtualExit := m.blockCount } }
  have hrev := hrev fun _ _ => ⟨rfl, rfl⟩
  generalize (m.funcBlocks f).foldl (pushBlock m (mirReversePostOrder m (m.funcEntry f)))
    { fresh n with
      order := []
      touchedRev := []
      touchedNodes := []
      tree := { (fresh n).tree with virtualExit := m.blockCount } } = B
    at hrev hvis hcore htree
  have hwalk := @walk_spec B.revSuccs fuel [(m.blockCount, 0)]
    (Function.update B.visited m.blockCount true) [] fun s hs => by
      by_cases hsv : s = m.blockCount
      · simp [hsv]
      · rw [Function.update_of_ne hsv, hvis] at hs
        cases hs
  refine hwalk.bind fun r hr => ?_
  obtain ⟨visited, order⟩ := r
  obtain ⟨hlisted, hmet⟩ := hr
  have hexit : m.blockCount ∈ order := hlisted _ (hmet _ (by simp))
  have hrun := @ChkArrays.Within.runChkCoreInto order B.core fuel (m.blockCount + 1) m.blockCount
    order B.revPreds (hcore ▸ ChkArrays.within_unset _) (fun b hb => hb) fun _ => hexit
  refine hrun.bind fun core hwithin => holds_ok ⟨hrev, fun s hs => ?_, hwithin, fun s hs => ?_⟩
  · by_contra hne
    exact hs (hlisted s (by simpa using hne))
  · simp only [foldl_take, hs, ↓reduceIte, htree]
    exact ⟨rfl, rfl⟩

end PostDomBuffers

namespace MirPostDomScratch

open PostDomBuffers

theorem foldl_resetRev (l : List ℕ) (B : PostDomBuffers) :
    l.foldl resetRev B = { B with
      revPreds := clear l [] B.revPreds
      revSuccs := clear l [] B.revSuccs } := by
  induction l generalizing B with
  | nil => simp only [List.foldl_nil, clear_nil]
  | cons s l ih =>
    rw [List.foldl_cons, ih]
    simp only [resetRev, clear_update]

theorem foldl_resetNode (l : List ℕ) (B : PostDomBuffers) :
    l.foldl resetNode B = { B with
      visited := clear l false B.visited
      core :=
        { idom := clear l none B.core.idom
          gaveUp := clear l false B.core.gaveUp
          rpoIndex := clear l none B.core.rpoIndex }
      tree :=
        { B.tree with
          ipdom := clear l none B.tree.ipdom
          gaveUp := clear l false B.tree.gaveUp } } := by
  induction l generalizing B with
  | nil => simp only [List.foldl_nil, clear_nil]
  | cons s l ih =>
    rw [List.foldl_cons, ih]
    simp only [resetNode, clear_update]

theorem reset_eq {B : PostDomBuffers} (h : B.Tidy) :
    reset B = { fresh B.tree.virtualExit with order := B.order } := by
  have hcore := h.core.off
  unfold reset
  simp only [foldl_resetRev, foldl_resetNode, clear_eq h.visited,
    clear_eq fun s hs => (h.rev s hs).1, clear_eq fun s hs => (h.rev s hs).2,
    clear_eq fun s hs => (hcore s hs).1, clear_eq fun s hs => (hcore s hs).2.1,
    clear_eq fun s hs => (hcore s hs).2.2, clear_eq fun s hs => (h.tree s hs).1,
    clear_eq fun s hs => (h.tree s hs).2]
  rfl

theorem computePostDomInto_reset {B : PostDomBuffers} (h : B.Tidy) (fuel : ℕ) (m : MirData)
    (f : ℕ) :
    (reset B).computePostDomInto fuel m f = (fresh m.blockCount).computePostDomInto fuel m f := by
  rw [reset_eq h]
  rfl

def BoundTo (moduleId blockCount : ℕ) (sc : MirPostDomScratch) : Prop :=
  (sc.blockCount = 0 ∧ sc.moduleIdV = 0) ∨
    (sc.moduleIdV = moduleId ∧ sc.blockCount = blockCount)

theorem bind_spec {sc : MirPostDomScratch} (h : sc.buffers.Tidy) {moduleId : ℕ} {m : MirData}
    (hb : sc.BoundTo moduleId m.blockCount) :
    ∃ sc', sc.bind moduleId m = .ok sc' ∧ sc'.buffers.Tidy ∧
      sc'.moduleIdV = moduleId ∧ sc'.blockCount = m.blockCount := by
  unfold MirPostDomScratch.bind
  split_ifs with hunbound hstale
  · exact ⟨_, rfl, ⟨fun _ _ => ⟨rfl, rfl⟩, fun _ _ => rfl, ChkArrays.within_unset _,
      fun _ _ => ⟨rfl, rfl⟩⟩, rfl, rfl⟩
  · have hfits := hb.resolve_left hunbound
    exact absurd hstale (by simp [hfits.1, hfits.2])
  · exact ⟨sc, rfl, h, hb.resolve_left hunbound⟩

theorem computeMirPostDomTree_spec {sc : MirPostDomScratch} (h : sc.buffers.Tidy) {moduleId : ℕ}
    {m : MirData} (hb : sc.BoundTo moduleId m.blockCount) (fuel f : ℕ) :
    (sc.computeMirPostDomTree fuel moduleId m f).map (fun sc => sc.buffers.tree) =
        DssPrime.computeMirPostDomTree fuel m f ∧
      Holds (fun _ => True)
        (fun sc' => sc'.buffers.Tidy ∧ sc'.BoundTo moduleId m.blockCount)
        (sc.computeMirPostDomTree fuel moduleId m f) := by
  obtain ⟨sc', hbind, htidy, hid, hbc⟩ := bind_spec h hb
  have hrun := tidy_computePostDomInto fuel m f m.blockCount
  unfold MirPostDomScratch.computeMirPostDomTree DssPrime.computeMirPostDomTree
  rw [hbind]
  change Except.map _ ((reset sc'.buffers).computePostDomInto fuel m f >>= _) = _ ∧
    Holds _ _ ((reset sc'.buffers).computePostDomInto fuel m f >>= _)
  rw [computePostDomInto_reset htidy]
  refine ⟨?_, hrun.bind fun B hB => holds_ok ⟨hB, .inr ⟨hid, hbc⟩⟩⟩
  cases (fresh m.blockCount).computePostDomInto fuel m f <;> rfl

end MirPostDomScratch

/-- **Scratch reuse is invisible.**  After any uses of a scratch on functions of a module, the
tree it computes for a function of the module is the one the fresh overload computes for that
function, and whatever is then asked about the tree, the children and the frontier are those the
fresh overloads compute from it.  Likewise for the post-dominator tree. -/
theorem scratch_reuse_invisible (fuel : ℕ) :
    (∀ (moduleId blockCount : ℕ) (uses : List MirDomScratch.Use) (sc : MirDomScratch),
      (∀ u ∈ uses, u.OfModule moduleId blockCount) →
      uses.foldlM (MirDomScratch.use fuel) .empty = .ok sc →
      ∀ A : MirDomInput, A.moduleId = moduleId → A.blockCount = blockCount →
        A.preds.length = blockCount →
        (sc.computeMirDomTree fuel A).map MirDomScratch.tree = computeMirDomTree fuel A ∧
        ∀ sc₁, sc.computeMirDomTree fuel A = .ok sc₁ →
        ∀ (asks : List MirDomScratch.Use) (sc₂ : MirDomScratch), (∀ u ∈ asks, u.Asks A) →
          asks.foldlM (MirDomScratch.use fuel) sc₁ = .ok sc₂ →
          sc₂.mirDomTreeChildren.children = mirDomTreeChildren A sc₁.tree ∧
          (sc₂.mirDominanceFrontier A).map (fun sc => sc.frontier.df) =
            mirDominanceFrontier A sc₁.tree) ∧
    ∀ (moduleId : ℕ) (m : MirData) (fs : List ℕ) (sc : MirPostDomScratch),
      fs.foldlM (fun (sc : MirPostDomScratch) f => sc.computeMirPostDomTree fuel moduleId m f)
        .empty = .ok sc →
      ∀ f, (sc.computeMirPostDomTree fuel moduleId m f).map (fun sc => sc.buffers.tree) =
        computeMirPostDomTree fuel m f := by
  constructor
  · rintro _ _ uses sc huses hrun A rfl rfl hp
    obtain ⟨htidy, hbound⟩ := (MirDomScratch.tidy_foldlM huses fuel).of_ok hrun
    have heq := MirDomScratch.computeMirDomTree_eq_empty htidy hbound fuel
    rw [heq]
    rcases MirDomScratch.computeMirDomTree_empty_spec hp fuel with
      ⟨e, herr, hfresh⟩ | ⟨sc', t, hok, hfresh, hcomp⟩
    · rw [herr, hfresh]
      exact ⟨rfl, nofun⟩
    · rw [hok, hfresh]
      refine ⟨congrArg Except.ok hcomp.tree, fun sc₁ hsc₁ asks sc₂ hasks hrun₂ => ?_⟩
      obtain rfl := Except.ok.inj hsc₁
      have hcomp₂ := (hcomp.foldlM hp hasks fuel).of_ok hrun₂
      rw [hcomp.tree]
      refine ⟨hcomp₂.mirDomTreeChildren.2, ?_⟩
      rcases hcomp₂.mirDominanceFrontier hp with ⟨e, herr, hfr⟩ | ⟨sc₃, hok₃, hfr, _⟩
      · rw [herr, hfr]
        rfl
      · rw [hok₃, hfr]
        rfl
  · intro moduleId m fs sc hrun f
    have htidy : Holds (fun _ => True)
        (fun sc : MirPostDomScratch => sc.buffers.Tidy ∧ sc.BoundTo moduleId m.blockCount)
        (fs.foldlM (fun (sc : MirPostDomScratch) f => sc.computeMirPostDomTree fuel moduleId m f)
          .empty) := by
      refine Holds.foldlM
        (I := fun _ (sc : MirPostDomScratch) => sc.buffers.Tidy ∧ sc.BoundTo moduleId m.blockCount)
        ⟨PostDomBuffers.tidy_fresh 0, .inl ⟨rfl, rfl⟩⟩ ?_
      rintro done f rest sc _ ⟨h, hb⟩
      exact (MirPostDomScratch.computeMirPostDomTree_spec h hb fuel f).2
    obtain ⟨h, hb⟩ := htidy.of_ok hrun
    exact (MirPostDomScratch.computeMirPostDomTree_spec h hb fuel f).1

/-- A module of two functions: a block that jumps to one that returns, and one that returns. -/
def twoFunctions : MirData where
  insts := [default, { (default : MirInst) with opcode := .br },
    { (default : MirInst) with opcode := .ret }, { (default : MirInst) with opcode := .ret }]
  instBlocks := [0, 1, 2, 3]
  blocks := [default, ⟨1, 1, [2], 1⟩, ⟨2, 1, [], 1⟩, ⟨3, 1, [], 2⟩]
  funcs := [default, { (default : MirFunc) with blockStart := 1, blockCount := 2 },
    { (default : MirFunc) with blockStart := 3, blockCount := 1 }]
  globals := []
  literals := []
  aliasingMode := .permissive
  charTypesAliasAll := true

def twoFunctionsInput (f : ℕ)
    (h : ∀ b ∈ mirReversePostOrder twoFunctions (twoFunctions.funcEntry f),
    b < twoFunctions.blockCount) : MirDomInput where
  moduleId := 1
  blockCount := twoFunctions.blockCount
  entry := twoFunctions.funcEntry f
  order := mirReversePostOrder twoFunctions (twoFunctions.funcEntry f)
  preds := mirBuildPredecessors twoFunctions
  order_lt := h

theorem scratch_reuse_invisible_twoFunctions :
    (∃ sc, [MirDomScratch.Use.tree (twoFunctionsInput 1 (by decide)), .children].foldlM
        (MirDomScratch.use 4) .empty = .ok sc ∧
      (sc.computeMirDomTree 4 (twoFunctionsInput 2 (by decide))).map MirDomScratch.tree =
        computeMirDomTree 4 (twoFunctionsInput 2 (by decide))) ∧
    ∃ sc, [1].foldlM (fun (sc : MirPostDomScratch) f =>
        sc.computeMirPostDomTree 8 1 twoFunctions f) .empty = .ok sc ∧
      (sc.computeMirPostDomTree 8 1 twoFunctions 2).map (fun sc => sc.buffers.tree) =
        computeMirPostDomTree 8 twoFunctions 2 := by
  refine ⟨⟨_, rfl, ((scratch_reuse_invisible 4).1 1 4
      [.tree (twoFunctionsInput 1 (by decide)), .children] _ ?_ rfl _ rfl rfl rfl).1⟩,
    ⟨_, rfl, (scratch_reuse_invisible 8).2 1 twoFunctions [1] _ rfl 2⟩⟩
  intro u hu
  fin_cases hu
  · exact ⟨rfl, rfl⟩
  · trivial

end DssPrime
