import DssPrime.Lir.AntiAffinity

/-!
# The indexed anti-affinity query is the flat scan

Whether a forbidden pair lies between two classes is looked up in the shorter of the two lists of
pairs that the roots carry, and these lists are swapped and joined as the classes are.
-/

namespace DssPrime

namespace CoalescePartition

variable {rangeOf : ℕ → LirLiveRange} {p : CoalescePartition} {facts : RegallocFacts} {n : ℕ}

def flatStraddles (forbidden : List (ℕ × ℕ)) (n ra rb : ℕ) (p : CoalescePartition) : Bool :=
  forbidden.any fun f => decide (f.1 < n) && decide (f.2 < n) &&
    (decide ((p.find f.1).2 = ra ∧ (p.find f.2).2 = rb) ||
      decide ((p.find f.1).2 = rb ∧ (p.find f.2).2 = ra))

def Between (forbidden : List (ℕ × ℕ)) (p : CoalescePartition) (ra rb : ℕ) : Prop :=
  ∃ f ∈ forbidden, (f.1 ∈ p.members ra ∧ f.2 ∈ p.members rb) ∨
    (f.1 ∈ p.members rb ∧ f.2 ∈ p.members ra)

def Bare (rangeOf : ℕ → LirLiveRange) (p : CoalescePartition) : Prop :=
  ∀ x, ¬ HasRange rangeOf x → p.parent x = x

theorem bare_findRoot (fuel : ℕ) {parent : ℕ → ℕ} {x : ℕ}
    (h : ∀ y, ¬ HasRange rangeOf y → parent y = y) :
    ∀ y, ¬ HasRange rangeOf y → (findRoot fuel parent x).1 y = y := by
  induction fuel generalizing parent x with
  | zero => exact h
  | succ fuel ih =>
    unfold findRoot
    simp only
    split_ifs with hx
    · refine ih fun y hy => ?_
      by_cases hyx : y = x
      · subst hyx
        exact absurd (h y hy) hx
      · rw [Function.update_of_ne hyx]
        exact h y hy
    · exact h

theorem Bare.find (h : Bare rangeOf p) (x : ℕ) : Bare rangeOf (p.find x).1 :=
  bare_findRoot (x + 1) h

theorem Bare.find_root (h : Bare rangeOf p) {x : ℕ} (hx : ¬ HasRange rangeOf x) :
    (p.find x).2 = x := by
  unfold CoalescePartition.find findRoot
  rw [if_neg (not_not.2 (h x hx))]

theorem find_eq_iff (hs : Sound rangeOf p) (hc : p.Closed) (hb : Bare rangeOf p) {r x : ℕ}
    (hr : HasRange rangeOf r) : (p.find x).2 = r ↔ x ∈ p.members r := by
  refine ⟨fun heq => ?_, find_eq_root hs hc⟩
  by_cases hx : HasRange rangeOf x
  · obtain ⟨r', hr'⟩ := hs.cover x hx
    rw [← heq, find_eq_root hs hc hr']
    exact hr'
  · rw [hb.find_root hx] at heq
    exact absurd (heq ▸ hr) hx

theorem Bare.probe {forbidden : List (ℕ × ℕ)} {ra rb : ℕ} (side : List ℕ) (h : Bare rangeOf p) :
    Bare rangeOf (CoalescePartition.probe forbidden ra rb side p).1 := by
  induction side generalizing p with
  | nil => exact h
  | cons fi side ih =>
    unfold CoalescePartition.probe
    simp only
    have h0 : Bare rangeOf { p with antiAffinityProbes := p.antiAffinityProbes + 1 } := h
    have h2 := (h0.find (forbidden.getD fi (0, 0)).1).find (forbidden.getD fi (0, 0)).2
    split_ifs
    · exact h2
    · exact ih h2

theorem Bare.union (h : Bare rangeOf p) {ra rb : ℕ} (ha : HasRange rangeOf ra)
    (hb : HasRange rangeOf rb) : Bare rangeOf (p.union ra rb) := by
  intro x hx
  unfold CoalescePartition.union
  simp only
  rw [Function.update_of_ne]
  · exact h x hx
  · rintro rfl
    split_ifs at hx
    · exact hx hb
    · exact hx ha

theorem probe_true {forbidden : List (ℕ × ℕ)} {ra rb : ℕ} (side : List ℕ) (hs : Sound rangeOf p)
    (hc : p.Closed) (hb : Bare rangeOf p) (hra : HasRange rangeOf ra) (hrb : HasRange rangeOf rb)
    (h : (probe forbidden ra rb side p).2 = true) :
    ∃ fi, ((forbidden.getD fi (0, 0)).1 ∈ p.members ra ∧
        (forbidden.getD fi (0, 0)).2 ∈ p.members rb) ∨
      ((forbidden.getD fi (0, 0)).1 ∈ p.members rb ∧
        (forbidden.getD fi (0, 0)).2 ∈ p.members ra) := by
  induction side generalizing p with
  | nil => cases h
  | cons fi side ih =>
    unfold probe at h
    simp only at h
    have hs0 : Sound rangeOf { p with antiAffinityProbes := p.antiAffinityProbes + 1 } :=
      hs.of_parent rfl rfl hs.forest fun _ => Iff.rfl
    have hc0 : Closed { p with antiAffinityProbes := p.antiAffinityProbes + 1 } := hc
    have hb0 : Bare rangeOf { p with antiAffinityProbes := p.antiAffinityProbes + 1 } := hb
    have hs1 := (hs0.find (forbidden.getD fi (0, 0)).1).1
    have hc1 := hc0.find (forbidden.getD fi (0, 0)).1
    have hb1 := hb0.find (forbidden.getD fi (0, 0)).1
    have hs2 := (hs1.find (forbidden.getD fi (0, 0)).2).1
    have hc2 := hc1.find (forbidden.getD fi (0, 0)).2
    have hb2 := hb1.find (forbidden.getD fi (0, 0)).2
    split_ifs at h with hhit
    · rcases hhit with ⟨h1, h2⟩ | ⟨h1, h2⟩
      · exact ⟨fi, .inl ⟨(find_eq_iff hs0 hc0 hb0 hra).1 h1, (find_eq_iff hs1 hc1 hb1 hrb).1 h2⟩⟩
      · exact ⟨fi, .inr ⟨(find_eq_iff hs0 hc0 hb0 hrb).1 h1, (find_eq_iff hs1 hc1 hb1 hra).1 h2⟩⟩
    · obtain ⟨fj, hfj⟩ := ih hs2 hc2 hb2 h
      exact ⟨fj, hfj⟩

structure Indexed (facts : RegallocFacts) (n : ℕ) (rangeOf : ℕ → LirLiveRange)
    (p : CoalescePartition) (incident : ℕ → List ℕ) : Prop where
  sound : Sound rangeOf p
  respects : Respects facts n p incident
  bare : Bare rangeOf p

theorem Indexed.find {incident : ℕ → List ℕ} (h : Indexed facts n rangeOf p incident) (x : ℕ) :
    Indexed facts n rangeOf (p.find x).1 incident :=
  ⟨(h.sound.find x).1, h.respects.of_members (h.respects.closed.find x) rfl, h.bare.find x⟩

theorem straddles_iff {incident : ℕ → List ℕ} (h : Indexed facts n rangeOf p incident)
    (hn : ∀ x, HasRange rangeOf x → x < n) {ra rb : ℕ} (hne : ra ≠ rb)
    (hra : HasRange rangeOf ra) (hrb : HasRange rangeOf rb) :
    (p.straddles facts.forbidden incident ra rb).2 = true ↔ Between facts.forbidden p ra rb := by
  have hs : Sound rangeOf { p with antiAffinityQueries := p.antiAffinityQueries + 1 } :=
    h.sound.of_parent rfl rfl h.sound.forest fun _ => Iff.rfl
  constructor
  · intro htrue
    obtain ⟨fi, hfi⟩ := probe_true _ hs h.respects.closed h.bare hra hrb htrue
    refine ⟨facts.forbidden.getD fi (0, 0), ?_, hfi⟩
    by_cases hlt : fi < facts.forbidden.length
    · rw [List.getD_eq_getElem _ _ hlt]
      exact List.getElem_mem hlt
    · -- no index of a pair: its two ends would be one register
      rw [List.getD_eq_default _ _ (not_lt.1 hlt)] at hfi
      rcases hfi with ⟨h1, h2⟩ | ⟨h1, h2⟩
      · exact absurd (h.sound.unique _ _ _ h1 h2) hne
      · exact absurd (h.sound.unique _ _ _ h2 h1) hne
  · rintro ⟨f, hf, hends⟩
    by_contra hfalse
    have hrange : ∀ {r x}, x ∈ p.members r → x < n := fun hx => hn _ (h.sound.root _ _ hx).2.2
    have key : ∀ u v, u ∈ p.members ra → v ∈ p.members rb →
        ((u, v) ∈ facts.forbidden ∨ (v, u) ∈ facts.forbidden) → False := by
      intro u v hu hv hmem
      have huv : u ≠ v := fun heq => hne (h.sound.unique _ _ _ hu (heq ▸ hv))
      have hbad : ForbiddenPair facts n u v := ⟨hrange hu, hrange hv, huv, hmem⟩
      obtain ⟨fi, g, hfi, hg, hlu, hlv⟩ := hbad.listed
      obtain ⟨-, -, hmiss⟩ := @probe_spec rangeOf _ facts.forbidden ra rb
        (if (incident ra).length ≤ (incident rb).length then incident ra else incident rb) hs
        h.respects.closed
      have hside : fi ∈ (if (incident ra).length ≤ (incident rb).length then incident ra
          else incident rb) := by
        split_ifs
        · exact h.respects.listed ra u hu fi hlu
        · exact h.respects.listed rb v hv fi hlv
      obtain ⟨hno, hno'⟩ := hmiss (by simpa [straddles] using hfalse) fi hside g hfi
      rcases hg with rfl | rfl
      · exact hno ⟨hu, hv⟩
      · exact hno' ⟨hv, hu⟩
    rcases hends with ⟨h1, h2⟩ | ⟨h1, h2⟩
    · exact key _ _ h1 h2 (.inl hf)
    · exact key _ _ h2 h1 (.inr hf)

theorem flatStraddles_iff (hs : Sound rangeOf p) (hc : p.Closed) (hb : Bare rangeOf p)
    (hn : ∀ x, HasRange rangeOf x → x < n) {forbidden : List (ℕ × ℕ)} {ra rb : ℕ}
    (hra : HasRange rangeOf ra) (hrb : HasRange rangeOf rb) :
    flatStraddles forbidden n ra rb p = true ↔ Between forbidden p ra rb := by
  have hlt : ∀ {r x}, x ∈ p.members r → x < n := fun hx => hn _ (hs.root _ _ hx).2.2
  unfold flatStraddles Between
  simp only [List.any_eq_true, Bool.and_eq_true, Bool.or_eq_true, decide_eq_true_eq,
    find_eq_iff hs hc hb hra, find_eq_iff hs hc hb hrb]
  constructor
  · rintro ⟨f, hf, -, hends⟩
    exact ⟨f, hf, hends⟩
  · rintro ⟨f, hf, hends⟩
    refine ⟨f, hf, ?_, hends⟩
    rcases hends with ⟨h1, h2⟩ | ⟨h1, h2⟩
    · exact ⟨hlt h1, hlt h2⟩
    · exact ⟨hlt h1, hlt h2⟩

end CoalescePartition

open CoalescePartition in
theorem coalesceEdge_bare {facts : RegallocFacts} {n : ℕ} {rangeOf : ℕ → LirLiveRange}
    {hot : LirRegClass → LirLiveRange → Bool} {p : CoalescePartition} {incident : ℕ → List ℕ}
    (hs : Sound rangeOf p) (h : Bare rangeOf p) (e : ℕ × ℕ) :
    Bare rangeOf (coalesceEdge facts n rangeOf hot (p, incident) e).1 := by
  rcases coalesceEdge_cases facts n rangeOf hot p incident e with
    hst | ⟨hv1, hv2, p₁, p₂, p₃, ra, rb, straddle, hp₁, hp₂, hp₃, hst⟩
  · rw [hst]
    exact h
  have hb1 := h.find e.1
  obtain ⟨hs1, -, -, -, v1⟩ := hs.find e.1
  rw [hp₁] at hb1 hs1 v1
  have hb2 := hb1.find e.2
  obtain ⟨-, -, -, -, v2⟩ := hs1.find e.2
  rw [hp₂] at hb2 v2
  have hb3 : Bare rangeOf (p₂.straddles facts.forbidden incident ra rb).1 := Bare.probe _ hb2
  rw [hp₃] at hb3
  rcases hst with hst | hst | ⟨-, -, -, -, hst⟩
  · rw [hst]
    exact hb2
  · rw [hst]
    exact hb3
  · rw [hst]
    exact hb3.union (v1 hv1) (v2 hv2)

open CoalescePartition in
theorem coalesceEdges_indexed {facts : RegallocFacts} {n : ℕ} {rangeOf : ℕ → LirLiveRange}
    {hot : LirRegClass → LirLiveRange → Bool} (es : List (ℕ × ℕ))
    {st : CoalescePartition × (ℕ → List ℕ)} (h : Indexed facts n rangeOf st.1 st.2) :
    Indexed facts n rangeOf (es.foldl (coalesceEdge facts n rangeOf hot) st).1
      (es.foldl (coalesceEdge facts n rangeOf hot) st).2 := by
  induction es generalizing st with
  | nil => exact h
  | cons e es ih =>
    exact ih ⟨coalesceEdge_sound h.sound e, coalesceEdge_respects h.sound h.respects e,
      coalesceEdge_bare h.sound h.bare e⟩

namespace CoalescePartition

theorem mem_singletons {rangeOf : ℕ → LirLiveRange} {r x : ℕ}
    (h : x ∈ (singletons rangeOf).members r) : x = r := by
  simp only [singletons] at h
  split_ifs at h
  · exact List.mem_singleton.1 h
  · cases h

theorem indexed_singletons (facts : RegallocFacts) (n : ℕ) {rangeOf : ℕ → LirLiveRange}
    (h : RangesOk rangeOf) :
    Indexed facts n rangeOf (singletons rangeOf) (incidentPairs facts n) := by
  refine ⟨sound_singletons h, ⟨fun r x hx => hx, fun r x hx fi hfi => ?_,
    fun r x y hx hy hbad => ?_⟩, fun x _ => rfl⟩
  · rw [← mem_singletons hx]
    exact hfi
  · exact hbad.2.2.1 ((mem_singletons hx).trans (mem_singletons hy).symm)

end CoalescePartition

open CoalescePartition in
/-- **The index answers as the scan does.**  At every copy the query is true exactly if a forbidden
pair lies between the classes of its ends, which is the answer of the scan over all pairs; and no
class holds two registers of a forbidden pair, two ranges that overlap, or two register classes. -/
theorem buildCoalescePartition_exact (facts : RegallocFacts) (n : ℕ) {rangeOf : ℕ → LirLiveRange}
    (hot : LirRegClass → LirLiveRange → Bool) (h : RangesOk rangeOf)
    (hn : ∀ x, HasRange rangeOf x → x < n) :
    (∀ pre e post, facts.edges = pre ++ e :: post → HasRange rangeOf e.1 → HasRange rangeOf e.2 →
      let st := pre.foldl (coalesceEdge facts n rangeOf hot)
        (.singletons rangeOf, incidentPairs facts n)
      let a := st.1.find e.1
      let b := a.1.find e.2
      a.2 ≠ b.2 →
        ((b.1.straddles facts.forbidden st.2 a.2 b.2).2 = true ↔
          Between facts.forbidden st.1 a.2 b.2) ∧
        (b.1.straddles facts.forbidden st.2 a.2 b.2).2 =
          flatStraddles facts.forbidden n a.2 b.2 b.1) ∧
    ∀ r, ∀ x ∈ (buildCoalescePartition facts n rangeOf hot).members r,
      ∀ y ∈ (buildCoalescePartition facts n rangeOf hot).members r,
      (rangeOf x).regClass = (rangeOf y).regClass ∧
      (x ≠ y → lirRangesInterfere (rangeOf x) (rangeOf y) = false ∧
        (x, y) ∉ facts.forbidden) := by
  refine ⟨fun pre e post _ h1 h2 => ?_, fun r x hx y hy => ?_⟩
  · intro st a b hne
    have hst : Indexed facts n rangeOf st.1 st.2 :=
      coalesceEdges_indexed pre (indexed_singletons facts n h)
    have ha := hst.find e.1
    have hb := ha.find e.2
    have hra : HasRange rangeOf a.2 := (hst.sound.find e.1).2.2.2.2 h1
    have hrb : HasRange rangeOf b.2 := (ha.sound.find e.2).2.2.2.2 h2
    have hindex := straddles_iff hb hn hne hra hrb
    have hflat := @flatStraddles_iff rangeOf _ n hb.sound hb.respects.closed hb.bare hn
      facts.forbidden _ _ hra hrb
    exact ⟨hindex, Bool.eq_iff_iff.2 (hindex.trans hflat.symm)⟩
  · have hpart : Indexed facts n rangeOf (buildCoalescePartition facts n rangeOf hot) _ :=
      coalesceEdges_indexed facts.edges (indexed_singletons facts n h)
    obtain ⟨-, -, hx'⟩ := hpart.sound.within r x hx
    obtain ⟨-, -, hy'⟩ := hpart.sound.within r y hy
    refine ⟨hx'.trans hy'.symm, fun hne => ⟨hpart.sound.apart r x y hx hy hne, fun hbad => ?_⟩⟩
    exact hpart.respects.apart r x y hx hy ⟨hn x (hpart.sound.root r x hx).2.2,
      hn y (hpart.sound.root r y hy).2.2, hne, .inl hbad⟩

def factsOf (edges forbidden : List (ℕ × ℕ)) : RegallocFacts :=
  ⟨10, [], [], [], [], [], none, none, fun _ => none, edges, forbidden, [], fun _ => 0, none⟩

def threeRanges : ℕ → LirLiveRange
  | 1 => ⟨1, .gpr, 0, 2⟩
  | 2 => ⟨2, .gpr, 2, 4⟩
  | 3 => ⟨3, .gpr, 4, 6⟩
  | _ => default

theorem rangesOk_threeRanges :
    RangesOk threeRanges ∧ ∀ x, HasRange threeRanges x → x < 4 := by
  have key : ∀ x, (threeRanges x).vreg ≠ 0 → x = 1 ∨ x = 2 ∨ x = 3 := by
    intro x hx
    unfold threeRanges at hx
    split at hx <;> first | simp | exact absurd rfl hx
  refine ⟨fun x hx => ?_, fun x hx => ?_⟩
  · obtain rfl | rfl | rfl := key x hx <;> decide
  · obtain rfl | rfl | rfl := key x hx <;> decide

theorem buildCoalescePartition_exact_refused :
    let part := buildCoalescePartition (factsOf [(2, 1), (3, 2)] [(1, 3)]) 4 threeRanges
      fun _ _ => false
    ¬ (1 ∈ part.members 1 ∧ 3 ∈ part.members 1) ∧ 2 ∈ part.members 1 := by
  intro part
  refine ⟨fun hboth => ?_, by decide⟩
  have hexact := (buildCoalescePartition_exact (factsOf [(2, 1), (3, 2)] [(1, 3)]) 4
    (fun _ _ => false) rangesOk_threeRanges.1 rangesOk_threeRanges.2).2
  exact ((hexact 1 1 hboth.1 3 hboth.2).2 (by decide)).2 (by decide)

theorem buildCoalescePartition_selfPair :
    let facts := factsOf [] [(1, 1)]
    ¬ ∀ r, ∀ f ∈ facts.forbidden,
      ¬ (f.1 ∈ (buildCoalescePartition facts 4 threeRanges fun _ _ => false).members r ∧
        f.2 ∈ (buildCoalescePartition facts 4 threeRanges fun _ _ => false).members r) := by
  intro facts hall
  exact hall 1 (1, 1) (by decide) ⟨by decide, by decide⟩

end DssPrime
