import DssPrime.Lir.Coalesce

/-!
# Forbidden pairs are kept apart

Coalescing must not put the two registers of a forbidden pair into one class.  It is asked of every
union through the lists of the pairs at the two roots; `buildCoalescePartition_respects` says that
asking there is enough.
-/

namespace DssPrime

def ForbiddenPair (facts : RegallocFacts) (n x y : ℕ) : Prop :=
  x < n ∧ y < n ∧ x ≠ y ∧ ((x, y) ∈ facts.forbidden ∨ (y, x) ∈ facts.forbidden)

theorem ForbiddenPair.symm {facts : RegallocFacts} {n x y : ℕ} (h : ForbiddenPair facts n x y) :
    ForbiddenPair facts n y x :=
  ⟨h.2.1, h.1, h.2.2.1.symm, h.2.2.2.symm⟩

theorem ForbiddenPair.listed {facts : RegallocFacts} {n x y : ℕ} (h : ForbiddenPair facts n x y) :
    ∃ fi f, facts.forbidden[fi]? = some f ∧ (f = (x, y) ∨ f = (y, x)) ∧
      fi ∈ incidentPairs facts n x ∧ fi ∈ incidentPairs facts n y := by
  obtain ⟨hx, hy, hne, hmem⟩ := h
  have key : ∀ u v : ℕ, u < n → v < n → u ≠ v → ∀ fi, facts.forbidden[fi]? = some (u, v) →
      fi ∈ incidentPairs facts n u ∧ fi ∈ incidentPairs facts n v := by
    intro u v hu hv huv fi hfi
    have hzip : ((u, v), fi) ∈ facts.forbidden.zipIdx := List.mem_zipIdx_iff_getElem?.2 hfi
    have hcond : ¬ (u ≥ n ∨ v ≥ n ∨ u = v) := by omega
    constructor <;> refine List.mem_flatMap.2 ⟨_, hzip, ?_⟩ <;> simp [hcond]
  rcases hmem with hmem | hmem <;> obtain ⟨fi, hfi⟩ := List.mem_iff_getElem?.1 hmem
  · obtain ⟨h1, h2⟩ := key x y hx hy hne fi hfi
    exact ⟨fi, _, hfi, .inl rfl, h1, h2⟩
  · obtain ⟨h1, h2⟩ := key y x hy hx hne.symm fi hfi
    exact ⟨fi, _, hfi, .inr rfl, h2, h1⟩

namespace CoalescePartition

variable {rangeOf : ℕ → LirLiveRange} {p : CoalescePartition} {facts : RegallocFacts} {n : ℕ}

def Closed (p : CoalescePartition) : Prop :=
  ∀ r x, x ∈ p.members r → p.parent x ∈ p.members r

theorem closed_findRoot (members : ℕ → List ℕ) (fuel : ℕ) {parent : ℕ → ℕ} {x : ℕ}
    (h : ∀ r y, y ∈ members r → parent y ∈ members r) :
    (∀ r y, y ∈ members r → (findRoot fuel parent x).1 y ∈ members r) ∧
      ∀ r, x ∈ members r → (findRoot fuel parent x).2 ∈ members r := by
  induction fuel generalizing parent x with
  | zero => exact ⟨h, fun _ hx => hx⟩
  | succ fuel ih =>
    unfold findRoot
    simp only
    split_ifs with hx
    · have hstep : ∀ r y, y ∈ members r →
          Function.update parent x (parent (parent x)) y ∈ members r := by
        intro r y hy
        by_cases hyx : y = x
        · subst hyx
          rw [Function.update_self]
          exact h r _ (h r _ hy)
        · rw [Function.update_of_ne hyx]
          exact h r y hy
      obtain ⟨h1, h2⟩ := @ih _ (Function.update parent x (parent (parent x)) x) hstep
      exact ⟨h1, fun r hr => h2 r (hstep r x hr)⟩
    · exact ⟨h, fun _ hx => hx⟩

theorem Closed.find (h : p.Closed) (x : ℕ) : (p.find x).1.Closed :=
  (closed_findRoot p.members (x + 1) h).1

theorem find_eq_root (hs : Sound rangeOf p) (h : p.Closed) {r x : ℕ} (hx : x ∈ p.members r) :
    (p.find x).2 = r := by
  have hmem : (p.find x).2 ∈ p.members r := (closed_findRoot p.members (x + 1) h).2 r hx
  obtain ⟨-, -, -, hroot, hrange⟩ := hs.find x
  have hself := hs.self _ (hrange (hs.root r x hx).2.2) hroot
  exact hs.unique _ _ _ hself hmem

theorem probe_spec {forbidden : List (ℕ × ℕ)} {ra rb : ℕ} (side : List ℕ) (hs : Sound rangeOf p)
    (h : p.Closed) :
    (probe forbidden ra rb side p).1.Closed ∧
      (probe forbidden ra rb side p).1.members = p.members ∧
      ((probe forbidden ra rb side p).2 = false → ∀ fi ∈ side, ∀ f, forbidden[fi]? = some f →
        ¬ (f.1 ∈ p.members ra ∧ f.2 ∈ p.members rb) ∧
        ¬ (f.1 ∈ p.members rb ∧ f.2 ∈ p.members ra)) := by
  induction side generalizing p with
  | nil => exact ⟨h, rfl, by simp⟩
  | cons fi side ih =>
    unfold CoalescePartition.probe
    simp only
    have hs0 : Sound rangeOf { p with antiAffinityProbes := p.antiAffinityProbes + 1 } :=
      hs.of_parent rfl rfl hs.forest fun _ => Iff.rfl
    have h0 : Closed { p with antiAffinityProbes := p.antiAffinityProbes + 1 } := h
    have hs1 := (hs0.find (forbidden.getD fi (0, 0)).1).1
    have h1 := h0.find (forbidden.getD fi (0, 0)).1
    have hs2 := (hs1.find (forbidden.getD fi (0, 0)).2).1
    have h2 := h1.find (forbidden.getD fi (0, 0)).2
    split_ifs with hhit
    · exact ⟨h2, rfl, fun hfalse => by cases hfalse⟩
    · obtain ⟨h3, hmembers, hmiss⟩ := ih hs2 h2
      refine ⟨h3, hmembers, fun hfalse fj hfj f hf => ?_⟩
      rcases List.mem_cons.1 hfj with rfl | hfj
      · have hget : forbidden.getD fj (0, 0) = f := by simp [List.getD, hf]
        rw [hget] at hhit
        constructor
        · rintro ⟨ha, hb⟩
          exact hhit (.inl ⟨find_eq_root hs0 h0 ha,
            find_eq_root (hs0.find f.1).1 (h0.find f.1) hb⟩)
        · rintro ⟨hb, ha⟩
          exact hhit (.inr ⟨find_eq_root hs0 h0 hb,
            find_eq_root (hs0.find f.1).1 (h0.find f.1) ha⟩)
      · exact hmiss hfalse fj hfj f hf

theorem straddles_spec (hs : Sound rangeOf p) (h : p.Closed) (forbidden : List (ℕ × ℕ))
    (incident : ℕ → List ℕ) (ra rb : ℕ) :
    (p.straddles forbidden incident ra rb).1.Closed ∧
      (p.straddles forbidden incident ra rb).1.members = p.members ∧
      ((p.straddles forbidden incident ra rb).2 = false →
        ∀ fi ∈ (if (incident ra).length ≤ (incident rb).length then incident ra else incident rb),
          ∀ f, forbidden[fi]? = some f →
            ¬ (f.1 ∈ p.members ra ∧ f.2 ∈ p.members rb) ∧
            ¬ (f.1 ∈ p.members rb ∧ f.2 ∈ p.members ra)) :=
  probe_spec (p := { p with antiAffinityQueries := p.antiAffinityQueries + 1 }) _
    (hs.of_parent rfl rfl hs.forest fun _ => Iff.rfl) h

/-- The pairs of a class are listed at its root, and none lies within a class. -/
structure Respects (facts : RegallocFacts) (n : ℕ) (p : CoalescePartition)
    (incident : ℕ → List ℕ) : Prop where
  closed : p.Closed
  listed : ∀ r x, x ∈ p.members r → ∀ fi ∈ incidentPairs facts n x, fi ∈ incident r
  apart : ∀ r x y, x ∈ p.members r → y ∈ p.members r → ¬ ForbiddenPair facts n x y

theorem Respects.of_members {incident : ℕ → List ℕ} (h : Respects facts n p incident)
    {q : CoalescePartition} (hclosed : q.Closed) (hmembers : q.members = p.members) :
    Respects facts n q incident :=
  ⟨hclosed, by rw [hmembers]; exact h.listed, by rw [hmembers]; exact h.apart⟩

theorem Respects.join {incident incident' : ℕ → List ℕ} (hs : Sound rangeOf p)
    (h : Respects facts n p incident) {k d : ℕ} (hne : k ≠ d) (hk : p.parent k = k)
    (hkr : HasRange rangeOf k) (hd : p.parent d = d) (hdr : HasRange rangeOf d)
    (hmiss : ∀ x ∈ p.members k, ∀ y ∈ p.members d, ¬ ForbiddenPair facts n x y)
    {q : CoalescePartition} (hparent : q.parent = Function.update p.parent d k)
    (hmembers : q.members =
      Function.update (Function.update p.members k (p.members k ++ p.members d)) d [])
    (hincident : ∀ fi, (fi ∈ incident k ∨ fi ∈ incident d) → fi ∈ incident' k)
    (hother : ∀ r, r ≠ k → r ≠ d → incident' r = incident r) : Respects facts n q incident' := by
  have hmemk : q.members k = p.members k ++ p.members d := by
    rw [hmembers, Function.update_of_ne hne, Function.update_self]
  have hmemd : q.members d = [] := by rw [hmembers, Function.update_self]
  have hmemo : ∀ r, r ≠ k → r ≠ d → q.members r = p.members r := by
    intro r hrk hrd
    rw [hmembers, Function.update_of_ne hrd, Function.update_of_ne hrk]
  have hkk := hs.self k hkr hk
  have hdd := hs.self d hdr hd
  have hcases : ∀ r x, x ∈ q.members r →
      (r = k ∧ (x ∈ p.members k ∨ x ∈ p.members d)) ∨ (r ≠ k ∧ r ≠ d ∧ x ∈ p.members r) := by
    intro r x hx
    by_cases hrk : r = k
    · subst hrk
      rw [hmemk] at hx
      exact .inl ⟨rfl, List.mem_append.1 hx⟩
    · by_cases hrd : r = d
      · subst hrd
        rw [hmemd] at hx
        cases hx
      · rw [hmemo r hrk hrd] at hx
        exact .inr ⟨hrk, hrd, hx⟩
  refine ⟨?_, ?_, ?_⟩
  · intro r x hx
    rw [hparent]
    rcases hcases r x hx with ⟨rfl, hx | hx⟩ | ⟨hrk, hrd, hx⟩
    · rw [hmemk]
      by_cases hxd : x = d
      · subst hxd
        rw [Function.update_self]
        exact List.mem_append_left _ hkk
      · rw [Function.update_of_ne hxd]
        exact List.mem_append_left _ (h.closed _ x hx)
    · rw [hmemk]
      by_cases hxd : x = d
      · subst hxd
        rw [Function.update_self]
        exact List.mem_append_left _ hkk
      · rw [Function.update_of_ne hxd]
        exact List.mem_append_right _ (h.closed _ x hx)
    · rw [hmemo r hrk hrd]
      have hxd : x ≠ d := fun heq => hrd (hs.unique r d x hx (heq ▸ hdd))
      rw [Function.update_of_ne hxd]
      exact h.closed r x hx
  · intro r x hx fi hfi
    rcases hcases r x hx with ⟨rfl, hx | hx⟩ | ⟨hrk, hrd, hx⟩
    · exact hincident fi (.inl (h.listed _ x hx fi hfi))
    · exact hincident fi (.inr (h.listed _ x hx fi hfi))
    · rw [hother r hrk hrd]
      exact h.listed r x hx fi hfi
  · intro r x y hx hy
    rcases hcases r x hx with ⟨rfl, hx⟩ | ⟨hrk, hrd, hx⟩
    · rcases hcases r y hy with ⟨-, hy⟩ | ⟨hrk, -, -⟩
      · rcases hx with hx | hx <;> rcases hy with hy | hy
        · exact h.apart _ x y hx hy
        · exact hmiss x hx y hy
        · exact fun hbad => hmiss y hy x hx hbad.symm
        · exact h.apart _ x y hx hy
      · exact absurd rfl hrk
    · rw [hmemo r hrk hrd] at hy
      exact h.apart r x y hx hy

theorem mem_mergeIncident {incident : ℕ → List ℕ} {ra rb : ℕ} (hne : ra ≠ rb) :
    (∀ fi, (fi ∈ incident ra ∨ fi ∈ incident rb) →
      fi ∈ mergeIncident incident ra rb (if ra < rb then ra else rb)) ∧
    ∀ r, r ≠ ra → r ≠ rb → mergeIncident incident ra rb r = incident r := by
  unfold mergeIncident
  rcases Nat.lt_or_gt_of_ne hne with hlt | hlt
  · simp only [hlt, ↓reduceIte]
    refine ⟨fun fi hfi => ?_, fun r h1 h2 => ?_⟩
    · rw [Function.update_of_ne hne, Function.update_self]
      split_ifs <;> simpa [or_comm] using hfi
    · rw [Function.update_of_ne h2, Function.update_of_ne h1]
  · simp only [Nat.not_lt_of_gt hlt, ↓reduceIte]
    refine ⟨fun fi hfi => ?_, fun r h1 h2 => ?_⟩
    · rw [Function.update_of_ne hne.symm, Function.update_self]
      split_ifs <;> simpa [or_comm] using hfi
    · rw [Function.update_of_ne h1, Function.update_of_ne h2]

theorem Respects.union {incident : ℕ → List ℕ} (hs : Sound rangeOf p)
    (h : Respects facts n p incident) {ra rb : ℕ} (hne : ra ≠ rb) (ha : p.parent ra = ra)
    (har : HasRange rangeOf ra) (hb : p.parent rb = rb) (hbr : HasRange rangeOf rb)
    (hmiss : ∀ x ∈ p.members ra, ∀ y ∈ p.members rb, ¬ ForbiddenPair facts n x y) :
    Respects facts n (p.union ra rb) (mergeIncident incident ra rb) := by
  obtain ⟨hincident, hother⟩ := @mem_mergeIncident incident ra rb hne
  unfold CoalescePartition.union
  rcases Nat.lt_or_gt_of_ne hne with hlt | hlt
  · simp only [hlt, ↓reduceIte] at hincident ⊢
    exact h.join hs hne ha har hb hbr hmiss rfl rfl hincident hother
  · simp only [Nat.not_lt_of_gt hlt, ↓reduceIte] at hincident ⊢
    refine h.join hs hne.symm hb hbr ha har
      (fun x hx y hy hbad => hmiss y hy x hx hbad.symm) rfl rfl
      (fun fi hfi => hincident fi hfi.symm) fun r h1 h2 => hother r h2 h1

end CoalescePartition

open CoalescePartition in
theorem coalesceEdge_respects {facts : RegallocFacts} {n : ℕ} {rangeOf : ℕ → LirLiveRange}
    {hot : LirRegClass → LirLiveRange → Bool} {p : CoalescePartition} {incident : ℕ → List ℕ}
    (hs : Sound rangeOf p) (h : Respects facts n p incident) (e : ℕ × ℕ) :
    Respects facts n (coalesceEdge facts n rangeOf hot (p, incident) e).1
      (coalesceEdge facts n rangeOf hot (p, incident) e).2 := by
  rcases coalesceEdge_cases facts n rangeOf hot p incident e with
    hst | ⟨hv1, hv2, p₁, p₂, p₃, ra, rb, straddle, hp₁, hp₂, hp₃, hst⟩
  · rw [hst]
    exact h
  obtain ⟨hs1, -, r1, root1, v1⟩ := hs.find e.1
  have hc2 : ((p.find e.1).1.find e.2).1.Closed := (h.closed.find e.1).find e.2
  have hm2 : ((p.find e.1).1.find e.2).1.members = p.members := rfl
  rw [hp₁] at hs1 r1 root1 v1 hc2 hm2
  obtain ⟨hs2, -, r2, root2, v2⟩ := hs1.find e.2
  rw [hp₂] at hs2 r2 root2 v2 hc2 hm2
  have h2 : Respects facts n p₂ incident := h.of_members hc2 hm2
  obtain ⟨hs3, -, r3⟩ := hs2.straddles facts.forbidden incident ra rb
  obtain ⟨hc3, hm3, hmiss⟩ := straddles_spec hs2 hc2 facts.forbidden incident ra rb
  rw [hp₃] at hs3 r3 hc3 hm3 hmiss
  have h3 : Respects facts n p₃ incident := h2.of_members hc3 hm3
  rcases hst with hst | hst | ⟨heq, -, -, hstraddle, hst⟩
  · rw [hst]
    exact h2
  · rw [hst]
    exact h3
  · rw [hst]
    refine h3.union hs3 heq ((r3 ra).2 ((r2 ra).2 ((r1 ra).2 root1))) (v1 hv1)
      ((r3 rb).2 ((r2 rb).2 root2)) (v2 hv2) ?_
    intro x hx y hy hbad
    obtain ⟨fi, f, hfi, hf, hlx, hly⟩ := hbad.listed
    rw [hm3] at hx hy
    have hside : fi ∈ (if (incident ra).length ≤ (incident rb).length then incident ra
        else incident rb) := by
      split_ifs
      · exact h2.listed ra x hx fi hlx
      · exact h2.listed rb y hy fi hly
    obtain ⟨hno, hno'⟩ := hmiss hstraddle fi hside f hfi
    rcases hf with rfl | rfl
    · exact hno ⟨hx, hy⟩
    · exact hno' ⟨hy, hx⟩

open CoalescePartition in
theorem buildCoalescePartition_respects (facts : RegallocFacts) (n : ℕ)
    {rangeOf : ℕ → LirLiveRange} (hot : LirRegClass → LirLiveRange → Bool)
    (h : RangesOk rangeOf) (r x y : ℕ)
    (hx : x ∈ (buildCoalescePartition facts n rangeOf hot).members r)
    (hy : y ∈ (buildCoalescePartition facts n rangeOf hot).members r) :
    ¬ ForbiddenPair facts n x y := by
  have key : ∀ (es : List (ℕ × ℕ)) (st : CoalescePartition × (ℕ → List ℕ)), Sound rangeOf st.1 →
      Respects facts n st.1 st.2 →
      Respects facts n (es.foldl (coalesceEdge facts n rangeOf hot) st).1
        (es.foldl (coalesceEdge facts n rangeOf hot) st).2 := by
    intro es
    induction es with
    | nil => exact fun st _ hst => hst
    | cons e es ih =>
      exact fun st hs hst => ih _ (coalesceEdge_sound hs e) (coalesceEdge_respects hs hst e)
  have hmem : ∀ r x, x ∈ (singletons rangeOf).members r → x = r := by
    intro r x hx
    simp only [singletons] at hx
    split_ifs at hx
    · exact List.mem_singleton.1 hx
    · cases hx
  have hstart : Respects facts n (singletons rangeOf) (incidentPairs facts n) := by
    refine ⟨fun r x hx => hx, fun r x hx fi hfi => ?_, fun r x y hx hy hbad => ?_⟩
    · rw [← hmem r x hx]
      exact hfi
    · exact hbad.2.2.1 ((hmem r x hx).trans (hmem r y hy).symm)
  unfold buildCoalescePartition at hx hy
  exact (key _ _ (sound_singletons h) hstart).apart r x y hx hy

end DssPrime
