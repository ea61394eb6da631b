import DssPrime.Opt.SimplifyCfg

/-!
# Cycles of trampolines

The trampolines of a function may branch to each other in a circle.  `breakJumpThreadCycles` takes
one of each circle out of the map, so that following the map ends.

`breakJumpThreadCycles_ok` : the search does not abort, what it returns is a part of the map, and
that part has no cycle.
-/

namespace DssPrime.SimplifyCfg

/-- The walk, latest block first, is a path of the map that ends in `v`. -/
def Linked (map : RedirectMap) : ℕ → List ℕ → Prop
  | _, [] => True
  | v, w :: walk => map.lookup w = some v ∧ Linked map w walk

variable {map : RedirectMap} {rpo walk : List ℕ} {mark : ℕ → Mark} {v : ℕ}

theorem Linked.leads (h : Linked map v walk) {t : ℕ} (hv : map.Leads v t) {x : ℕ}
    (hx : x ∈ walk) : map.Leads x t := by
  induction walk generalizing v with
  | nil => simp at hx
  | cons w walk ih =>
    have hw : map.Leads w t := .step h.1 hv
    rcases List.mem_cons.1 hx with rfl | hx
    · exact hw
    · exact ih h.2 hw hx

theorem Linked.of_append {s : ℕ} {l₁ l₂ : List ℕ} (h : Linked map v (l₁ ++ s :: l₂)) :
    Linked map v l₁ ∧ Linked map s l₂ := by
  induction l₁ generalizing v with
  | nil => exact ⟨trivial, h.2⟩
  | cons w l₁ ih => exact ⟨⟨h.1, (ih h.2).1⟩, (ih h.2).2⟩

theorem Linked.erase {s : ℕ} (h : Linked map v walk) (hs : s ∉ walk) :
    Linked (map.erase s) v walk := by
  induction walk generalizing v with
  | nil => trivial
  | cons w walk ih =>
    rw [List.mem_cons, not_or] at hs
    refine ⟨?_, ih h.2 hs.2⟩
    rw [RedirectMap.lookup_erase, if_neg (Ne.symm hs.1), h.1]

theorem Linked.subset_keys (h : Linked map v walk) : walk ⊆ map.keys := by
  induction walk generalizing v with
  | nil => exact List.nil_subset _
  | cons w walk ih => exact List.cons_subset.2 ⟨RedirectMap.mem_keys.2 ⟨v, h.1⟩, ih h.2⟩

/-- A walk that returns to one of its own blocks ends everywhere once a block of the circle is
taken out. -/
theorem Linked.leads_erase {a b : List ℕ} {s : ℕ} (h : Linked map v walk) (hn : walk.Nodup)
    (hw : walk = a ++ v :: b) (hs : s ∈ v :: a) {x : ℕ} (hx : x ∈ walk) :
    ∃ t, (map.erase s).Leads x t := by
  -- split the walk at the survivor: `v` is the survivor or older
  obtain ⟨l₁, l₂, hsplit, hv⟩ : ∃ l₁ l₂, walk = l₁ ++ s :: l₂ ∧ (v = s ∨ v ∈ l₂) := by
    rcases List.mem_cons.1 hs with rfl | hs
    · exact ⟨a, b, hw, .inl rfl⟩
    · obtain ⟨a₁, a₂, rfl⟩ := List.append_of_mem hs
      exact ⟨a₁, a₂ ++ v :: b, by simp [hw], .inr (by simp)⟩
  subst hsplit
  obtain ⟨h₁, h₂⟩ := h.of_append
  obtain ⟨hs₁, hs₂⟩ : s ∉ l₁ ∧ s ∉ l₂ := by
    have := List.nodup_middle.1 hn
    rw [List.nodup_cons, List.mem_append, not_or] at this
    exact this.1
  have hstop : (map.erase s).Leads s s :=
    .stop (by rw [RedirectMap.lookup_erase, if_pos rfl])
  have hold : ∀ y ∈ l₂, (map.erase s).Leads y s := fun y hy => (h₂.erase hs₂).leads hstop hy
  have hvs : (map.erase s).Leads v s := by
    rcases hv with rfl | hv
    · exact hstop
    · exact hold v hv
  refine ⟨s, ?_⟩
  rcases List.mem_append.1 hx with hx | hx
  · exact (h₁.erase hs₁).leads hvs hx
  · rcases List.mem_cons.1 hx with rfl | hx
    · exact hstop
    · exact hold x hx

theorem rank_ok {b : ℕ} (h : b ∈ rpo) : ∃ r, rank rpo b = .ok r := by
  unfold rank
  cases hr : rpo.idxOf? b with
  | none => exact absurd h (List.idxOf?_eq_none_iff.1 hr)
  | some r => exact ⟨r, rfl⟩

theorem earlier_ok {s b : ℕ} (hs : s ∈ rpo) (hb : b ∈ rpo) :
    ∃ r, earlier rpo s b = .ok r ∧ (r = s ∨ r = b) := by
  obtain ⟨rs, hrs⟩ := rank_ok hs
  obtain ⟨rb, hrb⟩ := rank_ok hb
  unfold earlier
  rw [hrs, hrb]
  refine ⟨if rb < rs then b else s, rfl, ?_⟩
  split_ifs
  · exact .inr rfl
  · exact .inl rfl

theorem survivor_ok {l : List ℕ} (hl : ∀ x ∈ l, x ∈ rpo) {s : ℕ} (hs : s ∈ rpo) :
    ∃ r, l.foldlM (earlier rpo) s = .ok r ∧ r ∈ s :: l := by
  induction l generalizing s with
  | nil => exact ⟨s, rfl, List.mem_cons_self⟩
  | cons b l ih =>
    obtain ⟨hb, hl⟩ := List.forall_mem_cons.1 hl
    obtain ⟨r, hr, hor⟩ := earlier_ok hs hb
    have hrpo : r ∈ rpo := by rcases hor with rfl | rfl <;> assumption
    obtain ⟨r', hr', hmem⟩ := ih hl hrpo
    refine ⟨r', ?_, ?_⟩
    · rw [List.foldlM_cons, hr]
      exact hr'
    · simp only [List.mem_cons] at hmem ⊢
      rcases hmem with rfl | hmem
      · exact hor.imp id .inl
      · exact .inr (.inr hmem)

def Part (out map : RedirectMap) : Prop := ∀ x, out.lookup x = map.lookup x ∨ out.lookup x = none

theorem Part.some {out : RedirectMap} (h : Part out map) {x u : ℕ} (hx : out.lookup x = some u) :
    map.lookup x = some u := by
  rcases h x with h | h
  · rw [← h, hx]
  · rw [h] at hx; simp at hx

theorem Part.keys {out : RedirectMap} (h : Part out map) : out.keys ⊆ map.keys := by
  intro x hx
  obtain ⟨u, hu⟩ := RedirectMap.mem_keys.1 hx
  exact RedirectMap.mem_keys.2 ⟨u, h.some hu⟩

theorem Part.trans {a b c : RedirectMap} (h : Part a b) (h' : Part b c) : Part a c := by
  intro x
  rcases h x with hx | hx
  · rw [hx]; exact h' x
  · exact .inr hx

theorem part_erase (map : RedirectMap) (k : ℕ) : Part (map.erase k) map := by
  intro x
  rw [RedirectMap.lookup_erase]
  split_ifs
  · exact .inr rfl
  · exact .inl rfl

/-- The invariant of one walk. -/
structure Walking (map : RedirectMap) (mark : ℕ → Mark) (walk : List ℕ) (v : ℕ) : Prop where
  onWalk : ∀ x, mark x = .onWalk ↔ x ∈ walk
  nodup : walk.Nodup
  linked : Linked map v walk
  settled : ∀ x, mark x = .settled → ∃ t, map.Leads x t

theorem Walking.enter (h : Walking map mark walk v) {next : ℕ} (hv : map.lookup v = some next)
    (hm : mark v = .unvisited) :
    Walking map (Function.update mark v .onWalk) (v :: walk) next := by
  have hnot : v ∉ walk := fun hx => by
    have := (h.onWalk v).2 hx
    rw [hm] at this
    simp at this
  refine ⟨fun x => ?_, List.nodup_cons.2 ⟨hnot, h.nodup⟩, ⟨hv, h.linked⟩, fun x hx => ?_⟩
  · rw [Function.update_apply, List.mem_cons]
    split_ifs with hx
    · simp [hx]
    · rw [h.onWalk]; simp [hx]
  · rw [Function.update_apply] at hx
    split_ifs at hx
    exact h.settled x hx

/-- **One walk**: it does not abort, and everything it passed ends afterwards. -/
theorem walkChain_ok (hrpo : map.keys ⊆ rpo) {fuel : ℕ} (h : Walking map mark walk v)
    (hf : map.length + 1 ≤ fuel + walk.length) :
    ∃ map' mark' walk', walkChain rpo fuel map mark walk v = .ok (map', mark', walk') ∧
      Part map' map ∧ walk ⊆ walk' ∧ (∀ x, mark' x = .onWalk → x ∈ walk') ∧
      (∀ x, mark' x = .settled ↔ mark x = .settled) ∧
      (∀ x, x ∈ walk' ∨ mark x = .settled → ∃ t, map'.Leads x t) ∧
      (mark v = .unvisited → (map.lookup v).isSome → v ∈ walk') := by
  induction fuel generalizing mark walk v with
  | zero =>
    have := (h.nodup.subperm h.linked.subset_keys).length_le
    rw [RedirectMap.keys, List.length_map] at this
    omega
  | succ fuel ih =>
    unfold walkChain
    -- a walk that stops at a block whose chain ends
    have stop : (∃ t, map.Leads v t) →
        Part map map ∧ walk ⊆ walk ∧ (∀ x, mark x = .onWalk → x ∈ walk) ∧
        (∀ x, mark x = .settled ↔ mark x = .settled) ∧
        ∀ x, x ∈ walk ∨ mark x = .settled → ∃ t, map.Leads x t := by
      rintro ⟨t, ht⟩
      refine ⟨fun _ => .inl rfl, fun _ hx => hx, fun x => (h.onWalk x).1, fun _ => Iff.rfl,
        fun x hx => ?_⟩
      rcases hx with hx | hx
      · exact ⟨t, h.linked.leads ht hx⟩
      · exact h.settled x hx
    cases hv : map.lookup v with
    | none =>
      obtain ⟨h1, h2, h3, h4, h5⟩ := stop ⟨v, .stop hv⟩
      exact ⟨map, mark, walk, rfl, h1, h2, h3, h4, h5, fun _ hs => by simp at hs⟩
    | some next =>
      cases hm : mark v with
      | settled =>
        obtain ⟨h1, h2, h3, h4, h5⟩ := stop (h.settled v hm)
        exact ⟨map, mark, walk, rfl, h1, h2, h3, h4, h5, fun hu => by simp at hu⟩
      | onWalk =>
        have hmem := (h.onWalk v).1 hm
        have hwalk : walk = walk.takeWhile (· ≠ v) ++ v :: (walk.dropWhile (· ≠ v)).tail := by
          have hdrop : walk.dropWhile (· ≠ v) = v :: (walk.dropWhile (· ≠ v)).tail := by
            clear * - hmem
            induction walk with
            | nil => simp at hmem
            | cons w walk ih =>
              by_cases hw : w = v
              · simp [hw]
              · simpa [List.dropWhile_cons, hw] using ih (by simpa [Ne.symm hw] using hmem)
          rw [← hdrop, List.takeWhile_append_dropWhile]
        have hin : ∀ x ∈ walk, x ∈ rpo := fun x hx => hrpo (h.linked.subset_keys hx)
        obtain ⟨s, hs, hsm⟩ := survivor_ok (l := (walk.takeWhile (· ≠ v)).reverse)
          (fun x hx => hin x (List.takeWhile_subset _ (List.mem_reverse.1 hx))) (hin v hmem)
        refine ⟨map.erase s, mark, walk, ?_, part_erase map s, fun _ hx => hx,
          fun x => (h.onWalk x).1, fun _ => Iff.rfl, fun x hx => ?_, fun hu => by simp at hu⟩
        · simp only [hmem, ↓reduceIte, hs]
          rfl
        · rcases hx with hx | hx
          · exact h.linked.leads_erase h.nodup hwalk (by simpa using hsm) hx
          · obtain ⟨t, ht⟩ := h.settled x hx
            exact ht.erase s
      | unvisited =>
        have hnext := h.enter hv hm
        obtain ⟨map', mark', walk', hok, h1, h2, h3, h4, h5, -⟩ :=
          ih hnext (by rw [List.length_cons]; omega)
        have hset : ∀ x, Function.update mark v .onWalk x = .settled ↔ mark x = .settled := by
          intro x
          rw [Function.update_apply]
          split_ifs with hx
          · subst hx; simp [hm]
          · rfl
        refine ⟨map', mark', walk', hok, h1, fun x hx => h2 (List.mem_cons_of_mem _ hx), h3,
          fun x => (h4 x).trans (hset x), fun x hx => h5 x (hx.imp id (hset x).2),
          fun _ _ => h2 List.mem_cons_self⟩

/-- The invariant between two walks. -/
structure Searching (map : RedirectMap) (mark : ℕ → Mark) : Prop where
  idle : ∀ x, mark x ≠ .onWalk
  settled : ∀ x, mark x = .settled → ∃ t, map.Leads x t

theorem breakCyclesFrom_ok (hrpo : map.keys ⊆ rpo) (h : Searching map mark) (start : ℕ) :
    ∃ map' mark', breakCyclesFrom rpo (map, mark) start = .ok (map', mark') ∧
      Part map' map ∧ Searching map' mark' ∧
      (∀ x, (∃ t, map.Leads x t) → ∃ t, map'.Leads x t) ∧ ∃ t, map'.Leads start t := by
  unfold breakCyclesFrom
  have idle : ∀ x : ℕ, (∃ t, map.Leads x t) → ∃ t, map.Leads x t := fun _ hx => hx
  by_cases hnone : (map.lookup start).isNone
  · refine ⟨map, mark, by rw [if_pos hnone], fun _ => .inl rfl, h, idle, start, .stop ?_⟩
    simpa using hnone
  · rw [if_neg hnone]
    by_cases hmark : mark start = .unvisited
    · obtain ⟨map', mark', walk', hok, hpart, -, honw, hset, hends, hin⟩ :=
        @walkChain_ok map rpo [] mark start hrpo (map.length + 1)
          ⟨fun x => by simpa using h.idle x, List.nodup_nil, trivial, h.settled⟩ (by simp)
      have hstart : start ∈ walk' := hin hmark (by simpa [Option.isNone_iff_eq_none,
        Option.isSome_iff_ne_none] using hnone)
      refine ⟨map', fun b => if b ∈ walk' then .settled else mark' b, ?_, hpart, ⟨fun x => ?_,
        fun x hx => ?_⟩, fun x hx => ?_, hends start (.inl hstart)⟩
      · rw [if_neg (by simpa using hmark), hok]
        rfl
      · split_ifs with hx
        · simp
        · exact fun hc => hx (honw x hc)
      · split_ifs at hx with hw
        · exact hends x (.inl hw)
        · exact hends x (.inr ((hset x).1 hx))
      · -- a part of the map ends wherever the map does
        obtain ⟨t, ht⟩ := hx
        refine ht.rec' (Q := fun x => ∃ t, map'.Leads x t) ?_ fun x y hx _ ih => ?_
        · refine ⟨t, .stop ?_⟩
          rcases hpart t with hp | hp
          · rw [hp, ht.last]
          · exact hp
        · obtain ⟨t', ht'⟩ := ih
          rcases hpart x with hp | hp
          · exact ⟨t', .step (hp.trans hx) ht'⟩
          · exact ⟨x, .stop hp⟩
    · refine ⟨map, mark, by rw [if_pos hmark], fun _ => .inl rfl, h, idle, ?_⟩
      refine h.settled start ?_
      have := h.idle start
      cases hm : mark start <;> simp_all

theorem breakCycles_foldlM_ok : ∀ (l : List ℕ) {map : RedirectMap} {mark : ℕ → Mark},
    map.keys ⊆ rpo → Searching map mark →
      ∃ map' mark', l.foldlM (breakCyclesFrom rpo) (map, mark) = .ok (map', mark') ∧
        Part map' map ∧ (∀ x, (∃ t, map.Leads x t) → ∃ t, map'.Leads x t) ∧
        ∀ x ∈ l, ∃ t, map'.Leads x t := by
  intro l
  induction l with
  | nil =>
    intro map mark _ _
    exact ⟨map, mark, rfl, fun _ => .inl rfl, fun _ hx => hx, by simp⟩
  | cons start l ih =>
    intro map mark hrpo h
    obtain ⟨map₁, mark₁, hok₁, hp₁, hs₁, hk₁, hst⟩ := breakCyclesFrom_ok hrpo h start
    obtain ⟨map₂, mark₂, hok₂, hp₂, hk₂, hl₂⟩ := ih (fun x hx => hrpo (hp₁.keys hx)) hs₁
    refine ⟨map₂, mark₂, ?_, hp₂.trans hp₁, fun x hx => hk₂ x (hk₁ x hx), fun x hx => ?_⟩
    · rw [List.foldlM_cons, hok₁]
      exact hok₂
    · rcases List.mem_cons.1 hx with rfl | hx
      · exact hk₂ x hst
      · exact hl₂ x hx

/-- **The search for cycles does not abort**, and what it leaves of the map has no cycle. -/
theorem breakJumpThreadCycles_ok (hrpo : map.keys ⊆ rpo) :
    ∃ out, breakJumpThreadCycles rpo map = .ok out ∧ Part out map ∧ out.Acyclic := by
  obtain ⟨out, mark, hok, hpart, -, hends⟩ := @breakCycles_foldlM_ok rpo rpo map
    (fun _ => .unvisited) hrpo ⟨by simp, by simp⟩
  refine ⟨out, ?_, hpart, fun v => ?_⟩
  · unfold breakJumpThreadCycles
    rw [hok]
    rfl
  · cases hv : out.lookup v with
    | none => exact ⟨v, .stop hv⟩
    | some u => exact hends v (hrpo (hpart.keys (RedirectMap.mem_keys.2 ⟨u, hv⟩)))

end DssPrime.SimplifyCfg
