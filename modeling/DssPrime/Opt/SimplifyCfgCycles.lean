import DssPrime.Opt.SimplifyCfgThreads

/-!
# Which trampolines are taken out

The redirect map is a graph in which every block has at most one edge out.
-/

namespace DssPrime

namespace RedirectMap

def Redirects (map : RedirectMap) (a b : ℕ) : Prop := map.lookup a = some b

def Reaches (map : RedirectMap) : ℕ → ℕ → Prop := Relation.ReflTransGen map.Redirects

def OnCycle (map : RedirectMap) (a : ℕ) : Prop := Relation.TransGen map.Redirects a a

variable {map map₀ : RedirectMap} {a b c x : ℕ}

theorem OnCycle.step (h : map.OnCycle a) (hab : map.Redirects a b) :
    map.OnCycle b ∧ map.Reaches b a := by
  obtain ⟨c, hac, hca⟩ := Relation.TransGen.head'_iff.1 h
  obtain rfl : c = b := Option.some.inj (hac.symm.trans hab)
  exact ⟨Relation.TransGen.tail' hca hab, hca⟩

theorem OnCycle.reaches (h : map.OnCycle a) (hab : map.Reaches a b) :
    map.OnCycle b ∧ map.Reaches b a := by
  induction hab with
  | refl => exact ⟨h, .refl⟩
  | tail _ hbc ih =>
    obtain ⟨hc, hcb⟩ := ih.1.step hbc
    exact ⟨hc, hcb.trans ih.2⟩

theorem OnCycle.redirects (h : map.OnCycle a) : ∃ b, map.Redirects a b := by
  obtain ⟨b, hab, -⟩ := Relation.TransGen.head'_iff.1 h
  exact ⟨b, hab⟩

theorem OnCycle.not_leads (h : map.OnCycle a) {t : ℕ} : ¬ map.Leads a t := by
  intro ht
  have key : ¬ map.OnCycle a := by
    refine ht.rec' (Q := fun a => ¬ map.OnCycle a) (fun hc => ?_) fun v u hvu _ ih hc => ?_
    · obtain ⟨b, hb⟩ := hc.redirects
      exact absurd (ht.last.symm.trans hb) (by simp)
    · exact ih (hc.step hvu).1
  exact key h

def Earliest (map : RedirectMap) (rpo : List ℕ) (a : ℕ) : Prop :=
  map.OnCycle a ∧ ∀ b, map.Reaches a b → rpo.idxOf a ≤ rpo.idxOf b

theorem Earliest.unique {rpo : List ℕ} (hrpo : map.keys ⊆ rpo) (ha : Earliest map rpo a)
    (hb : Earliest map rpo b) (hab : map.Reaches a b) : a = b := by
  obtain ⟨-, hba⟩ := ha.1.reaches hab
  obtain ⟨c, hc⟩ := ha.1.redirects
  exact (List.idxOf_inj (hrpo (mem_keys.2 ⟨c, hc⟩))).1 (le_antisymm (ha.2 b hab) (hb.2 a hba))

end RedirectMap

namespace SimplifyCfg

open RedirectMap

variable {map map₀ : RedirectMap} {rpo walk : List ℕ} {mark : ℕ → Mark} {v : ℕ}

theorem Part.onCycle (h : Part map map₀) {a : ℕ} (ha : map.OnCycle a) : map₀.OnCycle a :=
  Relation.TransGen.mono (show map.Redirects ≤ map₀.Redirects from fun _ _ => h.some) a a ha

theorem Part.reaches_of_onCycle (h : Part map map₀) {a b : ℕ} (ha : map.OnCycle a)
    (hab : map₀.Reaches a b) : map.Reaches a b := by
  induction hab with
  | refl => exact .refl
  | @tail b c _ hbc ih =>
    obtain ⟨d, hd⟩ := (ha.reaches ih).1.redirects
    obtain rfl : d = c := Option.some.inj ((h.some hd).symm.trans hbc)
    exact ih.tail hd

theorem Part.earliest (h : Part map map₀) {a : ℕ} (ha : Earliest map rpo a) :
    Earliest map₀ rpo a :=
  ⟨h.onCycle ha.1, fun b hb => ha.2 b (h.reaches_of_onCycle ha.1 hb)⟩

theorem Linked.redirects {l : List ℕ} (h : Linked map v l) {x : ℕ} (hx : x ∈ l) :
    ∃ y ∈ v :: l, map.Redirects x y := by
  induction l generalizing v with
  | nil => simp at hx
  | cons w l ih =>
    rcases List.mem_cons.1 hx with rfl | hx
    · exact ⟨v, List.mem_cons_self, h.1⟩
    · obtain ⟨y, hy, hxy⟩ := ih h.2 hx
      exact ⟨y, List.mem_cons_of_mem _ hy, hxy⟩

theorem Linked.transGen {l : List ℕ} (h : Linked map v l) {x : ℕ} (hx : x ∈ l) :
    Relation.TransGen map.Redirects x v := by
  induction l generalizing v with
  | nil => simp at hx
  | cons w l ih =>
    rcases List.mem_cons.1 hx with rfl | hx
    · exact .single h.1
    · exact (ih h.2 hx).tail h.1

theorem Linked.append_left {l₁ l₂ : List ℕ} (h : Linked map v (l₁ ++ l₂)) : Linked map v l₁ := by
  induction l₁ generalizing v with
  | nil => trivial
  | cons w l₁ ih => exact ⟨h.1, ih h.2⟩

theorem Linked.cycle {a b : List ℕ} (h : Linked map v (a ++ v :: b)) :
    (∀ x ∈ v :: a, map.OnCycle x) ∧ ∀ x ∈ v :: a, ∀ y, map.Reaches x y → y ∈ v :: a := by
  have hloop : Linked map v (a ++ [v]) := by
    have h' : Linked map v ((a ++ [v]) ++ b) := by simpa using h
    exact h'.append_left
  have hmem : ∀ x, x ∈ v :: a ↔ x ∈ a ++ [v] := fun x => by
    rw [List.mem_cons, List.mem_append, List.mem_singleton, or_comm]
  refine ⟨fun x hx => ?_, fun x hx y hxy => ?_⟩
  · -- from `v` round to `x`, and on to `v` again
    have hxv := hloop.transGen ((hmem x).1 hx)
    rcases List.mem_cons.1 hx with rfl | hxa
    · exact hxv
    · obtain ⟨a₁, a₂, rfl⟩ := List.append_of_mem hxa
      have hrest : Linked map v (a₁ ++ x :: (a₂ ++ [v])) := by simpa using hloop
      exact hxv.trans (hrest.of_append.2.transGen (by simp))
  · induction hxy with
    | refl => exact hx
    | @tail y z _ hyz ih =>
      obtain ⟨z', hz', hyz'⟩ := hloop.redirects ((hmem y).1 ih)
      obtain rfl : z' = z := Option.some.inj (hyz'.symm.trans hyz)
      rcases List.mem_cons.1 hz' with rfl | hz'
      · exact List.mem_cons_self
      · exact (hmem z').2 hz'

theorem rank_eq {b : ℕ} (h : b ∈ rpo) : rank rpo b = .ok (rpo.idxOf b) := by
  unfold rank
  rw [List.idxOf_eq_getD_idxOf?]
  cases hr : rpo.idxOf? b with
  | none => exact absurd h (List.idxOf?_eq_none_iff.1 hr)
  | some r => rfl

theorem survivor_earliest {l : List ℕ} (hl : ∀ x ∈ l, x ∈ rpo) {s : ℕ} (hs : s ∈ rpo) :
    ∃ r, l.foldlM (earlier rpo) s = .ok r ∧ r ∈ s :: l ∧
      ∀ x ∈ s :: l, rpo.idxOf r ≤ rpo.idxOf x := by
  induction l generalizing s with
  | nil => exact ⟨s, rfl, List.mem_cons_self, fun x hx => by rw [List.mem_singleton.1 hx]⟩
  | cons b l ih =>
    obtain ⟨hb, hl⟩ := List.forall_mem_cons.1 hl
    have hstep : earlier rpo s b =
        .ok (if rpo.idxOf b < rpo.idxOf s then b else s) := by
      rw [earlier, rank_eq hb, rank_eq hs]
      rfl
    obtain ⟨r, hr, hmem, hle⟩ := ih hl (s := if rpo.idxOf b < rpo.idxOf s then b else s) (by
      split_ifs <;> assumption)
    refine ⟨r, ?_, ?_, fun x hx => ?_⟩
    · rw [List.foldlM_cons, hstep]
      exact hr
    · simp only [List.mem_cons] at hmem ⊢
      split_ifs at hmem
      · exact .inr hmem
      · exact hmem.imp_right .inr
    · have hmin := hle _ List.mem_cons_self
      simp only [List.mem_cons] at hx
      rcases hx with rfl | rfl | hx
      · split_ifs at hmin <;> omega
      · split_ifs at hmin <;> omega
      · exact hle x (List.mem_cons_of_mem _ hx)

/-- **One walk takes nothing out, or the earliest block of a cycle.** -/
theorem walkChain_erases (hrpo : map.keys ⊆ rpo) {fuel : ℕ} (h : Walking map mark walk v)
    {map' : RedirectMap} {mark' : ℕ → Mark} {walk' : List ℕ}
    (hok : walkChain rpo fuel map mark walk v = .ok (map', mark', walk')) :
    map' = map ∨ ∃ s, Earliest map rpo s ∧ map' = map.erase s := by
  induction fuel generalizing mark walk v with
  | zero => simp [walkChain] at hok
  | succ fuel ih =>
    rw [walkChain] at hok
    cases hv : map.lookup v with
    | none =>
      simp only [hv, Except.ok.injEq, Prod.mk.injEq] at hok
      exact .inl hok.1.symm
    | some next =>
      cases hm : mark v with
      | settled =>
        simp only [hv, hm, Except.ok.injEq, Prod.mk.injEq] at hok
        exact .inl hok.1.symm
      | onWalk =>
        have hmem := (h.onWalk v).1 hm
        simp only [hv, hm, hmem, if_true] at hok
        obtain ⟨a, b, hnot, hwalk⟩ : ∃ a b, v ∉ a ∧ walk = a ++ v :: b := by
          obtain ⟨a, b, hab⟩ := List.append_of_mem hmem
          have hn := h.nodup
          rw [hab, List.nodup_middle, List.nodup_cons, List.mem_append, not_or] at hn
          exact ⟨a, b, hn.1.1, hab⟩
        have htake : walk.takeWhile (· ≠ v) = a := by
          have hne : ∀ x ∈ a, decide (x ≠ v) = true := fun x hx => decide_eq_true (by
            rintro rfl
            exact hnot hx)
          rw [hwalk, List.takeWhile_append_of_pos hne]
          simp
        have hin : ∀ x ∈ walk, x ∈ rpo := fun x hx => hrpo (h.linked.subset_keys hx)
        obtain ⟨s, hs, hsm, hle⟩ := survivor_earliest (l := a.reverse)
          (fun x hx => hin x (by rw [hwalk]; exact List.mem_append_left _ (List.mem_reverse.1 hx)))
          (hin v hmem)
        rw [htake, hs] at hok
        obtain ⟨hcycle, hclosed⟩ := (hwalk ▸ h.linked).cycle
        have hmem' : ∀ x, x ∈ v :: a ↔ x ∈ v :: a.reverse := fun x => by simp
        refine .inr ⟨s, ⟨hcycle s ((hmem' s).2 hsm), fun y hy => ?_⟩, ?_⟩
        · exact hle y ((hmem' y).1 (hclosed s ((hmem' s).2 hsm) y hy))
        · exact (congrArg Prod.fst (Except.ok.inj hok)).symm
      | unvisited =>
        simp only [hv, hm] at hok
        exact ih (h.enter hv hm) hok

def Opened (rpo : List ℕ) (map₀ map : RedirectMap) : Prop :=
  Part map map₀ ∧ ∀ x, map.lookup x = none → map₀.lookup x = none ∨ Earliest map₀ rpo x

theorem Opened.erase (h : Opened rpo map₀ map) {s : ℕ} (hs : Earliest map rpo s) :
    Opened rpo map₀ (map.erase s) := by
  refine ⟨(part_erase map s).trans h.1, fun x hx => ?_⟩
  rw [lookup_erase] at hx
  split_ifs at hx with hxs
  · exact .inr (hxs ▸ h.1.earliest hs)
  · exact h.2 x hx

theorem breakCyclesFrom_opened (hrpo : map.keys ⊆ rpo) (h : Searching map mark)
    (ho : Opened rpo map₀ map) {start : ℕ} {map' : RedirectMap} {mark' : ℕ → Mark}
    (hok : breakCyclesFrom rpo (map, mark) start = .ok (map', mark')) : Opened rpo map₀ map' := by
  unfold breakCyclesFrom at hok
  split_ifs at hok with h1 h2
  · obtain ⟨rfl, -⟩ := Prod.mk.inj (Except.ok.inj hok)
    exact ho
  · obtain ⟨rfl, -⟩ := Prod.mk.inj (Except.ok.inj hok)
    exact ho
  · cases hw : walkChain rpo (map.length + 1) map mark [] start with
    | error e =>
      rw [hw] at hok
      cases hok
    | ok r =>
      obtain ⟨map₁, mark₁, walk₁⟩ := r
      rw [hw] at hok
      obtain rfl : map₁ = map' := congrArg Prod.fst (Except.ok.inj hok)
      have hstart : Walking map mark [] start :=
        ⟨fun x => by simpa using h.idle x, List.nodup_nil, trivial, h.settled⟩
      rcases walkChain_erases hrpo hstart hw with rfl | ⟨s, hs, rfl⟩
      · exact ho
      · exact ho.erase hs

theorem foldlM_breakCyclesFrom_opened : ∀ (l : List ℕ) {map : RedirectMap} {mark : ℕ → Mark},
    map.keys ⊆ rpo → Searching map mark → Opened rpo map₀ map →
      ∀ {r}, l.foldlM (breakCyclesFrom rpo) (map, mark) = .ok r → Opened rpo map₀ r.1 := by
  intro l
  induction l with
  | nil =>
    intro map mark _ _ ho r hr
    obtain rfl := Except.ok.inj hr
    exact ho
  | cons start l ih =>
    intro map mark hrpo h ho r hr
    obtain ⟨map₁, mark₁, hok, hpart, hs, -⟩ := breakCyclesFrom_ok hrpo h start
    rw [List.foldlM_cons, hok] at hr
    exact ih (fun x hx => hrpo (hpart.keys hx)) hs (breakCyclesFrom_opened hrpo h ho hok) hr

/-- **Every cycle of trampolines loses its earliest block and nothing else is lost**; what is left
has no cycle, and compressing it sends every trampoline to the end of its chain. -/
theorem breakJumpThreadCycles_exact (hrpo : map.keys ⊆ rpo) :
    ∃ out final, breakJumpThreadCycles rpo map = .ok out ∧
      (∀ x, out.lookup x = map.lookup x ∧ ¬ Earliest map rpo x ∨
        out.lookup x = none ∧ Earliest map rpo x) ∧
      (∀ x, map.OnCycle x → ∃! s, map.Reaches x s ∧ out.lookup s = none) ∧
      (∀ x, ¬ out.OnCycle x) ∧
      pathCompressAndVerify passName out = .ok final ∧
      (∀ x, final.lookup x = none ↔ out.lookup x = none) ∧
      ∀ x t, final.lookup x = some t →
        out.Leads x t ∧ out.lookup t = none ∧ ∀ t', out.Leads x t' → t' = t := by
  obtain ⟨out, hok, hpart, hac⟩ := breakJumpThreadCycles_ok hrpo
  obtain ⟨final, hfinal, hkeys, hleads⟩ := pathCompressAndVerify_ok hac passName
  have hopened : Opened rpo map out := by
    unfold breakJumpThreadCycles at hok
    cases hr : rpo.foldlM (breakCyclesFrom rpo) (map, fun _ => Mark.unvisited) with
    | error e =>
      rw [hr] at hok
      cases hok
    | ok r =>
      rw [hr] at hok
      obtain rfl : r.1 = out := Except.ok.inj hok
      exact foldlM_breakCyclesFrom_opened rpo hrpo ⟨by simp, by simp⟩
        ⟨fun _ => .inl rfl, fun _ => .inl⟩ hr
  have hnocycle : ∀ x, ¬ out.OnCycle x := by
    intro x hx
    obtain ⟨t, ht⟩ := hac x
    exact hx.not_leads ht
  -- a cycle that lost nothing would still be there
  have hlost : ∀ x, map.OnCycle x → ∃ s, map.Reaches x s ∧ out.lookup s = none := by
    intro x hx
    by_contra hnone
    have hkeep : ∀ y, map.Reaches x y → ∀ z, map.Redirects y z → out.Redirects y z := by
      intro y hy z hyz
      refine ((hpart y).resolve_right fun h => hnone ⟨y, hy, h⟩).trans hyz
    refine hnocycle x ?_
    have key : ∀ y, Relation.TransGen map.Redirects x y → Relation.TransGen out.Redirects x y := by
      intro y hy
      induction hy with
      | single hxy => exact .single (hkeep x .refl _ hxy)
      | tail hxy hyz ih => exact ih.tail (hkeep _ hxy.to_reflTransGen _ hyz)
    exact key x hx
  have hgone : ∀ x s, map.OnCycle x → map.Reaches x s → out.lookup s = none →
      Earliest map rpo s := by
    intro x s hx hxs hs
    obtain ⟨z, hz⟩ := (hx.reaches hxs).1.redirects
    exact (hopened.2 s hs).resolve_left fun h =>
      absurd (h.symm.trans hz) (by simp)
  refine ⟨out, final, hok, fun x => ?_, fun x hx => ?_, hnocycle, hfinal, hkeys,
    fun x t hxt => ?_⟩
  · by_cases hx : Earliest map rpo x
    · refine .inr ⟨?_, hx⟩
      obtain ⟨s, hxs, hs⟩ := hlost x hx.1
      rwa [hx.unique hrpo (hgone x s hx.1 hxs hs) hxs]
    · refine .inl ⟨(hpart x).elim id fun hn => ?_, hx⟩
      rw [hn, (hopened.2 x hn).resolve_right hx]
  · obtain ⟨s, hxs, hs⟩ := hlost x hx
    refine ⟨s, ⟨hxs, hs⟩, fun s' hs' => ?_⟩
    have hearly := hgone x s hx hxs hs
    have hearly' := hgone x s' hx hs'.1 hs'.2
    exact hearly'.unique hrpo hearly ((hx.reaches hs'.1).2.trans hxs)
  · have hxt' := hleads x t hxt
    exact ⟨hxt', hxt'.last, fun t' ht' => hxt'.unique ht'⟩

theorem breakJumpThreadCycles_exact_twoCycles :
    breakJumpThreadCycles [1, 2, 3, 4, 5] [(2, 3), (3, 2), (4, 3), (5, 5)] =
        .ok [(3, 2), (4, 3)] ∧
      ∃ out final, breakJumpThreadCycles [1, 2, 3, 4, 5] [(2, 3), (3, 2), (4, 3), (5, 5)] =
          .ok out ∧
        pathCompressAndVerify passName out = .ok final := by
  refine ⟨by decide, ?_⟩
  obtain ⟨out, final, hok, -, -, -, hfinal, -⟩ :=
    @breakJumpThreadCycles_exact [(2, 3), (3, 2), (4, 3), (5, 5)] [1, 2, 3, 4, 5] (by decide)
  exact ⟨out, final, hok, hfinal⟩

end SimplifyCfg

end DssPrime
