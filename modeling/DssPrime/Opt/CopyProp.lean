import DssPrime.Mir.Semantics
import DssPrime.Mir.Cfg
import DssPrime.Opt.PathCompress
import Mathlib

/-!
# Copy propagation

The model of `CopyPropPolicy::analyze`: a phi whose incoming values, followed through the map so
far, are all one value or the phi itself is redirected to that value, and the phis that use it are
looked at again. The map is compressed at the end.
-/

namespace DssPrime.CopyProp

def collectPhis (m : MirData) (f : ℕ) : List ℕ :=
  ((m.funcBlocks f).flatMap m.blockInsts).filter fun i => m.instOpcode i = .phi

def phiUsers (m : MirData) (allPhis : List ℕ) (v : ℕ) : List ℕ :=
  allPhis.flatMap fun P => ((m.phiIncomings P).filter (·.value = v)).map fun _ => P

/-- The incoming values of a phi other than itself, through the map; the search stops at two. -/
def distinctIncomings (map : RedirectMap) (P : ℕ) :
    List MirPhiIncoming → List ℕ → Except RebuildFatal (List ℕ)
  | [], distinct => .ok distinct
  | inc :: rest, distinct => do
    let v ← map.resolveTransitive "CopyProp" inc.value
    if v = P then distinctIncomings map P rest distinct
    else
      let distinct := if v ∈ distinct then distinct else v :: distinct
      if 1 < distinct.length then return distinct
      distinctIncomings map P rest distinct

def collapseTarget (m : MirData) (map : RedirectMap) (P : ℕ) : Except RebuildFatal (Option ℕ) := do
  match ← distinctIncomings map P (m.phiIncomings P) [] with
  | [target] => return some target
  | _ => return none

def collapseLoop (m : MirData) (allPhis : List ℕ) :
    ℕ → List ℕ → RedirectMap → Except RebuildFatal (Option RedirectMap)
  | _, [], collapsed => .ok (some collapsed)
  | 0, _ :: _, _ => .ok none
  | fuel + 1, P :: worklist, collapsed =>
    if P ∈ collapsed.keys then collapseLoop m allPhis fuel worklist collapsed
    else do
      match ← collapseTarget m collapsed P with
      | none => collapseLoop m allPhis fuel worklist collapsed
      | some target =>
        let collapsed := collapsed ++ [(P, target)]
        collapseLoop m allPhis fuel
          (worklist ++ (phiUsers m allPhis P).filter (· ∉ collapsed.keys)) collapsed

def loopFuel (m : MirData) (allPhis : List ℕ) : ℕ :=
  allPhis.length + ∑ P ∈ allPhis.toFinset, (phiUsers m allPhis P).length

def analyze (m : MirData) (f : ℕ) : Except RebuildFatal (Option RedirectMap) := do
  match ← collapseLoop m (collectPhis m f) (loopFuel m (collectPhis m f)) (collectPhis m f) [] with
  | none => return none
  | some collapsed => return some (← collapsed.pathCompressAndVerify "CopyProp")

/-- Every entry redirects a phi, and its incoming values lead to the phi or to where it goes in the
map before it. -/
inductive Collapses (m : MirData) (phis : List ℕ) : RedirectMap → Prop
  | nil : Collapses m phis []
  | snoc {map : RedirectMap} {P t : ℕ} : Collapses m phis map → P ∈ phis → map.lookup P = none →
    map.lookup t = none → t ≠ P →
    (∀ inc ∈ m.phiIncomings P, ∃ r, map.Leads inc.value r ∧ (r = P ∨ r = t)) →
    (∃ inc ∈ m.phiIncomings P, map.Leads inc.value t) → Collapses m phis (map ++ [(P, t)])

variable {m : MirData} {phis : List ℕ} {map : RedirectMap} {P t v r : ℕ}

theorem lookup_snoc (x : ℕ) : (map ++ [(P, t)]).lookup x =
    (map.lookup x).or (if x = P then some t else none) := by
  rw [List.lookup_append]
  by_cases hx : x = P
  · subst hx
    simp
  · have hbeq : (x == P) = false := by simpa using hx
    simp [List.lookup_cons, hbeq, hx]

theorem leads_snoc (ht : map.lookup t = none) (hne : t ≠ P)
    (h : map.Leads v r) : (map ++ [(P, t)]).Leads v (if r = P then t else r) := by
  have hstop : (map ++ [(P, t)]).Leads t t :=
    RedirectMap.Leads.stop (by rw [lookup_snoc, ht, if_neg hne]; rfl)
  refine h.rec' (Q := fun v => (map ++ [(P, t)]).Leads v (if r = P then t else r)) ?_
    fun x y hx _ ih => ?_
  · by_cases hr : r = P
    · rw [if_pos hr]
      exact RedirectMap.Leads.step (by rw [lookup_snoc, h.last, if_pos hr]; rfl) hstop
    · rw [if_neg hr]
      exact RedirectMap.Leads.stop (by rw [lookup_snoc, h.last, if_neg hr]; rfl)
  · exact RedirectMap.Leads.step (by rw [lookup_snoc, hx]; rfl) ih

theorem Collapses.acyclic (h : Collapses m phis map) : map.Acyclic := by
  induction h with
  | nil => exact fun v => ⟨v, RedirectMap.Leads.stop rfl⟩
  | snoc _ _ _ ht hne _ _ ih =>
    intro v
    obtain ⟨r, hr⟩ := ih v
    exact ⟨_, leads_snoc ht hne hr⟩

theorem distinctIncomings_spec (hac : map.Acyclic) (P : ℕ) (incs : List MirPhiIncoming)
    (start : List ℕ) : ∃ found, distinctIncomings map P incs start = .ok found ∧
      (∀ x ∈ found, x ∈ start ∨ x ≠ P ∧ ∃ inc ∈ incs, map.Leads inc.value x) ∧
      (found.length ≤ 1 → start ⊆ found ∧
        ∀ inc ∈ incs, ∃ r, map.Leads inc.value r ∧ (r = P ∨ r ∈ found)) := by
  induction incs generalizing start with
  | nil => exact ⟨start, rfl, fun x hx => .inl hx, fun _ => ⟨List.Subset.refl _, by simp⟩⟩
  | cons inc incs ih =>
    obtain ⟨v, hv⟩ := hac inc.value
    rw [distinctIncomings, hv.resolveTransitive_eq]
    simp only [bind, Except.bind]
    have hmono : ∀ {found : List ℕ}, (∀ x ∈ found, x ∈ start ∨ x ≠ P ∧ ∃ inc ∈ incs,
        map.Leads inc.value x) → ∀ x ∈ found, x ∈ start ∨ x ≠ P ∧ ∃ i ∈ inc :: incs,
        map.Leads i.value x := by
      intro found h x hx
      rcases h x hx with h | ⟨hne, i, hi, hl⟩
      · exact .inl h
      · exact .inr ⟨hne, i, List.mem_cons_of_mem _ hi, hl⟩
    by_cases hP : v = P
    · rw [if_pos hP]
      obtain ⟨found, h1, h2, h3⟩ := ih start
      refine ⟨found, h1, hmono h2, fun hlen => ⟨(h3 hlen).1, fun i hi => ?_⟩⟩
      rcases List.mem_cons.mp hi with rfl | hi
      · exact ⟨v, hv, .inl hP⟩
      · exact (h3 hlen).2 i hi
    · rw [if_neg hP]
      set next := if v ∈ start then start else v :: start with hnext
      have hvn : v ∈ next := by
        rw [hnext]
        split_ifs with hm
        · exact hm
        · exact List.mem_cons_self
      have hsub : start ⊆ next := by
        rw [hnext]
        split_ifs
        · exact List.Subset.refl _
        · exact List.subset_cons_self _ _
      have hfrom : ∀ x ∈ next, x ∈ start ∨ x ≠ P ∧ ∃ i ∈ inc :: incs, map.Leads i.value x := by
        intro x hx
        rw [hnext] at hx
        split_ifs at hx with hm
        · exact .inl hx
        · rcases List.mem_cons.mp hx with rfl | hx
          · exact .inr ⟨hP, inc, List.mem_cons_self, hv⟩
          · exact .inl hx
      by_cases hlen : 1 < next.length
      · rw [if_pos hlen]
        exact ⟨next, rfl, hfrom, fun h => absurd hlen (by omega)⟩
      · rw [if_neg hlen]
        obtain ⟨found, h1, h2, h3⟩ := ih next
        refine ⟨found, h1, fun x hx => ?_, fun hle => ⟨fun x hx => ?_, fun i hi => ?_⟩⟩
        · rcases h2 x hx with h | ⟨hne, i, hi, hl⟩
          · exact hfrom x h
          · exact .inr ⟨hne, i, List.mem_cons_of_mem _ hi, hl⟩
        · exact (h3 hle).1 (hsub hx)
        · rcases List.mem_cons.mp hi with rfl | hi
          · exact ⟨v, hv, .inr ((h3 hle).1 hvn)⟩
          · exact (h3 hle).2 i hi

theorem collapseTarget_spec (hac : map.Acyclic) (P : ℕ) :
    ∃ target, collapseTarget m map P = .ok target ∧ ∀ t ∈ target,
      map.lookup t = none ∧ t ≠ P ∧
      (∀ inc ∈ m.phiIncomings P, ∃ r, map.Leads inc.value r ∧ (r = P ∨ r = t)) ∧
      ∃ inc ∈ m.phiIncomings P, map.Leads inc.value t := by
  obtain ⟨found, h1, h2, h3⟩ := distinctIncomings_spec hac P (m.phiIncomings P) []
  rw [collapseTarget, h1]
  simp only [bind, Except.bind]
  split
  · next target =>
    refine ⟨some target, rfl, fun t ht => ?_⟩
    obtain rfl := Option.some.inj ht
    obtain ⟨hne, inc, hinc, hl⟩ := (h2 target List.mem_cons_self).resolve_left (by simp)
    refine ⟨hl.last, hne, fun i hi => ?_, inc, hinc, hl⟩
    obtain ⟨r, hr, hrt⟩ := (h3 le_rfl).2 i hi
    exact ⟨r, hr, hrt.imp_right List.mem_singleton.mp⟩
  · exact ⟨none, rfl, by simp⟩

theorem mem_phiUsers {v Q : ℕ} (h : Q ∈ phiUsers m phis v) : Q ∈ phis := by
  obtain ⟨P, hP, h⟩ := List.mem_flatMap.mp h
  obtain ⟨_, _, rfl⟩ := List.mem_map.mp h
  exact hP

def todo (m : MirData) (phis worklist : List ℕ) (map : RedirectMap) : ℕ :=
  worklist.length + ∑ P ∈ phis.toFinset.filter (· ∉ map.keys), (phiUsers m phis P).length

theorem keys_snoc : RedirectMap.keys (map ++ [(P, t)]) = map.keys ++ [P] := by
  simp [RedirectMap.keys]

theorem todo_snoc {worklist : List ℕ} (hP : P ∈ phis) (hnew : P ∉ map.keys) :
    todo m phis (worklist ++ (phiUsers m phis P).filter (· ∉ RedirectMap.keys (map ++ [(P, t)])))
      (map ++ [(P, t)]) ≤ todo m phis worklist map := by
  have hmem : P ∈ phis.toFinset.filter (· ∉ map.keys) :=
    Finset.mem_filter.mpr ⟨List.mem_toFinset.mpr hP, hnew⟩
  have herase : phis.toFinset.filter (· ∉ RedirectMap.keys (map ++ [(P, t)])) =
      (phis.toFinset.filter (· ∉ map.keys)).erase P := by
    ext x
    simp only [keys_snoc, Finset.mem_filter, Finset.mem_erase, List.mem_append,
      List.mem_singleton, not_or]
    tauto
  have hlen := List.length_filter_le (fun x => decide (x ∉ RedirectMap.keys (map ++ [(P, t)])))
    (phiUsers m phis P)
  simp only [todo, herase, List.length_append]
  rw [← Finset.sum_erase_add _ _ hmem]
  omega

theorem collapses_loop (m : MirData) {phis : List ℕ} {fuel : ℕ} {worklist : List ℕ}
    {map : RedirectMap} (h : Collapses m phis map) (hw : ∀ P ∈ worklist, P ∈ phis)
    (hfuel : todo m phis worklist map ≤ fuel) :
    ∃ out, collapseLoop m phis fuel worklist map = .ok (some out) ∧ Collapses m phis out := by
  induction fuel generalizing worklist map with
  | zero =>
    cases worklist with
    | nil => exact ⟨map, rfl, h⟩
    | cons P worklist =>
      simp only [todo, List.length_cons] at hfuel
      omega
  | succ fuel ih =>
    cases worklist with
    | nil => exact ⟨map, rfl, h⟩
    | cons P worklist =>
      have hP := hw P List.mem_cons_self
      have hrest : ∀ Q ∈ worklist, Q ∈ phis := fun Q hQ => hw Q (List.mem_cons_of_mem _ hQ)
      have hless : todo m phis worklist map ≤ fuel := by
        simp only [todo, List.length_cons] at hfuel ⊢
        omega
      rw [collapseLoop]
      by_cases hkey : P ∈ map.keys
      · rw [if_pos hkey]
        exact ih h hrest hless
      · rw [if_neg hkey]
        obtain ⟨target, htarget, hspec⟩ := collapseTarget_spec (m := m) h.acyclic P
        rw [htarget]
        simp only [bind, Except.bind]
        have hlookup : map.lookup P = none := by
          by_contra hne
          obtain ⟨u, hu⟩ := Option.ne_none_iff_exists'.mp hne
          exact hkey (RedirectMap.mem_keys.mpr ⟨u, hu⟩)
        cases target with
        | none => exact ih h hrest hless
        | some t =>
          obtain ⟨ht, hne, hall, hex⟩ := hspec t rfl
          refine ih (.snoc h hP hlookup ht hne hall hex) (fun Q hQ => ?_)
            ((todo_snoc hP hkey).trans hless)
          rcases List.mem_append.mp hQ with hQ | hQ
          · exact hrest Q hQ
          · exact mem_phiUsers (List.mem_of_mem_filter hQ)

theorem analyze_spec (m : MirData) (f : ℕ) : ∃ collapsed out,
    analyze m f = .ok (some out) ∧ Collapses m (collectPhis m f) collapsed ∧
      (∀ x, out.lookup x = none ↔ collapsed.lookup x = none) ∧
      ∀ x t, out.lookup x = some t → collapsed.Leads x t := by
  have hfuel : todo m (collectPhis m f) (collectPhis m f) [] ≤ loopFuel m (collectPhis m f) := by
    simp [todo, loopFuel, RedirectMap.keys]
  obtain ⟨collapsed, hloop, hc⟩ := collapses_loop m (.nil : Collapses m (collectPhis m f) [])
    (fun _ => id) hfuel
  obtain ⟨out, hout, hkeys, hleads⟩ :=
    RedirectMap.pathCompressAndVerify_ok hc.acyclic "CopyProp"
  refine ⟨collapsed, out, ?_, hc, hkeys, hleads⟩
  rw [analyze, hloop]
  simp only [bind, Except.bind, hout]
  rfl

end DssPrime.CopyProp
