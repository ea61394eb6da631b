import DssPrime.Link.CrossCuResolve
import Mathlib

/-!
# The promises of weak duplicates and the order of the units

The fold of `resolveCrossCuDefs` checks the promise of two weak definitions where it brings them
together: a definition meets the winner so far, and no winner once a strong definition is in. Which
pairs meet depends on the order.

A quiet chain (`QuietChain`) is what an order without a report leaves behind: the winners one after
the other, the next lower than the one before, and every other copy filed under a winner it met.
-/

namespace DssPrime

def CrossCuDef.Concerns (d : CrossCuDef) (name : String) : Prop :=
  d.name = name ∧ d.name ≠ "" ∧ d.binding ≠ .«local»

instance (d : CrossCuDef) (name : String) : Decidable (d.Concerns name) := by
  unfold CrossCuDef.Concerns
  infer_instance

def copiesOf (defs : List CrossCuDef) (name : String) : List CrossCuDef :=
  defs.filter fun d => d.Concerns name ∧ d.binding = .weak

def strongsOf (defs : List CrossCuDef) (name : String) : List CrossCuDef :=
  defs.filter fun d => d.Concerns name ∧ d.binding = .global

def mismatchesOf (st : ResolveState) (name : String) : List CrossCuDuplicateMismatch :=
  st.duplicateMismatches.filter fun x => x.name = name

def ReportsMismatch (defs : List CrossCuDef) (name : String) : Prop :=
  ∃ x ∈ (resolveCrossCuDefs defs).duplicateMismatches, x.name = name

def Kept (a b : CrossCuDef) : Prop := checkDuplicatePromise a b = []

instance (a b : CrossCuDef) : Decidable (Kept a b) := by
  unfold Kept
  infer_instance

/-- Winners that follow each other, with every other copy kept by a lower winner. -/
structure QuietChain (copies chain : List CrossCuDef) : Prop where
  ne : chain ≠ []
  sub : ∀ c ∈ chain, c ∈ copies
  down : chain.IsChain fun a b => lessKey b.key a.key = true ∧ Kept a b
  rest : ∀ d ∈ copies, d ∈ chain ∨ ∃ c ∈ chain, lessKey c.key d.key = true ∧ Kept c d

section Copies

variable {defs defs' : List CrossCuDef} {name : String} {a b d : CrossCuDef}

theorem mem_copiesOf : d ∈ copiesOf defs name ↔ d ∈ defs ∧ d.Concerns name ∧ d.binding = .weak := by
  simp [copiesOf]

theorem mem_strongsOf :
    d ∈ strongsOf defs name ↔ d ∈ defs ∧ d.Concerns name ∧ d.binding = .global := by
  simp [strongsOf]

theorem reportsMismatch_iff :
    ReportsMismatch defs name ↔ mismatchesOf (resolveFold defs) name ≠ [] := by
  unfold ReportsMismatch mismatchesOf
  rw [Ne, List.filter_eq_nil_iff]
  push Not
  simp only [decide_eq_true_eq]
  rfl

theorem keepsPromise_self (required : DuplicateMatch) (a : CrossCuDef) :
    keepsPromise required a a = true := by
  simp [keepsPromise]

theorem kept_iff : Kept a b ↔ stricterDuplicateMatch a.duplicateMatch b.duplicateMatch = .any ∨
    keepsPromise (stricterDuplicateMatch a.duplicateMatch b.duplicateMatch) a b = true := by
  unfold Kept checkDuplicatePromise
  by_cases h : stricterDuplicateMatch a.duplicateMatch b.duplicateMatch = .any
  · simp [h]
  · simp only [h, ↓reduceIte, false_or]
    split <;> simp [*]

theorem kept_self (a : CrossCuDef) : Kept a a :=
  kept_iff.2 (.inr (keepsPromise_self _ a))

theorem QuietChain.perm {copies copies' chain : List CrossCuDef} (h : QuietChain copies chain)
    (hmem : ∀ d, d ∈ copies ↔ d ∈ copies') : QuietChain copies' chain :=
  ⟨h.ne, fun c hc => (hmem c).1 (h.sub c hc), h.down, fun d hd => h.rest d ((hmem d).2 hd)⟩

end Copies

section Step

variable {st : ResolveState} {name : String} {d cur : CrossCuDef}

theorem mismatchesOf_append (st : ResolveState) (new : List CrossCuDuplicateMismatch)
    (table : String → Option CrossCuDef) (name : String) :
    mismatchesOf { st with duplicateMismatches := st.duplicateMismatches ++ new, table := table }
      name = mismatchesOf st name ++ new.filter fun x => x.name = name :=
  List.filter_append ..

theorem checkDuplicatePromise_filter (cur d : CrossCuDef) (name : String) :
    (checkDuplicatePromise cur d).filter (fun x => x.name = name) =
      if d.name = name then checkDuplicatePromise cur d else [] := by
  unfold checkDuplicatePromise
  simp only
  split_ifs <;> simp [*]

theorem step_other (st : ResolveState) (h : ¬ d.Concerns name) :
    (resolveStep st d).table name = st.table name ∧
      mismatchesOf (resolveStep st d) name = mismatchesOf st name := by
  unfold resolveStep
  by_cases hlocal : d.binding = .«local»
  · rw [if_pos hlocal]
    exact ⟨rfl, rfl⟩
  rw [if_neg hlocal]
  by_cases hempty : d.name = ""
  · rw [if_pos hempty]
    exact ⟨rfl, rfl⟩
  rw [if_neg hempty]
  have hname : d.name ≠ name := fun hn => h ⟨hn, hempty, hlocal⟩
  have htable : ∀ row, Function.update st.table d.name row name = st.table name :=
    fun row => Function.update_of_ne (Ne.symm hname) _ _
  cases st.table d.name with
  | none => exact ⟨htable _, rfl⟩
  | some cur =>
    dsimp only
    split_ifs
    · exact ⟨htable _, rfl⟩
    · exact ⟨htable _, rfl⟩
    · refine ⟨htable _, ?_⟩
      rw [mismatchesOf_append, checkDuplicatePromise_filter, if_neg hname, List.append_nil]
    · exact ⟨rfl, rfl⟩

theorem step_first (st : ResolveState) (h : d.Concerns name) (hrow : st.table name = none) :
    (resolveStep st d).table name = some d ∧
      mismatchesOf (resolveStep st d) name = mismatchesOf st name := by
  obtain ⟨rfl, hempty, hlocal⟩ := h
  unfold resolveStep
  rw [if_neg hlocal, if_neg hempty, hrow]
  exact ⟨Function.update_self .., rfl⟩

theorem step_weak (h : d.Concerns name) (hweak : d.binding = .weak)
    (hrow : st.table name = some cur) (hcur : cur.binding = .weak) :
    (resolveStep st d).table name = some (lower cur d) ∧
      mismatchesOf (resolveStep st d) name = mismatchesOf st name ++
        checkDuplicatePromise cur d := by
  obtain ⟨rfl, hempty, hlocal⟩ := h
  unfold resolveStep
  rw [if_neg hlocal, if_neg hempty, hrow]
  simp only [hweak, hcur, reduceCtorEq, and_self, ↓reduceIte, ne_eq, not_false_eq_true]
  refine ⟨Function.update_self .., ?_⟩
  rw [mismatchesOf_append, checkDuplicatePromise_filter, if_pos rfl]

theorem step_strong (st : ResolveState) (h : d.Concerns name) (hstrong : d.binding = .global) :
    (∃ w, (resolveStep st d).table name = some w ∧ (w = d ∨ st.table name = some w) ∧
      w.binding = .global) ∧
    mismatchesOf (resolveStep st d) name = mismatchesOf st name := by
  obtain ⟨rfl, hempty, hlocal⟩ := h
  unfold resolveStep
  rw [if_neg hlocal, if_neg hempty]
  cases hrow : st.table d.name with
  | none => exact ⟨⟨d, Function.update_self .., .inl rfl, hstrong⟩, rfl⟩
  | some cur =>
    dsimp only
    split_ifs with hboth
    · refine ⟨⟨lower cur d, Function.update_self .., ?_, ?_⟩, rfl⟩
      · unfold lower
        split
        · exact .inl rfl
        · exact .inr rfl
      · unfold lower
        split
        · exact hstrong
        · exact hboth.2
    · exact ⟨⟨d, Function.update_self .., .inl rfl, hstrong⟩, rfl⟩

theorem step_shadowed (h : d.Concerns name) (hweak : d.binding = .weak)
    (hrow : st.table name = some cur) (hcur : cur.binding = .global) :
    resolveStep st d = st := by
  obtain ⟨rfl, hempty, hlocal⟩ := h
  unfold resolveStep
  rw [if_neg hlocal, if_neg hempty, hrow]
  simp [hweak, hcur]

theorem CrossCuDef.Concerns.cases (h : d.Concerns name) :
    d.binding = .weak ∨ d.binding = .global := by
  cases hb : d.binding with
  | «local» => exact absurd hb h.2.2
  | global => exact .inr rfl
  | weak => exact .inl rfl

theorem step_reports (h : mismatchesOf st name ≠ []) (d : CrossCuDef) :
    mismatchesOf (resolveStep st d) name ≠ [] := by
  by_cases hd : d.Concerns name
  · rcases hd.cases with hweak | hstrong
    · cases hrow : st.table name with
      | none => rwa [(step_first _ hd hrow).2]
      | some cur =>
        cases hcur : cur.binding with
        | global => rwa [step_shadowed hd hweak hrow hcur]
        | weak =>
          rw [(step_weak hd hweak hrow hcur).2]
          exact List.append_ne_nil_of_left_ne_nil h _
        | «local» =>
          obtain ⟨rfl, hempty, hlocal⟩ := hd
          unfold resolveStep
          rw [if_neg hlocal, if_neg hempty, hrow]
          simp only [hweak, hcur, reduceCtorEq, and_self, ↓reduceIte, ne_eq, not_false_eq_true]
          rw [mismatchesOf_append]
          exact List.append_ne_nil_of_left_ne_nil h _
    · rwa [(step_strong _ hd hstrong).2]
  · rwa [(step_other _ hd).2]

theorem foldl_reports (defs : List CrossCuDef) (h : mismatchesOf st name ≠ []) :
    mismatchesOf (defs.foldl resolveStep st) name ≠ [] := by
  induction defs generalizing st with
  | nil => exact h
  | cons d defs ih => exact ih (step_reports h d)

end Step

section Orders

variable {defs pre : List CrossCuDef} {st : ResolveState} {name : String} {a b d w : CrossCuDef}

theorem copiesOf_snoc (pre : List CrossCuDef) (d : CrossCuDef) (name : String) :
    copiesOf (pre ++ [d]) name =
      copiesOf pre name ++ if d.Concerns name ∧ d.binding = .weak then [d] else [] := by
  unfold copiesOf
  rw [List.filter_append]
  congr 1
  by_cases h : d.Concerns name ∧ d.binding = .weak
  · rw [if_pos h, List.filter_cons_of_pos (by simpa using h)]
    rfl
  · rw [if_neg h, List.filter_cons_of_neg (by simpa using h)]
    rfl

theorem resolveFold_snoc (pre : List CrossCuDef) (d : CrossCuDef) :
    resolveFold (pre ++ [d]) = resolveStep (resolveFold pre) d := by
  simp [resolveFold, List.foldl_append]

theorem winner_mem (defs : List CrossCuDef) (h : (resolveFold defs).table name = some w) :
    w.Concerns name ∧ (w.binding = .weak → w ∈ copiesOf defs name) := by
  induction defs using List.reverseRecOn generalizing w with
  | nil => cases h
  | append_singleton pre d ih =>
    rw [resolveFold_snoc] at h
    rw [copiesOf_snoc]
    have hkeep : (resolveFold pre).table name = some w → w.Concerns name ∧
        (w.binding = .weak →
          w ∈ copiesOf pre name ++ if d.Concerns name ∧ d.binding = .weak then [d] else []) :=
      fun hw => ⟨(ih hw).1, fun hb => List.mem_append_left _ ((ih hw).2 hb)⟩
    have hnew : d.Concerns name → w = d → w.Concerns name ∧
        (w.binding = .weak →
          w ∈ copiesOf pre name ++ if d.Concerns name ∧ d.binding = .weak then [d] else []) := by
      rintro hd rfl
      exact ⟨hd, fun hb => by simp [hd, hb]⟩
    by_cases hd : d.Concerns name
    · cases hrow : (resolveFold pre).table name with
      | none =>
        rw [(step_first _ hd hrow).1] at h
        exact hnew hd (Option.some.inj h).symm
      | some cur =>
        rcases hd.cases with hweak | hstrong
        · rcases (ih hrow).1.cases with hcur | hcur
          · rw [(step_weak hd hweak hrow hcur).1] at h
            unfold lower at h
            split at h
            · exact hnew hd (Option.some.inj h).symm
            · obtain rfl := Option.some.inj h
              exact hkeep hrow
          · rw [step_shadowed hd hweak hrow hcur] at h
            exact hkeep h
        · obtain ⟨⟨w', hw', hor, -⟩, -⟩ := step_strong (resolveFold pre) hd hstrong
          rw [hw'] at h
          obtain rfl := Option.some.inj h
          exact hor.elim (hnew hd) hkeep
    · rw [(step_other _ hd).1] at h
      exact hkeep h

theorem not_reports_of_kept (hkept : ∀ a ∈ copiesOf defs name, ∀ b ∈ copiesOf defs name, Kept a b) :
    mismatchesOf (resolveFold defs) name = [] := by
  induction defs using List.reverseRecOn with
  | nil => rfl
  | append_singleton pre d ih =>
    rw [copiesOf_snoc] at hkept
    have hpre := ih fun a ha b hb =>
      hkept a (List.mem_append_left _ ha) b (List.mem_append_left _ hb)
    rw [resolveFold_snoc]
    by_cases hd : d.Concerns name
    · rcases hd.cases with hweak | hstrong
      · cases hrow : (resolveFold pre).table name with
        | none => rw [(step_first _ hd hrow).2, hpre]
        | some cur =>
          obtain ⟨hcon, hcopy⟩ := winner_mem pre hrow
          rcases hcon.cases with hcur | hcur
          · have hk : Kept cur d := hkept cur (List.mem_append_left _ (hcopy hcur)) d (by
              simp [hd, hweak])
            rw [(step_weak hd hweak hrow hcur).2, hpre, hk, List.append_nil]
          · rw [step_shadowed hd hweak hrow hcur, hpre]
      · rw [(step_strong _ hd hstrong).2, hpre]
    · rw [(step_other _ hd).2, hpre]

theorem reports_of_not_kept (ha : a.Concerns name) (hb : b.Concerns name) (haw : a.binding = .weak)
    (hbw : b.binding = .weak) (hbad : ¬ Kept a b) (rest : List CrossCuDef) :
    mismatchesOf (resolveFold (a :: b :: rest)) name ≠ [] := by
  have h1 := step_first ⟨fun _ => none, [], []⟩ ha rfl
  have h2 := step_weak hb hbw h1.1 haw
  change mismatchesOf (rest.foldl resolveStep (resolveStep (resolveStep _ a) b)) name ≠ []
  refine foldl_reports rest ?_
  rw [h2.2]
  exact List.append_ne_nil_of_right_ne_nil _ hbad

theorem not_reports_of_strong (defs : List CrossCuDef) (hrow : st.table name = some w)
    (hw : w.binding = .global) (hst : mismatchesOf st name = []) :
    mismatchesOf (defs.foldl resolveStep st) name = [] := by
  induction defs generalizing st w with
  | nil => exact hst
  | cons d defs ih =>
    rw [List.foldl_cons]
    by_cases hd : d.Concerns name
    · rcases hd.cases with hweak | hstrong
      · rw [step_shadowed hd hweak hrow hw]
        exact ih hrow hw hst
      · obtain ⟨⟨w', hw', -, hglobal⟩, hmis⟩ := step_strong st hd hstrong
        exact ih hw' hglobal (hmis.trans hst)
    · obtain ⟨htable, hmis⟩ := step_other st hd
      exact ih (htable.trans hrow) hw (hmis.trans hst)

theorem quietChain_of_not_reports (hstrong : strongsOf defs name = [])
    (hkeys : (defs.map CrossCuDef.key).Nodup)
    (hquiet : mismatchesOf (resolveFold defs) name = []) :
    copiesOf defs name = [] ∧ (resolveFold defs).table name = none ∨
    ∃ chain w, QuietChain (copiesOf defs name) (chain ++ [w]) ∧
      (resolveFold defs).table name = some w := by
  induction defs using List.reverseRecOn with
  | nil => exact .inl ⟨rfl, rfl⟩
  | append_singleton pre d ih =>
    have hpre : mismatchesOf (resolveFold pre) name = [] := by
      by_contra hne
      rw [resolveFold_snoc] at hquiet
      exact step_reports hne d hquiet
    have hpreKeys : (pre.map CrossCuDef.key).Nodup ∧ d.key ∉ pre.map CrossCuDef.key := by
      rw [List.map_append, List.map_singleton] at hkeys
      have h := List.nodup_append.1 hkeys
      exact ⟨h.1, fun hmem => h.2.2 _ hmem _ (List.mem_singleton_self _) rfl⟩
    have hpreStrong : strongsOf pre name = [] := by
      unfold strongsOf at hstrong ⊢
      rw [List.filter_append, List.append_eq_nil_iff] at hstrong
      exact hstrong.1
    rw [resolveFold_snoc] at hquiet ⊢
    rw [copiesOf_snoc]
    by_cases hd : d.Concerns name
    · have hweak : d.binding = .weak := by
        refine hd.cases.resolve_right fun hglobal => ?_
        have hmem : d ∈ strongsOf (pre ++ [d]) name := mem_strongsOf.2 ⟨by simp, hd, hglobal⟩
        rw [hstrong] at hmem
        cases hmem
      rw [if_pos ⟨hd, hweak⟩]
      rcases ih hpreStrong hpreKeys.1 hpre with ⟨hnil, hrow⟩ | ⟨chain, w, hchain, hrow⟩
      · -- the first copy is the first winner
        refine .inr ⟨[], d, ?_, (step_first _ hd hrow).1⟩
        rw [hnil]
        exact ⟨by simp, fun c hc => hc, .singleton d, fun c hc => .inl hc⟩
      · have hwmem : w ∈ copiesOf pre name := hchain.sub w (by simp)
        obtain ⟨hwpre, -, hw⟩ := mem_copiesOf.1 hwmem
        obtain ⟨htable, hmis⟩ := step_weak hd hweak hrow hw
        have hkept : Kept w d := by
          rw [hmis] at hquiet
          exact (List.append_eq_nil_iff.1 hquiet).2
        unfold lower at htable
        by_cases hlt : lessKey d.key w.key = true
        · -- the new copy is the next winner
          rw [if_pos hlt] at htable
          refine .inr ⟨chain ++ [w], d, ⟨by simp, fun c hc => ?_, ?_, fun c hc => ?_⟩, htable⟩
          · rcases List.mem_append.1 hc with hc | hc
            · exact List.mem_append_left _ (hchain.sub c hc)
            · exact List.mem_append_right _ hc
          · refine List.isChain_append.2 ⟨hchain.down, .singleton d, fun x hx y hy => ?_⟩
            rw [List.getLast?_concat] at hx
            obtain rfl := Option.some.inj hx
            obtain rfl := Option.some.inj hy
            exact ⟨hlt, hkept⟩
          · rcases List.mem_append.1 hc with hc | hc
            · rcases hchain.rest c hc with hc | ⟨x, hx, h⟩
              · exact .inl (List.mem_append_left _ hc)
              · exact .inr ⟨x, List.mem_append_left _ hx, h⟩
            · exact .inl (List.mem_append_right _ hc)
        · -- the new copy is filed under the winner
          rw [if_neg hlt] at htable
          have hlow : lessKey w.key d.key = true := by
            by_contra hge
            have heq := eq_of_lessKey_false (Bool.eq_false_iff.2 hlt) (Bool.eq_false_iff.2 hge)
            exact hpreKeys.2 (heq ▸ List.mem_map_of_mem hwpre)
          refine .inr ⟨chain, w, ⟨by simp, fun c hc => List.mem_append_left _ (hchain.sub c hc),
            hchain.down, fun c hc => ?_⟩, htable⟩
          rcases List.mem_append.1 hc with hc | hc
          · exact hchain.rest c hc
          · rw [List.mem_singleton.1 hc]
            exact .inr ⟨w, by simp, hlow, hkept⟩
    · rw [if_neg fun h => hd h.1, List.append_nil, (step_other _ hd).1]
      exact ih hpreStrong hpreKeys.1 hpre

/-- The order that a quiet chain stands for: every winner, followed by the copies filed under it. -/
def arrange : List CrossCuDef → List CrossCuDef → List CrossCuDef
  | [], rest => rest
  | c :: chain, rest =>
    c :: (rest.filter fun d => lessKey c.key d.key ∧ Kept c d) ++
      arrange chain (rest.filter fun d => ¬ (lessKey c.key d.key ∧ Kept c d))

theorem arrange_perm (chain rest : List CrossCuDef) :
    (arrange chain rest).Perm (chain ++ rest) := by
  induction chain generalizing rest with
  | nil => exact List.Perm.refl _
  | cons c chain ih =>
    have hsplit := List.filter_append_perm (fun d => decide (lessKey c.key d.key ∧ Kept c d)) rest
    unfold arrange
    refine List.Perm.cons c (((ih _).append_left _).trans ?_)
    refine (List.perm_append_comm_assoc ..).trans (List.Perm.append_left chain ?_)
    simpa only [decide_not] using hsplit

theorem foldl_filed {c : CrossCuDef} (hc : c.binding = .weak) (filed : List CrossCuDef)
    (hfiled : ∀ d ∈ filed, d.Concerns name ∧ d.binding = .weak ∧ lessKey c.key d.key = true ∧
      Kept c d) (hrow : st.table name = some c) (hst : mismatchesOf st name = []) :
    (filed.foldl resolveStep st).table name = some c ∧
      mismatchesOf (filed.foldl resolveStep st) name = [] := by
  induction filed generalizing st with
  | nil => exact ⟨hrow, hst⟩
  | cons d filed ih =>
    obtain ⟨hd, hweak, hlt, hkept⟩ := hfiled d List.mem_cons_self
    obtain ⟨htable, hmis⟩ := step_weak hd hweak hrow hc
    have hge : lessKey d.key c.key = false := by
      rw [Bool.eq_false_iff, Ne, lessKey_eq_true]
      rw [lessKey_eq_true] at hlt
      omega
    refine ih (fun x hx => hfiled x (List.mem_cons_of_mem _ hx)) ?_ ?_
    · rw [htable, lower, hge]
      rfl
    · rw [hmis, hst, hkept]
      rfl

theorem not_reports_arrange (chain : List CrossCuDef) {cur : CrossCuDef} {rest : List CrossCuDef}
    (hcur : cur.binding = .weak)
    (hchain : (cur :: chain).IsChain fun a b => lessKey b.key a.key = true ∧ Kept a b)
    (hcopies : ∀ d ∈ chain ++ rest, d.Concerns name ∧ d.binding = .weak)
    (hrest : ∀ d ∈ rest, ∃ c ∈ chain, lessKey c.key d.key = true ∧ Kept c d)
    (hrow : st.table name = some cur) (hst : mismatchesOf st name = []) :
    ∃ w, ((arrange chain rest).foldl resolveStep st).table name = some w ∧ w.binding = .weak ∧
      mismatchesOf ((arrange chain rest).foldl resolveStep st) name = [] := by
  induction chain generalizing cur rest st with
  | nil =>
    cases rest with
    | nil => exact ⟨cur, hrow, hcur, hst⟩
    | cons d rest =>
      obtain ⟨c, hc, -⟩ := hrest d List.mem_cons_self
      cases hc
  | cons c chain ih =>
    obtain ⟨⟨hlt, hkept⟩, hchain'⟩ := List.isChain_cons_cons.1 hchain
    obtain ⟨hc, hweak⟩ := hcopies c (by simp)
    obtain ⟨htable, hmis⟩ := step_weak hc hweak hrow hcur
    have hrow' : (resolveStep st c).table name = some c := by
      rw [htable, lower, if_pos hlt]
    have hst' : mismatchesOf (resolveStep st c) name = [] := by
      rw [hmis, hst, hkept]
      rfl
    obtain ⟨hrow'', hst''⟩ := foldl_filed hweak
      (rest.filter fun d => lessKey c.key d.key ∧ Kept c d) (fun d hd => by
        obtain ⟨hd, hp⟩ := List.mem_filter.1 hd
        obtain ⟨hdc, hdw⟩ := hcopies d (by simp [hd])
        simp only [decide_eq_true_eq] at hp
        exact ⟨hdc, hdw, hp⟩) hrow' hst'
    unfold arrange
    rw [List.cons_append, List.foldl_cons, List.foldl_append]
    refine ih hweak hchain' (fun d hd => hcopies d ?_) (fun d hd => ?_) hrow'' hst''
    · rcases List.mem_append.1 hd with hd | hd
      · simp [hd]
      · simp [List.mem_of_mem_filter hd]
    · obtain ⟨hd, hp⟩ := List.mem_filter.1 hd
      simp only [decide_eq_true_eq] at hp
      obtain ⟨x, hx, h⟩ := hrest d hd
      rcases List.mem_cons.1 hx with rfl | hx
      · exact absurd h hp
      · exact ⟨x, hx, h⟩

theorem QuietChain.nodup {copies chain : List CrossCuDef} (h : QuietChain copies chain) :
    chain.Nodup := by
  have htrans : IsTrans CrossCuDef fun a b => lessKey b.key a.key = true := by
    refine ⟨fun a b c hab hbc => ?_⟩
    rw [lessKey_eq_true] at *
    omega
  have hpair := List.isChain_iff_pairwise.1 (h.down.imp fun _ _ hab => hab.1)
  refine hpair.imp fun hlt => ?_
  rintro rfl
  rw [lessKey_irrefl] at hlt
  cases hlt

theorem foldl_other (others : List CrossCuDef) (h : ∀ d ∈ others, ¬ d.Concerns name) :
    mismatchesOf (others.foldl resolveStep st) name = mismatchesOf st name := by
  induction others generalizing st with
  | nil => rfl
  | cons d others ih =>
    rw [List.foldl_cons, ih fun x hx => h x (List.mem_cons_of_mem _ hx),
      (step_other _ (h d List.mem_cons_self)).2]

theorem copiesOf_nodup (hkeys : (defs.map CrossCuDef.key).Nodup) : (copiesOf defs name).Nodup :=
  (List.Nodup.of_map _ hkeys).filter _

theorem exists_quiet_order (hkeys : (defs.map CrossCuDef.key).Nodup)
    (h : strongsOf defs name ≠ [] ∨ ∃ chain, QuietChain (copiesOf defs name) chain) :
    ∃ defs', defs.Perm defs' ∧ mismatchesOf (resolveFold defs') name = [] := by
  by_cases hstrong : strongsOf defs name = []
  · obtain ⟨chain, hchain⟩ := h.resolve_left (not_not.2 hstrong)
    cases chain with
    | nil => exact absurd rfl hchain.ne
    | cons c chain =>
      -- the copies that are no winners, and the definitions that take no part
      let rest := (copiesOf defs name).filter (· ∉ c :: chain)
      let others := defs.filter fun d => ¬ (d.Concerns name ∧ d.binding = .weak)
      have hcopies : ∀ d ∈ (c :: chain) ++ rest, d.Concerns name ∧ d.binding = .weak := by
        intro d hd
        rcases List.mem_append.1 hd with hd | hd
        · exact (mem_copiesOf.1 (hchain.sub d hd)).2
        · exact (mem_copiesOf.1 (List.mem_of_mem_filter hd)).2
      have hperm : (c :: chain ++ rest).Perm (copiesOf defs name) := by
        refine (List.perm_ext_iff_of_nodup ?_ (copiesOf_nodup hkeys)).2 fun d => ?_
        · refine List.nodup_append.2 ⟨hchain.nodup, (copiesOf_nodup hkeys).filter _, ?_⟩
          rintro x hx y hy rfl
          have := (List.mem_filter.1 hy).2
          simp only [decide_eq_true_eq] at this
          exact this hx
        · rw [List.mem_append, List.mem_filter, decide_eq_true_eq]
          constructor
          · rintro (hd | ⟨hd, -⟩)
            · exact hchain.sub d hd
            · exact hd
          · intro hd
            by_cases hmem : d ∈ c :: chain
            · exact .inl hmem
            · exact .inr ⟨hd, hmem⟩
      have hrest : ∀ d ∈ rest, ∃ x ∈ c :: chain, lessKey x.key d.key = true ∧ Kept x d := by
        intro d hd
        obtain ⟨hd, hnot⟩ := List.mem_filter.1 hd
        simp only [decide_eq_true_eq] at hnot
        exact (hchain.rest d hd).resolve_left hnot
      refine ⟨arrange (c :: chain) rest ++ others, ?_, ?_⟩
      · have hsplit := List.filter_append_perm
          (fun d => decide (CrossCuDef.Concerns d name ∧ d.binding = .weak)) defs
        refine hsplit.symm.trans (List.Perm.append ?_ ?_)
        · exact (hperm.symm).trans (arrange_perm _ _).symm
        · simp only [others, decide_not]
          exact List.Perm.refl _
      · obtain ⟨hc, hweak⟩ := hcopies c (by simp)
        obtain ⟨hrow, hmis⟩ := step_first ⟨fun _ => none, [], []⟩ hc rfl
        obtain ⟨hrow', hmis'⟩ := foldl_filed hweak
          (rest.filter fun d => lessKey c.key d.key ∧ Kept c d) (fun d hd => by
            obtain ⟨hd, hp⟩ := List.mem_filter.1 hd
            obtain ⟨hdc, hdw⟩ := hcopies d (List.mem_append_right _ hd)
            simp only [decide_eq_true_eq] at hp
            exact ⟨hdc, hdw, hp⟩) hrow hmis
        let behind := rest.filter fun d => ¬ (lessKey c.key d.key ∧ Kept c d)
        obtain ⟨w, -, -, hquiet⟩ := not_reports_arrange chain hweak hchain.down
          (fun d (hd : d ∈ chain ++ behind) => hcopies d (by
            rcases List.mem_append.1 hd with hd | hd
            · simp [hd]
            · exact List.mem_append_right _ (List.mem_of_mem_filter hd)))
          (fun d hd => by
            obtain ⟨hd, hp⟩ := List.mem_filter.1 hd
            simp only [decide_eq_true_eq] at hp
            obtain ⟨x, hx, h⟩ := hrest d hd
            rcases List.mem_cons.1 hx with rfl | hx
            · exact absurd h hp
            · exact ⟨x, hx, h⟩) hrow' hmis'
        rw [resolveFold, List.foldl_append, foldl_other]
        · unfold arrange
          rw [List.cons_append, List.foldl_cons, List.foldl_append]
          exact hquiet
        · intro d hd hcon
          obtain ⟨hd, hp⟩ := List.mem_filter.1 hd
          simp only [decide_eq_true_eq, not_and] at hp
          rcases hcon.cases with hw | hg
          · exact hp hcon hw
          · have hmem : d ∈ strongsOf defs name := mem_strongsOf.2 ⟨hd, hcon, hg⟩
            rw [hstrong] at hmem
            cases hmem
  · obtain ⟨s, hs⟩ := List.exists_mem_of_ne_nil _ hstrong
    obtain ⟨hmem, hcon, hglobal⟩ := mem_strongsOf.1 hs
    obtain ⟨hrow, hmis⟩ := step_first ⟨fun _ => none, [], []⟩ hcon rfl
    exact ⟨s :: defs.erase s, List.perm_cons_erase hmem,
      not_reports_of_strong (defs.erase s) hrow hglobal hmis⟩

/-- The condition under which the order does not matter: no two copies break a promise; or there is
no strong definition, and no quiet chain. -/
def VerdictOrderFree (defs : List CrossCuDef) (name : String) : Prop :=
  (∀ a ∈ copiesOf defs name, ∀ b ∈ copiesOf defs name, Kept a b) ∨
    strongsOf defs name = [] ∧ ¬ ∃ chain, QuietChain (copiesOf defs name) chain

/-- **The verdict and the order.**  With distinct keys, every order of the definitions gives the
same verdict on the promises of a name if and only if no two of its copies break one, or it has no
strong definition and every order brings two together that do. -/
theorem duplicateVerdict_perm_iff (defs : List CrossCuDef) (name : String)
    (hkeys : (defs.map CrossCuDef.key).Nodup) :
    (∀ defs', defs.Perm defs' → (ReportsMismatch defs name ↔ ReportsMismatch defs' name)) ↔
      VerdictOrderFree defs name := by
  have hcopies : ∀ {defs'}, defs.Perm defs' → ∀ d, d ∈ copiesOf defs name ↔
      d ∈ copiesOf defs' name := fun h d => (h.filter _).mem_iff
  constructor
  · intro hsame
    by_contra hfree
    obtain ⟨hbad, hquiet⟩ := not_or.1 hfree
    push Not at hbad
    obtain ⟨a, ha, b, hb, hab⟩ := hbad
    -- one order reports the broken promise, another does not
    obtain ⟨had, hac, haw⟩ := mem_copiesOf.1 ha
    obtain ⟨hbd, hbc, hbw⟩ := mem_copiesOf.1 hb
    have hne : b ≠ a := by
      rintro rfl
      exact hab (kept_self b)
    have hloud : defs.Perm (a :: b :: (defs.erase a).erase b) :=
      (List.perm_cons_erase had).trans
        (List.Perm.cons a (List.perm_cons_erase ((List.mem_erase_of_ne hne).2 hbd)))
    obtain ⟨defs', hperm, hnone⟩ := exists_quiet_order hkeys (by
      by_contra hno
      obtain ⟨hs, hc⟩ := not_or.1 hno
      exact hquiet ⟨not_not.1 hs, hc⟩)
    have hreport := (hsame _ hloud).2
      (reportsMismatch_iff.2 (reports_of_not_kept hac hbc haw hbw hab _))
    exact reportsMismatch_iff.1 ((hsame _ hperm).1 hreport) hnone
  · rintro (hkept | ⟨hstrong, hchain⟩) defs' hperm
    · have hkept' : ∀ a ∈ copiesOf defs' name, ∀ b ∈ copiesOf defs' name, Kept a b :=
        fun a ha b hb => hkept a ((hcopies hperm a).2 ha) b ((hcopies hperm b).2 hb)
      rw [reportsMismatch_iff, reportsMismatch_iff, not_reports_of_kept hkept,
        not_reports_of_kept hkept']
    · -- without a copy nothing is reported, and with one every order reports
      have hall : ∀ {defs'}, defs.Perm defs' →
          (ReportsMismatch defs' name ↔ copiesOf defs name ≠ []) := by
        intro defs' hperm
        rw [reportsMismatch_iff]
        constructor
        · rintro hreport hnil
          refine hreport (not_reports_of_kept fun a ha => ?_)
          have h := (hcopies hperm a).2 ha
          rw [hnil] at h
          cases h
        · intro hcopy hquiet
          have hstrong' : strongsOf defs' name = [] := by
            rw [← List.perm_nil, ← hstrong]
            exact (hperm.filter _).symm
          rcases quietChain_of_not_reports hstrong' ((hperm.map _).nodup_iff.1 hkeys) hquiet with
            ⟨hnil, -⟩ | ⟨chain, w, h, -⟩
          · refine hcopy ?_
            rw [← List.perm_nil, ← hnil]
            exact hperm.filter _
          · exact hchain ⟨_, h.perm fun d => (hcopies hperm d).symm⟩
      exact (hall (List.Perm.refl defs)).trans (hall hperm).symm

theorem duplicateVerdict_threeCopies :
    let a : CrossCuDef := ⟨"f", .weak, ⟨0, 1⟩, .any, 8, []⟩
    let b : CrossCuDef := ⟨"f", .weak, ⟨1, 1⟩, .any, 4, []⟩
    let c : CrossCuDef := ⟨"f", .weak, ⟨2, 1⟩, .sameSize, 8, []⟩
    [a, b, c].Perm [b, c, a] ∧ ([a, b, c].map CrossCuDef.key).Nodup ∧
      (resolveCrossCuDefs [a, b, c]).duplicateMismatches = [] ∧
      (resolveCrossCuDefs [b, c, a]).duplicateMismatches =
        [⟨"f", ⟨1, 1⟩, ⟨2, 1⟩, .sameSize, 4, 8⟩] := by
  decide

theorem duplicateVerdict_perm_iff_twoCopies :
    let a : CrossCuDef := ⟨"f", .weak, ⟨0, 1⟩, .sameSize, 8, []⟩
    let b : CrossCuDef := ⟨"f", .weak, ⟨1, 1⟩, .any, 8, []⟩
    ReportsMismatch [a, b] "f" ↔ ReportsMismatch [b, a] "f" := by
  intro a b
  exact (duplicateVerdict_perm_iff [a, b] "f" (by decide)).2 (.inl (by decide)) [b, a]
    (List.Perm.swap b a [])

end Orders

end DssPrime
