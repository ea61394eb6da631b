import DssPrime.Lir.LinearScan

/-!
# Linear-scan allocation is sound

The scan of `RegAlloc` keeps the ledger of `LinearScan`, whatever the exclusions and preferences of
the classes are (`scanClass_inv`). So no two registers whose ranges overlap end up in one place, and
the check at the end of the allocator finds nothing.
-/

namespace DssPrime

def Took (free : FreeListsByClass) (cls : LirRegClass) (o : ℕ) (free' : FreeListsByClass) : Prop :=
  (free cls).all.Perm (o :: (free' cls).all) ∧ ∀ c, c ≠ cls → free' c = free c

theorem popLast_perm {ok : ℕ → Bool} {l rest : List ℕ} {x : ℕ}
    (h : popLast ok l = some (x, rest)) : l.Perm (x :: rest) := by
  induction l generalizing x rest with
  | nil => cases h
  | cons r l ih =>
    unfold popLast at h
    split at h
    · rename_i y rest' hy
      obtain ⟨rfl, rfl⟩ := Prod.mk.inj (Option.some.inj h)
      exact ((ih hy).cons r).trans (List.Perm.swap ..)
    · split_ifs at h
      obtain ⟨rfl, rfl⟩ := Prod.mk.inj (Option.some.inj h)
      exact List.Perm.refl _

theorem took_calleeSaved {free : FreeListsByClass} {cls : LirRegClass} {o : ℕ} {rest : List ℕ}
    (h : (free cls).calleeSaved.Perm (o :: rest)) :
    Took free cls o (Function.update free cls { free cls with calleeSaved := rest }) := by
  refine ⟨?_, fun c hc => Function.update_of_ne hc _ _⟩
  rw [Function.update_self]
  exact h.append_right _

theorem took_callerSaved {free : FreeListsByClass} {cls : LirRegClass} {o : ℕ} {rest : List ℕ}
    (h : (free cls).callerSaved.Perm (o :: rest)) :
    Took free cls o (Function.update free cls { free cls with callerSaved := rest }) := by
  refine ⟨?_, fun c hc => Function.update_of_ne hc _ _⟩
  rw [Function.update_self]
  exact (h.append_left _).trans List.perm_middle

theorem tryAllocateExcluding_cases {free free' : FreeListsByClass} {cls : LirRegClass}
    {crossesCall : Bool} {excluded : List ℕ} {pick : AllocPick}
    (h : tryAllocateExcluding free cls crossesCall excluded = some (pick, free')) :
    (∃ r rest, popLast (fun r => decide (r ∉ excluded)) (free cls).calleeSaved = some (r, rest) ∧
      pick = ⟨r, true⟩ ∧
      free' = Function.update free cls { free cls with calleeSaved := rest }) ∨
    (crossesCall = false ∧
      ∃ r rest, popLast (fun r => decide (r ∉ excluded)) (free cls).callerSaved = some (r, rest) ∧
        pick = ⟨r, false⟩ ∧
        free' = Function.update free cls { free cls with callerSaved := rest }) := by
  unfold tryAllocateExcluding at h
  simp only at h
  cases hcallee : popLast (fun r => decide (r ∉ excluded)) (free cls).calleeSaved with
  | none =>
    rw [hcallee] at h
    simp only at h
    split_ifs at h with hcross
    split at h
    · rename_i r rest hpop
      obtain ⟨rfl, rfl⟩ := Prod.mk.inj (Option.some.inj h)
      exact .inr ⟨by simpa using hcross, r, rest, hpop, rfl, rfl⟩
    · cases h
  | some x =>
    obtain ⟨r, rest⟩ := x
    rw [hcallee] at h
    simp only at h
    split_ifs at h with hcross
    · obtain ⟨rfl, rfl⟩ := Prod.mk.inj (Option.some.inj h)
      exact .inl ⟨r, rest, rfl, rfl, rfl⟩
    · split at h
      · rename_i r' rest' hpop
        obtain ⟨rfl, rfl⟩ := Prod.mk.inj (Option.some.inj h)
        exact .inr ⟨by simpa using hcross, r', rest', hpop, rfl, rfl⟩
      · obtain ⟨rfl, rfl⟩ := Prod.mk.inj (Option.some.inj h)
        exact .inl ⟨r, rest, rfl, rfl, rfl⟩

theorem tryAllocateExcluding_took {free free' : FreeListsByClass} {cls : LirRegClass}
    {crossesCall : Bool} {excluded : List ℕ} {pick : AllocPick}
    (h : tryAllocateExcluding free cls crossesCall excluded = some (pick, free')) :
    Took free cls pick.ordinal free' := by
  obtain ⟨r, rest, hpop, rfl, rfl⟩ | ⟨-, r, rest, hpop, rfl, rfl⟩ := tryAllocateExcluding_cases h
  · exact took_calleeSaved (popLast_perm hpop)
  · exact took_callerSaved (popLast_perm hpop)

theorem tryAllocatePreferred_took {free free' : FreeListsByClass} {cls : LirRegClass}
    {crossesCall : Bool} {excluded : List ℕ} {preferred : Option ℕ} {pick : AllocPick}
    (h : tryAllocatePreferred free cls crossesCall excluded preferred = some (pick, free')) :
    Took free cls pick.ordinal free' := by
  unfold tryAllocatePreferred at h
  split at h
  · cases h
  · simp only at h
    split_ifs at h with h1 h2 h3
    · obtain ⟨rfl, rfl⟩ := Prod.mk.inj (Option.some.inj h)
      simp only [Bool.and_eq_true, decide_eq_true_eq] at h2
      exact took_callerSaved (List.perm_cons_erase h2.2)
    · obtain ⟨rfl, rfl⟩ := Prod.mk.inj (Option.some.inj h)
      exact took_calleeSaved (List.perm_cons_erase h3)

section Ledger

variable {hull : ℕ → LirLiveRange} {done rest : List ℕ} {loc loc' : ℕ → Option LirLocation}
  {free free' : FreeListsByClass} {active : List ActiveEntry} {slots : List SlotInFlight}
  {nextSlotV : ℕ}

theorem Ledger.take (h : Ledger hull done rest loc free active slots nextSlotV) {cls : LirRegClass}
    {o : ℕ} (ht : Took free cls o free') :
    Ledger hull done rest loc free' active slots nextSlotV ∧ o ∉ poolOf free' active cls := by
  obtain ⟨hperm, hother⟩ := ht
  have hcons : (poolOf free active cls).Perm (o :: poolOf free' active cls) :=
    hperm.append_right _
  have hnodup := List.nodup_cons.1 (hcons.nodup_iff.1 (h.pool cls))
  refine ⟨{ h with pool := fun c => ?_ }, hnodup.1⟩
  by_cases hc : c = cls
  · subst hc
    exact hnodup.2
  · have hpool := h.pool c
    unfold poolOf at hpool ⊢
    rw [hother c hc]
    exact hpool

theorem Ledger.congr (h : Ledger hull done rest loc free active slots nextSlotV)
    (hloc : ∀ r ∈ done, loc' r = loc r) :
    Ledger hull done rest loc' free active slots nextSlotV where
  pool := h.pool
  entries := by
    intro e he
    obtain ⟨h1, h2, h3⟩ := h.entries e he
    exact ⟨h1, h2, (hloc _ h1).trans h3⟩
  gone := fun r hr o c hl => h.gone r hr o c ((hloc r hr).symm.trans hl)
  apart := fun r hr s hs hne l hl hl' =>
    h.apart r hr s hs hne l ((hloc r hr).symm.trans hl) ((hloc s hs).symm.trans hl')
  slotEnds := fun r hr k hl => h.slotEnds r hr k ((hloc r hr).symm.trans hl)
  slotIds := h.slotIds

end Ledger

theorem findSpillCandidate_spec {active : List ActiveEntry} {cls : LirRegClass} {b : Bool}
    {excluded : List ℕ} {e : ActiveEntry} (h : findSpillCandidate active cls b excluded = some e) :
    e ∈ active ∧ e.cls = cls ∧ (b = true → e.isCalleeSaved = true) ∧ e.physOrdinal ∉ excluded := by
  unfold findSpillCandidate at h
  have key : ∀ (l : List ActiveEntry) (best : Option ActiveEntry × ℕ),
      (∀ e ∈ l, e ∈ active) → (∀ e, best.1 = some e → e ∈ active ∧ e.cls = cls ∧
        (b = true → e.isCalleeSaved = true) ∧ e.physOrdinal ∉ excluded) →
      ∀ e, (l.foldl (fun (best : Option ActiveEntry × ℕ) e =>
        if e.cls ≠ cls then best
        else if b && !e.isCalleeSaved then best
        else if e.physOrdinal ∈ excluded then best
        else if e.range.end > best.2 then (some e, e.range.end) else best) best).1 = some e →
      e ∈ active ∧ e.cls = cls ∧ (b = true → e.isCalleeSaved = true) ∧
        e.physOrdinal ∉ excluded := by
    intro l
    induction l with
    | nil => exact fun best _ hbest => hbest
    | cons a l ih =>
      intro best hl hbest
      obtain ⟨ha, hl⟩ := List.forall_mem_cons.1 hl
      refine ih _ hl fun e he => ?_
      beta_reduce at he
      by_cases hcls : a.cls ≠ cls
      · rw [if_pos hcls] at he
        exact hbest e he
      · rw [if_neg hcls] at he
        split_ifs at he with hsaved hexcluded
        · exact hbest e he
        · exact hbest e he
        · obtain rfl := Option.some.inj he
          refine ⟨ha, not_not.1 hcls, fun hb => ?_, hexcluded⟩
          rwa [hb, Bool.true_and, Bool.not_eq_true', Bool.not_eq_false] at hsaved
        · exact hbest e he
  exact key active (none, 0) (fun e he => he) (by simp) e h

theorem findSpillCandidate_mem {active : List ActiveEntry} {cls : LirRegClass} {b : Bool}
    {excluded : List ℕ} {e : ActiveEntry} (h : findSpillCandidate active cls b excluded = some e) :
    e ∈ active ∧ e.cls = cls := by
  obtain ⟨hmem, hcls, -⟩ := findSpillCandidate_spec h
  exact ⟨hmem, hcls⟩

theorem reuseSlot_spec {cls : LirRegClass} {range : LirLiveRange}
    (hrange : range.start < range.end) {slots slots' : List SlotInFlight} {k : ℕ}
    (h : reuseSlot cls range slots = some (k, slots')) :
    (∃ s ∈ slots, s.slot = k ∧ s.end ≤ range.start) ∧
      (∃ s ∈ slots', s.slot = k ∧ range.end ≤ s.end) ∧
      (∀ s ∈ slots, ∃ s' ∈ slots', s'.slot = s.slot ∧ s.end ≤ s'.end) ∧
      slots'.map SlotInFlight.slot = slots.map SlotInFlight.slot := by
  induction slots generalizing slots' with
  | nil => cases h
  | cons s slots ih =>
    unfold reuseSlot at h
    split_ifs at h with hfree
    · obtain ⟨rfl, rfl⟩ := Prod.mk.inj (Option.some.inj h)
      refine ⟨⟨s, by simp, rfl, hfree.2⟩, ⟨_, List.mem_cons_self, rfl, le_refl _⟩, ?_, by simp⟩
      intro t ht
      rcases List.mem_cons.1 ht with rfl | ht
      · exact ⟨_, List.mem_cons_self, rfl, hfree.2.trans hrange.le⟩
      · exact ⟨t, List.mem_cons_of_mem _ ht, rfl, le_refl _⟩
    · split at h
      · cases h
      · rename_i k' rest hrest
        obtain ⟨rfl, rfl⟩ := Prod.mk.inj (Option.some.inj h)
        obtain ⟨⟨a, ha, ha1, ha2⟩, ⟨b, hb, hb1, hb2⟩, h3, h4⟩ := ih hrest
        refine ⟨⟨a, List.mem_cons_of_mem _ ha, ha1, ha2⟩, ⟨b, List.mem_cons_of_mem _ hb, hb1, hb2⟩,
          fun t ht => ?_, by simp [h4]⟩
        rcases List.mem_cons.1 ht with rfl | ht
        · exact ⟨t, List.mem_cons_self, rfl, le_refl _⟩
        · obtain ⟨t', ht', h5, h6⟩ := h3 t ht
          exact ⟨t', List.mem_cons_of_mem _ ht', h5, h6⟩

def SameButSlots (st st' : ScanState) : Prop :=
  st'.free = st.free ∧ st'.active = st.active ∧ st'.assignments = st.assignments

theorem acquireSlot_spec (st : ScanState) (cls : LirRegClass) {range : LirLiveRange}
    (hrange : range.start < range.end)
    (hids : (st.slotsInFlight.map SlotInFlight.slot).Nodup ∧
      ∀ s ∈ st.slotsInFlight, s.slot < st.nextSlotV) :
    let r := acquireSlot st cls range
    SameButSlots st r.1 ∧
      SlotFor st.slotsInFlight r.1.slotsInFlight st.nextSlotV r.1.nextSlotV r.2 range := by
  unfold acquireSlot
  split
  · rename_i k slots hk
    obtain ⟨h1, h2, h3, h4⟩ := reuseSlot_spec hrange hk
    refine ⟨⟨rfl, rfl, rfl⟩, .inl h1, h2, h3, ?_⟩
    simp only [h4]
    refine ⟨hids.1, fun s hs => ?_⟩
    have hmem : s.slot ∈ st.slotsInFlight.map SlotInFlight.slot :=
      h4 ▸ List.mem_map_of_mem hs
    obtain ⟨t, ht, heq⟩ := List.mem_map.1 hmem
    exact heq ▸ hids.2 t ht
  · refine ⟨⟨rfl, rfl, rfl⟩, .inr (le_refl _), ⟨_, List.mem_append_right _
      (List.mem_singleton.2 rfl), rfl, le_refl _⟩, fun s hs => ⟨s, List.mem_append_left _ hs, rfl,
      le_refl _⟩, ?_, fun s hs => ?_⟩
    · rw [List.map_append, List.map_singleton]
      refine (List.perm_append_singleton _ _).nodup_iff.2
        (List.nodup_cons.2 ⟨fun hmem => ?_, hids.1⟩)
      obtain ⟨t, ht, heq⟩ := List.mem_map.1 hmem
      exact absurd (hids.2 t ht) (by rw [heq]; exact Nat.lt_irrefl _)
    · rcases List.mem_append.1 hs with hs | hs
      · exact Nat.lt_succ_of_lt (hids.2 s hs)
      · rw [List.mem_singleton.1 hs]
        exact Nat.lt_succ_self _

theorem assignClass_apply (a : ℕ → Option LirLocation) (ms : List ℕ) (l : LirLocation) (x : ℕ) :
    assignClass a ms l x = if x ∈ ms then some l else a x := by
  unfold assignClass
  induction ms generalizing a with
  | nil => simp
  | cons m ms ih =>
    rw [List.foldl_cons, ih]
    by_cases hx : x ∈ ms
    · simp [hx]
    · by_cases hm : x = m
      · simp [hm]
      · simp [hx, hm]

section Scan

variable {facts : RegallocFacts} {part : CoalescePartition} {rangeOf : ℕ → LirLiveRange}

/-- The invariant of the scan. -/
structure ScanInv (part : CoalescePartition) (done rest : List ℕ) (st : ScanState) : Prop where
  ledger : Ledger part.hull done rest st.assignments st.free st.active st.slotsInFlight st.nextSlotV
  common : ∀ r ∈ done, ∀ x ∈ part.members r, st.assignments x = st.assignments r
  fresh : ∀ x, (∀ r ∈ done, x ∉ part.members r) → st.assignments x = none
  placed : ∀ r ∈ done, (part.hull r).regClass ≠ .none → st.assignments r ≠ none

variable {done rest : List ℕ} {r : ℕ} {st st' : ScanState} {l : LirLocation}

def Roots (rangeOf : ℕ → LirLiveRange) (part : CoalescePartition) (rs : List ℕ) : Prop :=
  ∀ r ∈ rs, HasRange rangeOf r ∧ part.parent r = r

variable (hsound : part.Sound rangeOf)
include hsound

theorem assignClass_root {a : ℕ → Option LirLocation} {r s : ℕ} (hr : r ∈ part.members r)
    (hs : s ∈ part.members s) :
    assignClass a (part.members r) l s = Function.update a r (some l) s := by
  rw [assignClass_apply]
  by_cases hsr : s = r
  · subst hsr
    rw [if_pos hr, Function.update_self]
  · rw [if_neg, Function.update_of_ne hsr]
    exact fun hmem => hsr (hsound.unique s r s hs hmem)

theorem ScanInv.place (h : ScanInv part done (r :: rest) st)
    (hroots : Roots rangeOf part (r :: done))
    (hledger : Ledger part.hull (done ++ [r]) rest (Function.update st.assignments r (some l))
      st'.free st'.active st'.slotsInFlight st'.nextSlotV)
    (hassign : st'.assignments = assignClass st.assignments (part.members r) l) :
    ScanInv part (done ++ [r]) rest st' := by
  have hself : ∀ s ∈ done ++ [r], s ∈ part.members s := by
    intro s hs
    obtain ⟨h1, h2⟩ := hroots s (by simpa [or_comm] using hs)
    exact hsound.self s h1 h2
  have hr : r ∈ part.members r := hself r (by simp)
  refine ⟨?_, fun s hs x hx => ?_, fun x hx => ?_, fun s hs hcls => ?_⟩
  · rw [hassign]
    exact hledger.congr fun s hs => assignClass_root hsound hr (hself s hs)
  · rw [hassign, assignClass_apply, assignClass_apply]
    by_cases hsr : s = r
    · subst hsr
      rw [if_pos hx, if_pos hr]
    · have hsd : s ∈ done := by
        rcases List.mem_append.1 hs with hs | hs
        · exact hs
        · exact absurd (List.mem_singleton.1 hs) hsr
      rw [if_neg fun hmem => hsr (hsound.unique s r x hx hmem),
        if_neg fun hmem => hsr (hsound.unique s r s (hself s hs) hmem)]
      exact h.common s hsd x hx
  · rw [hassign, assignClass_apply, if_neg (hx r (by simp))]
    exact h.fresh x fun s hs => hx s (List.mem_append_left _ hs)
  · rw [hassign, assignClass_root hsound hr (hself s hs)]
    by_cases hsr : s = r
    · subst hsr
      rw [Function.update_self]
      exact Option.some_ne_none _
    · rw [Function.update_of_ne hsr]
      rcases List.mem_append.1 hs with hs | hs
      · exact h.placed s hs hcls
      · exact absurd (List.mem_singleton.1 hs) hsr

theorem ScanInv.move (h : ScanInv part done rest st) {e : ℕ} (he : e ∈ done)
    (hroots : Roots rangeOf part done)
    (hledger : Ledger part.hull done rest (Function.update st.assignments e (some l))
      st'.free st'.active st'.slotsInFlight st'.nextSlotV)
    (hassign : st'.assignments = assignClass st.assignments (part.members e) l) :
    ScanInv part done rest st' := by
  have hself : ∀ s ∈ done, s ∈ part.members s :=
    fun s hs => hsound.self s (hroots s hs).1 (hroots s hs).2
  have hr : e ∈ part.members e := hself e he
  refine ⟨?_, fun s hs x hx => ?_, fun x hx => ?_, fun s hs hcls => ?_⟩
  · rw [hassign]
    exact hledger.congr fun s hs => assignClass_root hsound hr (hself s hs)
  · rw [hassign, assignClass_apply, assignClass_apply]
    by_cases hse : s = e
    · subst hse
      rw [if_pos hx, if_pos hr]
    · rw [if_neg fun hmem => hse (hsound.unique s e x hx hmem),
        if_neg fun hmem => hse (hsound.unique s e s (hself s hs) hmem)]
      exact h.common s hs x hx
  · rw [hassign, assignClass_apply, if_neg (hx e he)]
    exact h.fresh x hx
  · rw [hassign, assignClass_root hsound hr (hself s hs)]
    by_cases hse : s = e
    · subst hse
      rw [Function.update_self]
      exact Option.some_ne_none _
    · rw [Function.update_of_ne hse]
      exact h.placed s hs hcls

theorem ScanInv.skip (h : ScanInv part done (r :: rest) st) (hr : r ∉ done)
    (hroots : Roots rangeOf part (r :: done)) (hcls : (part.hull r).regClass = .none) :
    ScanInv part (done ++ [r]) rest st := by
  -- no member of the class has a place
  have hnone : ∀ x ∈ part.members r, st.assignments x = none := by
    intro x hx
    refine h.fresh x fun s hs hmem => hr ?_
    rw [hsound.unique r s x hx hmem]
    exact hs
  have hself : r ∈ part.members r :=
    hsound.self r (hroots r (by simp)).1 (hroots r (by simp)).2
  refine ⟨h.ledger.skip (hnone r hself), fun s hs x hx => ?_, fun x hx => ?_, fun s hs hc => ?_⟩
  · rcases List.mem_append.1 hs with hs | hs
    · exact h.common s hs x hx
    · obtain rfl := List.mem_singleton.1 hs
      rw [hnone x hx, hnone s hself]
  · exact h.fresh x fun s hs => hx s (List.mem_append_left _ hs)
  · rcases List.mem_append.1 hs with hs | hs
    · exact h.placed s hs hc
    · obtain rfl := List.mem_singleton.1 hs
      exact absurd hcls hc

theorem ScanInv.spill (h : ScanInv part done (r :: rest) st) (hr : r ∉ done)
    (hroots : Roots rangeOf part (r :: done)) (cls : LirRegClass) :
    let a := acquireSlot st cls (part.hull r)
    ScanInv part (done ++ [r]) rest
      { a.1 with assignments := assignClass a.1.assignments (part.members r) (.spill a.2) } := by
  obtain ⟨hhull, -⟩ := hsound.hull r (hroots r (by simp)).1
  obtain ⟨⟨hfree, hactive, hassign⟩, hslot⟩ :=
    acquireSlot_spec st cls hhull h.ledger.slotIds
  refine h.place (l := .spill (acquireSlot st cls (part.hull r)).2) hsound hroots ?_ ?_
  · simp only [hfree, hactive]
    exact h.ledger.addSpill hr hslot
  · simp only [hassign]

theorem scanClass_inv (h : ScanInv part done (r :: rest) st) (hr : r ∉ done)
    (hroots : Roots rangeOf part (r :: done))
    (horder : ∀ s ∈ r :: rest, (part.hull r).start ≤ (part.hull s).start) :
    ScanInv part (done ++ [r]) rest (scanClass facts part rangeOf st r) := by
  have hhull := hsound.hull r (hroots r (by simp)).1
  unfold scanClass
  simp only
  rw [if_neg hhull.2]
  by_cases hcls : (part.hull r).regClass = .none
  · rw [if_pos hcls]
    exact h.skip hsound hr hroots hcls
  rw [if_neg hcls]
  -- the classes that have ended give their registers back
  have hexp : ScanInv part done (r :: rest) { st with
      active := (expireActive (part.hull r).start st.active st.free).1
      free := (expireActive (part.hull r).start st.active st.free).2 } :=
    ⟨h.ledger.expire horder, h.common, h.fresh, h.placed⟩
  generalize expireActive (part.hull r).start st.active st.free = ex at hexp
  obtain ⟨active, free⟩ := ex
  simp only at hexp ⊢
  generalize excludedFor facts rangeOf (part.members r) st.assignments (part.hull r) = excluded
  split
  · -- a register is free
    rename_i pick free' hpick
    have htook : Took free (part.hull r).regClass pick.ordinal free' := by
      split at hpick
      · rename_i p hp
        obtain rfl := Option.some.inj hpick
        exact tryAllocatePreferred_took hp
      · exact tryAllocateExcluding_took hpick
    obtain ⟨htaken, hpool⟩ := hexp.ledger.take htook
    exact hexp.place hsound hroots (htaken.addPhys hr hpool pick.isCalleeSaved) rfl
  · split
    · rename_i e he
      obtain ⟨hmem, hecls⟩ := findSpillCandidate_mem he
      split_ifs
      · -- the candidate is moved to a slot, and its register given to the class
        obtain ⟨hedone, herange, -⟩ := hexp.ledger.entries e hmem
        have hroots' : Roots rangeOf part done := fun s hs => hroots s (List.mem_cons_of_mem _ hs)
        obtain ⟨hehull, -⟩ := hsound.hull e.classRoot (hroots' _ hedone).1
        rw [herange]
        obtain ⟨⟨hfree, hactive, hassign⟩, hslot⟩ :=
          acquireSlot_spec { st with active := active, free := free } e.cls hehull
            hexp.ledger.slotIds
        obtain ⟨hevicted, hfreed⟩ := hexp.ledger.evict hmem hslot
        generalize acquireSlot { st with active := active, free := free } e.cls
          (part.hull e.classRoot) = acq at hfree hactive hassign hevicted ⊢
        obtain ⟨st₁, slot⟩ := acq
        simp only at hfree hactive hassign hevicted ⊢
        have hmoved : ScanInv part done (r :: rest) { st₁ with
            active := st₁.active.erase e
            assignments :=
              assignClass st₁.assignments (part.members e.classRoot) (.spill slot) } := by
          refine hexp.move (l := .spill slot) hsound hedone hroots' ?_ (by simp only [hassign])
          simp only [hfree, hactive]
          exact hevicted
        refine hmoved.place hsound hroots ?_ rfl
        simp only [hfree, hactive] at hmoved ⊢
        rw [← hecls]
        exact hmoved.ledger.addPhys hr hfreed e.isCalleeSaved
      · exact hexp.spill hsound hr hroots _
    · exact hexp.spill hsound hr hroots _

theorem scan_inv (rs : List ℕ) {done : List ℕ} {st : ScanState} (h : ScanInv part done rs st)
    (hnodup : (done ++ rs).Nodup) (hroots : Roots rangeOf part (done ++ rs))
    (hsorted : rs.Pairwise fun r s => (part.hull r).start ≤ (part.hull s).start) :
    ScanInv part (done ++ rs) [] (rs.foldl (scanClass facts part rangeOf) st) := by
  induction rs generalizing done st with
  | nil => simpa using h
  | cons r rs ih =>
    obtain ⟨hfirst, hsorted⟩ := List.pairwise_cons.1 hsorted
    have hr : r ∉ done := fun hmem =>
      (List.nodup_append.1 hnodup).2.2 r hmem r List.mem_cons_self rfl
    have hstep := @scanClass_inv facts part rangeOf done rs r st hsound h hr
      (fun s hs => hroots s (by
        rcases List.mem_cons.1 hs with rfl | hs
        · simp
        · exact List.mem_append_left _ hs))
      (fun s hs => by
        rcases List.mem_cons.1 hs with rfl | hs
        · exact le_refl _
        · exact hfirst s hs)
    have hassoc : done ++ r :: rs = (done ++ [r]) ++ rs := by simp
    rw [hassoc] at hnodup hroots ⊢
    exact ih hstep hnodup hroots hsorted

end Scan

/-- The ranges that liveness gives. -/
structure LiveRanges (ranges : List LirLiveRange) : Prop where
  nodup : (ranges.map LirLiveRange.vreg).Nodup
  /-- The registers are virtual registers and the ranges not empty. -/
  ok : ∀ r ∈ ranges, r.vreg ≠ 0 ∧ r.start < r.end

section Ranges

variable {ranges : List LirLiveRange} (hranges : LiveRanges ranges)

theorem rangeTable_cases (ranges : List LirLiveRange) (x : ℕ) :
    (rangeTable ranges x).vreg = 0 ∨
      (rangeTable ranges x ∈ ranges ∧ (rangeTable ranges x).vreg = x) := by
  unfold rangeTable
  have key : ∀ (l : List LirLiveRange) (t : ℕ → LirLiveRange), (∀ r ∈ l, r ∈ ranges) →
      (∀ x, (t x).vreg = 0 ∨ (t x ∈ ranges ∧ (t x).vreg = x)) →
      ∀ x, (l.foldl setRange t x).vreg = 0 ∨
        (l.foldl setRange t x ∈ ranges ∧ (l.foldl setRange t x).vreg = x) := by
    intro l
    induction l with
    | nil => exact fun t _ ht => ht
    | cons r l ih =>
      intro t hl ht
      obtain ⟨hr, hl⟩ := List.forall_mem_cons.1 hl
      refine ih _ hl fun x => ?_
      unfold setRange
      split_ifs
      · exact ht x
      · by_cases hx : x = r.vreg
        · subst hx
          rw [Function.update_self]
          exact .inr ⟨hr, rfl⟩
        · rw [Function.update_of_ne hx]
          exact ht x
  exact key ranges _ (fun r hr => hr) (fun x => .inl rfl) x

theorem rangeTable_ne {r : LirLiveRange} (hr : r ∈ ranges) (hv : r.vreg ≠ 0) :
    (rangeTable ranges r.vreg).vreg ≠ 0 := by
  unfold rangeTable
  have keep : ∀ (l : List LirLiveRange) (t : ℕ → LirLiveRange) (x : ℕ), (t x).vreg ≠ 0 →
      (l.foldl setRange t x).vreg ≠ 0 := by
    intro l
    induction l with
    | nil => exact fun t x ht => ht
    | cons s l ih =>
      intro t x ht
      refine ih _ x ?_
      unfold setRange
      split_ifs with hs
      · exact ht
      · by_cases hx : x = s.vreg
        · subst hx
          rw [Function.update_self]
          exact hs
        · rw [Function.update_of_ne hx]
          exact ht
  have key : ∀ (l : List LirLiveRange) (t : ℕ → LirLiveRange), r ∈ l →
      (l.foldl setRange t r.vreg).vreg ≠ 0 := by
    intro l
    induction l with
    | nil => exact fun t ht => absurd ht (by simp)
    | cons s l ih =>
      intro t hmem
      rcases List.mem_cons.1 hmem with rfl | hmem
      · refine keep l _ _ ?_
        unfold setRange
        rw [if_neg hv, Function.update_self]
        exact hv
      · exact ih _ hmem
  exact key ranges _ hr

include hranges

theorem rangeTable_eq {r : LirLiveRange} (hr : r ∈ ranges) : rangeTable ranges r.vreg = r := by
  have hne := rangeTable_ne hr (hranges.ok r hr).1
  obtain ⟨hmem, hv⟩ := (rangeTable_cases ranges r.vreg).resolve_left hne
  exact List.inj_on_of_nodup_map hranges.nodup hmem hr hv

theorem rangesOk : RangesOk (rangeTable ranges) := by
  intro x hx
  obtain ⟨hmem, hv⟩ := (rangeTable_cases ranges x).resolve_left hx
  exact ⟨hv, (hranges.ok _ hmem).2⟩

omit hranges in
theorem le_maxVRegId {r : LirLiveRange} (hr : r ∈ ranges) : r.vreg ≤ maxVRegId ranges := by
  unfold maxVRegId
  have key : ∀ (l : List LirLiveRange) (a : ℕ), a ≤ l.foldl (fun a r => max a r.vreg) a ∧
      ∀ r ∈ l, r.vreg ≤ l.foldl (fun a r => max a r.vreg) a := by
    intro l
    induction l with
    | nil => simp
    | cons s l ih =>
      intro a
      obtain ⟨h1, h2⟩ := ih (max a s.vreg)
      exact ⟨(le_max_left _ _).trans h1, List.forall_mem_cons.2 ⟨(le_max_right _ _).trans h1, h2⟩⟩
  exact (key ranges 0).2 r hr

omit hranges in
theorem mem_classRoots {part : CoalescePartition} (hsound : part.Sound (rangeTable ranges))
    {r : ℕ} : r ∈ classRoots ranges part ↔
      HasRange (rangeTable ranges) r ∧ part.parent r = r := by
  unfold classRoots
  rw [List.mem_mergeSort, List.mem_filter, List.mem_range]
  simp only [Bool.decide_and, Bool.and_eq_true, decide_eq_true_eq]
  constructor
  · rintro ⟨-, -, hrange, hfind⟩
    refine ⟨hrange, ?_⟩
    have hroot := (hsound.find r).2.2.2.1
    rw [hfind] at hroot
    exact hroot
  · rintro ⟨hrange, hroot⟩
    obtain ⟨hmem, hv⟩ := (rangeTable_cases ranges r).resolve_left hrange
    have hle := le_maxVRegId hmem
    rw [hv] at hle
    refine ⟨by omega, fun h0 => hrange (hv.trans h0), hrange, ?_⟩
    unfold CoalescePartition.find findRoot
    simp [hroot]

omit hranges in
theorem classRoots_sorted (part : CoalescePartition) :
    (classRoots ranges part).Nodup ∧
      (classRoots ranges part).Pairwise fun r s => (part.hull r).start ≤ (part.hull s).start := by
  unfold classRoots
  constructor
  · refine (List.mergeSort_perm _ _).nodup_iff.2 ?_
    exact List.nodup_range.filter _
  · have hsorted := @List.pairwise_mergeSort ℕ
      (fun a b => decide ((part.hull a).start < (part.hull b).start ∨
        ((part.hull a).start = (part.hull b).start ∧ a ≤ b)))
      (fun a b c hab hbc => by simp only [decide_eq_true_eq] at *; omega)
      (fun a b => by simp only [Bool.or_eq_true, decide_eq_true_eq]; omega)
      ((List.range (maxVRegId ranges + 1)).filter fun id =>
        id ≠ 0 ∧ (rangeTable ranges id).vreg ≠ 0 ∧ (part.find id).2 = id)
    refine hsorted.imp fun h => ?_
    simp only [decide_eq_true_eq] at h
    omega

end Ranges

theorem scanInv_start (part : CoalescePartition) {free : FreeListsByClass} (hfree : FreeNodup free)
    (rs : List ℕ) : ScanInv part [] rs (.start free) where
  ledger :=
    { pool := fun c => by simpa [poolOf, heldOrdinals, ScanState.start] using hfree c
      entries := fun e he => by cases he
      gone := fun r hr => by cases hr
      apart := fun r hr => by cases hr
      slotEnds := fun r hr => by cases hr
      slotIds := ⟨List.nodup_nil, fun s hs => by cases hs⟩ }
  common := fun r hr => by cases hr
  fresh := fun _ _ => rfl
  placed := fun r hr => by cases hr

theorem allocateOneFunc_inv (regs : List TargetRegister) (cc : TargetCallingConvention)
    (facts : RegallocFacts) {ranges : List LirLiveRange} (hranges : LiveRanges ranges) :
    let free := buildFreeLists regs cc facts.reloadReserve facts.reservedFramePointer
    let part := partitionOf facts free ranges
    part.Sound (rangeTable ranges) ∧ ∃ st, ScanInv part (classRoots ranges part) [] st ∧
      st.assignments = allocateOneFunc regs cc facts ranges := by
  intro free part
  have hsound : part.Sound (rangeTable ranges) :=
    buildCoalescePartition_sound facts _ _ (rangesOk hranges)
  obtain ⟨hnodup, hsorted⟩ := @classRoots_sorted ranges part
  have hinv := @scan_inv facts part _ hsound (classRoots ranges part) [] _
    (scanInv_start part (buildFreeLists_nodup regs cc facts.reloadReserve
      facts.reservedFramePointer) _) (by simpa using hnodup)
    (fun r hr => (mem_classRoots hsound).1 (by simpa using hr)) hsorted
  rw [List.nil_append] at hinv
  exact ⟨hsound, _, hinv, rfl⟩

theorem resource_eq (o : ℕ) (c : LirRegClass) : o <<< 8 ||| c.toNat = o * 256 + c.toNat := by
  have hlt : c.toNat < 2 ^ 8 := by cases c <;> decide
  rw [Nat.shiftLeft_eq, Nat.mul_comm, ← Nat.two_pow_add_eq_or_of_lt hlt]

theorem placedOf_cases {a : ℕ → Option LirLocation} {r : LirLiveRange} {p : Placed}
    (h : placedOf a r = some p) : p.range = r ∧
      ((p.isSpill = true ∧ a r.vreg = some (.spill p.resource)) ∨
        (p.isSpill = false ∧ ∃ o c, a r.vreg = some (.phys o c) ∧
          p.resource = o * 256 + c.toNat)) := by
  unfold placedOf at h
  split_ifs at h
  cases hl : a r.vreg with
  | none =>
    rw [hl] at h
    cases h
  | some l =>
    rw [hl] at h
    cases l with
    | spill k =>
      obtain rfl := Option.some.inj h
      exact ⟨rfl, .inl ⟨rfl, rfl⟩⟩
    | phys o c =>
      obtain rfl := Option.some.inj h
      exact ⟨rfl, .inr ⟨rfl, o, c, rfl, resource_eq o c⟩⟩

theorem placedOf_resource {a : ℕ → Option LirLocation} {r s : LirLiveRange} {p q : Placed}
    (hp : placedOf a r = some p) (hq : placedOf a s = some q) (hspill : p.isSpill = q.isSpill)
    (hres : p.resource = q.resource) : ∃ l, a r.vreg = some l ∧ a s.vreg = some l := by
  obtain ⟨-, ⟨hs, hl⟩ | ⟨hs, o, c, hl, hnum⟩⟩ := placedOf_cases hp <;>
    obtain ⟨-, ⟨hs', hl'⟩ | ⟨hs', o', c', hl', hnum'⟩⟩ := placedOf_cases hq
  · exact ⟨_, hl, hres ▸ hl'⟩
  · rw [hspill, hs'] at hs
    cases hs
  · rw [hspill, hs'] at hs
    cases hs
  · -- the class is in the low byte of the number
    have hc : c.toNat = c'.toNat := by
      have h1 : c.toNat < 256 := by cases c <;> decide
      have h2 : c'.toNat < 256 := by cases c' <;> decide
      omega
    have hclass : c = c' := by cases c <;> cases c' <;> first | rfl | cases hc
    subst hclass
    obtain rfl : o = o' := by omega
    exact ⟨_, hl, hl'⟩

theorem neighbourConflict_eq_none {ps : List Placed}
    (h : ps.Pairwise fun p q => ¬ (p.isSpill = q.isSpill ∧ p.resource = q.resource ∧
      lirRangesInterfere p.range q.range = true)) : neighbourConflict ps = none := by
  induction ps with
  | nil => rfl
  | cons p ps ih =>
    cases ps with
    | nil => rfl
    | cons q ps =>
      obtain ⟨hp, hps⟩ := List.pairwise_cons.1 h
      unfold neighbourConflict
      rw [if_neg (hp q List.mem_cons_self)]
      exact ih hps

/-- **Linear-scan allocation is sound.**  Registers with overlapping ranges get different places,
the registers of a coalesced class get one place, every register of a proper class gets a place,
and the final check finds nothing. -/
theorem allocateOneFunc_sound (regs : List TargetRegister) (cc : TargetCallingConvention)
    (facts : RegallocFacts) (ranges : List LirLiveRange) (hranges : LiveRanges ranges) :
    let a := allocateOneFunc regs cc facts ranges
    let part := partitionOf facts
      (buildFreeLists regs cc facts.reloadReserve facts.reservedFramePointer) ranges
    (∀ r ∈ ranges, ∀ s ∈ ranges, r ≠ s → lirRangesInterfere r s = true →
      ∀ l, a r.vreg = some l → a s.vreg ≠ some l) ∧
    (∀ root, ∀ x ∈ part.members root, ∀ y ∈ part.members root, a x = a y) ∧
    (∀ r ∈ ranges, r.regClass ≠ .none → a r.vreg ≠ none) ∧
    findAllocationConflict ranges a = none := by
  intro a part
  obtain ⟨hsound, st, hinv, hst⟩ := allocateOneFunc_inv regs cc facts hranges
  have hroot : ∀ {root x}, x ∈ part.members root → root ∈ classRoots ranges part := by
    intro root x hx
    obtain ⟨h1, h2, -⟩ := hsound.root root x hx
    exact (mem_classRoots hsound).2 ⟨h2, h1⟩
  have hcommon : ∀ {root x}, x ∈ part.members root → a x = a root := by
    intro root x hx
    have := hinv.common root (hroot hx) x hx
    rw [hst] at this
    exact this
  have hclass : ∀ r ∈ ranges, ∃ root, r.vreg ∈ part.members root := by
    intro r hr
    refine hsound.cover r.vreg ?_
    exact rangeTable_ne hr (hranges.ok r hr).1
  have happart : ∀ r ∈ ranges, ∀ s ∈ ranges, r ≠ s → lirRangesInterfere r s = true →
      ∀ l, a r.vreg = some l → a s.vreg ≠ some l := by
    intro r hr s hs hne hover l hl hl'
    obtain ⟨ρ, hρ⟩ := hclass r hr
    obtain ⟨σ, hσ⟩ := hclass s hs
    have hv : r.vreg ≠ s.vreg := fun heq => hne (List.inj_on_of_nodup_map hranges.nodup hr hs heq)
    by_cases hclasses : ρ = σ
    · -- in one class the ranges do not overlap
      subst hclasses
      have := hsound.apart ρ _ _ hρ hσ hv
      rw [rangeTable_eq hranges hr, rangeTable_eq hranges hs, hover] at this
      cases this
    · -- the hulls of two classes in one place do not overlap
      rw [hcommon hρ] at hl
      rw [hcommon hσ] at hl'
      have := hinv.ledger.apart ρ (hroot hρ) σ (hroot hσ) hclasses l (hst ▸ hl) (hst ▸ hl')
      obtain ⟨h1, h2, -⟩ := hsound.within ρ _ hρ
      obtain ⟨h3, h4, -⟩ := hsound.within σ _ hσ
      rw [rangeTable_eq hranges hr] at h1 h2
      rw [rangeTable_eq hranges hs] at h3 h4
      rw [CoalescePartition.interfere_false_iff] at this
      have hno : lirRangesInterfere r s = false := by
        rw [CoalescePartition.interfere_false_iff]
        omega
      rw [hno] at hover
      cases hover
  refine ⟨happart, fun root x hx y hy => (hcommon hx).trans (hcommon hy).symm, fun r hr hcls => ?_,
    ?_⟩
  · obtain ⟨ρ, hρ⟩ := hclass r hr
    obtain ⟨-, -, hsame⟩ := hsound.within ρ _ hρ
    rw [rangeTable_eq hranges hr] at hsame
    have hplaced := hinv.placed ρ (hroot hρ) (hsame ▸ hcls)
    rw [hst] at hplaced
    rw [hcommon hρ]
    exact hplaced
  · unfold findAllocationConflict
    refine neighbourConflict_eq_none ?_
    have hsymm : ∀ {p q : Placed}, ¬ (p.isSpill = q.isSpill ∧ p.resource = q.resource ∧
        lirRangesInterfere p.range q.range = true) → ¬ (q.isSpill = p.isSpill ∧
        q.resource = p.resource ∧ lirRangesInterfere q.range p.range = true) := by
      rintro p q h ⟨h1, h2, h3⟩
      exact h ⟨h1.symm, h2.symm, by rw [CoalescePartition.interfere_comm]; exact h3⟩
    refine ((List.mergeSort_perm _ _).pairwise_iff hsymm).2 ?_
    have hdistinct : ranges.Pairwise fun r s => r ∈ ranges ∧ s ∈ ranges ∧ r ≠ s :=
      List.Pairwise.imp_of_mem (fun hr hs hne => ⟨hr, hs, hne⟩)
        (List.Nodup.of_map _ hranges.nodup)
    refine hdistinct.filterMap _ ?_
    rintro r s ⟨hr, hs, hne⟩ p hp q hq ⟨h1, h2, h3⟩
    obtain ⟨l, hl, hl'⟩ := placedOf_resource hp hq h1 h2
    rw [(placedOf_cases hp).1, (placedOf_cases hq).1] at h3
    exact happart r hr s hs hne h3 l hl hl'

theorem allocateOneFunc_sound_oneRegister :
    let a := allocateOneFunc [⟨"r0", .gpr⟩] ⟨["r0"], [], [], [], [], [], none⟩
      ⟨10, [], [], [], [], [], none, none, fun _ => none, [], [], [], fun _ => 0, none⟩
      [⟨1, .gpr, 0, 10⟩, ⟨2, .gpr, 2, 4⟩]
    a 1 ≠ a 2 ∧ findAllocationConflict [⟨1, .gpr, 0, 10⟩, ⟨2, .gpr, 2, 4⟩] a = none := by
  have hranges : LiveRanges [⟨1, .gpr, 0, 10⟩, ⟨2, .gpr, 2, 4⟩] := ⟨by decide, by decide⟩
  obtain ⟨happart, -, hplaced, hnone⟩ := allocateOneFunc_sound [⟨"r0", .gpr⟩]
    ⟨["r0"], [], [], [], [], [], none⟩
    ⟨10, [], [], [], [], [], none, none, fun _ => none, [], [], [], fun _ => 0, none⟩ _ hranges
  refine ⟨fun heq => ?_, hnone⟩
  obtain ⟨l, hl⟩ := Option.ne_none_iff_exists'.1 (hplaced ⟨1, .gpr, 0, 10⟩ (by decide) (by decide))
  exact happart ⟨1, .gpr, 0, 10⟩ (by decide) ⟨2, .gpr, 2, 4⟩
    (by decide) (by decide) (by decide) l hl
    (heq ▸ hl)

end DssPrime
