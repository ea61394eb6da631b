import DssPrime.Lir.RegAllocSound

/-!
# The scan honours its exclusions

A register that the scan hands out is not excluded, and is kept by calls if the class crosses one,
whether it comes off a free list (`tryAllocatePreferred`, `tryAllocateExcluding`) or from an evicted
class (`findSpillCandidate`).
-/

namespace DssPrime

/-- A register that the exclusions and the calls allow: not excluded, and kept by calls if the range
crosses one. -/
structure Allowed (keeps : LirRegClass → List ℕ) (cls : LirRegClass) (crossesCall : Bool)
    (excluded : List ℕ) (o : ℕ) : Prop where
  free : o ∉ excluded
  kept : crossesCall = true → o ∈ keeps cls

structure Marked (keeps : LirRegClass → List ℕ) (free : FreeListsByClass)
    (active : List ActiveEntry) : Prop where
  lists : ∀ c, ∀ o ∈ (free c).calleeSaved, o ∈ keeps c
  held : ∀ e ∈ active, e.isCalleeSaved = true → e.physOrdinal ∈ keeps e.cls

section Pick

variable {keeps : LirRegClass → List ℕ} {free free' : FreeListsByClass} {cls : LirRegClass}
  {crossesCall : Bool} {excluded : List ℕ} {pick : AllocPick}

theorem popLast_spec {ok : ℕ → Bool} {l rest : List ℕ} {x : ℕ}
    (h : popLast ok l = some (x, rest)) : ok x = true ∧ x ∈ l ∧ ∀ y ∈ rest, y ∈ l := by
  refine ⟨?_, (popLast_perm h).mem_iff.2 List.mem_cons_self,
    fun y hy => (popLast_perm h).mem_iff.2 (List.mem_cons_of_mem _ hy)⟩
  induction l generalizing x rest with
  | nil => cases h
  | cons r l ih =>
    unfold popLast at h
    split at h
    · rename_i y rest' hy
      obtain ⟨rfl, rfl⟩ := Prod.mk.inj (Option.some.inj h)
      exact ih hy
    · split_ifs at h with hok
      obtain ⟨rfl, rfl⟩ := Prod.mk.inj (Option.some.inj h)
      exact hok

structure Handed (keeps : LirRegClass → List ℕ) (cls : LirRegClass) (crossesCall : Bool)
    (excluded : List ℕ) (pick : AllocPick) (free' : FreeListsByClass) : Prop where
  allowed : Allowed keeps cls crossesCall excluded pick.ordinal
  mark : pick.isCalleeSaved = true → pick.ordinal ∈ keeps cls
  lists : ∀ c, ∀ o ∈ (free' c).calleeSaved, o ∈ keeps c

theorem handed_calleeSaved (hlists : ∀ c, ∀ o ∈ (free c).calleeSaved, o ∈ keeps c) {o : ℕ}
    {rest : List ℕ} (ho : o ∈ (free cls).calleeSaved)
    (hrest : ∀ y ∈ rest, y ∈ (free cls).calleeSaved) (hfree : o ∉ excluded) :
    Handed keeps cls crossesCall excluded ⟨o, true⟩
      (Function.update free cls { free cls with calleeSaved := rest }) := by
  refine ⟨⟨hfree, fun _ => hlists cls o ho⟩, fun _ => hlists cls o ho, ?_⟩
  intro c x hx
  by_cases hc : c = cls
  · subst hc
    rw [Function.update_self] at hx
    exact hlists c x (hrest x hx)
  · rw [Function.update_of_ne hc] at hx
    exact hlists c x hx

theorem handed_callerSaved (hlists : ∀ c, ∀ o ∈ (free c).calleeSaved, o ∈ keeps c) {o : ℕ}
    {rest : List ℕ} (hcross : crossesCall = false) (hfree : o ∉ excluded) :
    Handed keeps cls crossesCall excluded ⟨o, false⟩
      (Function.update free cls { free cls with callerSaved := rest }) := by
  refine ⟨⟨hfree, fun h => ?_⟩, fun h => ?_, ?_⟩
  · rw [hcross] at h
    cases h
  · cases h
  · intro c x hx
    by_cases hc : c = cls
    · subst hc
      rw [Function.update_self] at hx
      exact hlists c x hx
    · rw [Function.update_of_ne hc] at hx
      exact hlists c x hx

theorem tryAllocateExcluding_handed (hlists : ∀ c, ∀ o ∈ (free c).calleeSaved, o ∈ keeps c)
    (h : tryAllocateExcluding free cls crossesCall excluded = some (pick, free')) :
    Handed keeps cls crossesCall excluded pick free' := by
  obtain ⟨r, rest, hpop, rfl, rfl⟩ | ⟨hcross, r, rest, hpop, rfl, rfl⟩ :=
    tryAllocateExcluding_cases h
  · obtain ⟨hok, hmem, hrest⟩ := popLast_spec hpop
    exact handed_calleeSaved hlists hmem hrest (of_decide_eq_true hok)
  · obtain ⟨hok, -, -⟩ := popLast_spec hpop
    exact handed_callerSaved hlists hcross (of_decide_eq_true hok)

theorem tryAllocatePreferred_handed (hlists : ∀ c, ∀ o ∈ (free c).calleeSaved, o ∈ keeps c)
    {preferred : Option ℕ}
    (h : tryAllocatePreferred free cls crossesCall excluded preferred = some (pick, free')) :
    Handed keeps cls crossesCall excluded pick free' := by
  unfold tryAllocatePreferred at h
  split at h
  · cases h
  · simp only at h
    split_ifs at h with h1 h2 h3
    · obtain ⟨rfl, rfl⟩ := Prod.mk.inj (Option.some.inj h)
      simp only [Bool.and_eq_true, Bool.not_eq_true', decide_eq_true_eq] at h2
      exact handed_callerSaved hlists h2.1 h1
    · obtain ⟨rfl, rfl⟩ := Prod.mk.inj (Option.some.inj h)
      exact handed_calleeSaved hlists h3 (fun y hy => List.mem_of_mem_erase hy) h1

theorem findSpillCandidate_allowed {active : List ActiveEntry} (hmarked : Marked keeps free active)
    {e : ActiveEntry} (h : findSpillCandidate active cls crossesCall excluded = some e) :
    Allowed keeps cls crossesCall excluded e.physOrdinal := by
  obtain ⟨hmem, hcls, hsaved, hexcluded⟩ := findSpillCandidate_spec h
  refine ⟨hexcluded, fun hc => ?_⟩
  rw [← hcls]
  exact hmarked.held e hmem (hsaved hc)

end Pick

section Scan

variable {keeps : LirRegClass → List ℕ} {facts : RegallocFacts} {part : CoalescePartition}
  {rangeOf : ℕ → LirLiveRange} {done : List ℕ} {r : ℕ} {st : ScanState}

theorem Marked.expire {active : List ActiveEntry} {free : FreeListsByClass}
    (h : Marked keeps free active) (t : ℕ) :
    Marked keeps (expireActive t active free).2 (expireActive t active free).1 := by
  induction active generalizing free with
  | nil => exact h
  | cons e active ih =>
    unfold expireActive
    split_ifs with hend
    · refine ih ⟨fun c o ho => ?_, fun x hx => h.held x (List.mem_cons_of_mem _ hx)⟩
      unfold giveBack at ho
      by_cases hc : c = e.cls
      · subst hc
        rw [Function.update_self] at ho
        split_ifs at ho with hsaved
        · rcases List.mem_append.1 ho with ho | ho
          · exact h.lists _ o ho
          · rw [List.mem_singleton.1 ho]
            exact h.held e List.mem_cons_self hsaved
        · exact h.lists _ o ho
      · rw [Function.update_of_ne hc] at ho
        exact h.lists c o ho
    · obtain ⟨hlists, hheld⟩ :=
        @ih free ⟨h.lists, fun x hx => h.held x (List.mem_cons_of_mem _ hx)⟩
      refine ⟨hlists, fun x hx => ?_⟩
      rcases List.mem_cons.1 hx with rfl | hx
      · exact h.held x List.mem_cons_self
      · exact hheld x hx

theorem acquireSlot_same (st : ScanState) (cls : LirRegClass) (range : LirLiveRange) :
    SameButSlots st (acquireSlot st cls range).1 := by
  unfold acquireSlot
  split <;> exact ⟨rfl, rfl, rfl⟩

/-- What one class of the scan does to the places: the other classes keep their registers or go to
slots, and a register given to the class is allowed by the exclusions computed for it. -/
structure Honoured (keeps : LirRegClass → List ℕ) (facts : RegallocFacts) (part : CoalescePartition)
    (rangeOf : ℕ → LirLiveRange) (r : ℕ) (st st' : ScanState) : Prop where
  marked : Marked keeps st'.free st'.active
  /-- Other registers keep their place or lose it to a slot. -/
  others : ∀ x ∉ part.members r, ∀ o c, st'.assignments x = some (.phys o c) →
    st.assignments x = some (.phys o c)
  own : ∀ x ∈ part.members r, ∀ o c, st'.assignments x = some (.phys o c) →
    st.assignments x = some (.phys o c) ∨ (c = (part.hull r).regClass ∧
      Allowed keeps (part.hull r).regClass (rangeCrossesCall (part.hull r) facts.callPositions)
        (excludedFor facts rangeOf (part.members r) st.assignments (part.hull r)) o)

theorem scanClass_honoured (h : Marked keeps st.free st.active) :
    Honoured keeps facts part rangeOf r st (scanClass facts part rangeOf st r) := by
  unfold scanClass
  simp only
  by_cases hv : (part.hull r).vreg = 0
  · rw [if_pos hv]
    exact ⟨h, fun _ _ _ _ hx => hx, fun _ _ _ _ hx => .inl hx⟩
  rw [if_neg hv]
  by_cases hcls : (part.hull r).regClass = .none
  · rw [if_pos hcls]
    exact ⟨h, fun _ _ _ _ hx => hx, fun _ _ _ _ hx => .inl hx⟩
  rw [if_neg hcls]
  have hexp := h.expire (part.hull r).start
  generalize expireActive (part.hull r).start st.active st.free = ex at hexp
  obtain ⟨active, free⟩ := ex
  simp only at hexp ⊢
  generalize hexcluded :
    excludedFor facts rangeOf (part.members r) st.assignments (part.hull r) = excluded
  generalize hcross : rangeCrossesCall (part.hull r) facts.callPositions = crossesCall
  split
  · -- a register is free
    rename_i pick free' hpick
    have hhanded : Handed keeps (part.hull r).regClass crossesCall excluded pick free' := by
      split at hpick
      · rename_i p hp
        obtain rfl := Option.some.inj hpick
        exact tryAllocatePreferred_handed hexp.lists hp
      · exact tryAllocateExcluding_handed hexp.lists hpick
    refine ⟨⟨hhanded.lists, fun e he => ?_⟩, fun x hx o c ho => ?_, fun x hx o c ho => ?_⟩
    · rcases List.mem_append.1 he with he | he
      · exact hexp.held e he
      · rw [List.mem_singleton.1 he]
        exact hhanded.mark
    · simp only at ho
      rwa [assignClass_apply, if_neg hx] at ho
    · simp only at ho
      rw [assignClass_apply, if_pos hx] at ho
      obtain ⟨rfl, rfl⟩ := LirLocation.phys.inj (Option.some.inj ho)
      rw [hexcluded, hcross]
      exact .inr ⟨rfl, hhanded.allowed⟩
  · have hspill : ∀ cls' range, Honoured keeps facts part rangeOf r st
        { (acquireSlot { st with active := active, free := free } cls' range).1 with
          assignments := assignClass
            (acquireSlot { st with active := active, free := free } cls' range).1.assignments
            (part.members r)
            (.spill (acquireSlot { st with active := active, free := free } cls' range).2) } := by
      intro cls' range
      obtain ⟨hfree, hactive, hassign⟩ :=
        acquireSlot_same { st with active := active, free := free } cls' range
      refine ⟨⟨?_, ?_⟩, fun x hx o c ho => ?_, fun x hx o c ho => ?_⟩
      · simp only [hfree]
        exact hexp.lists
      · simp only [hactive]
        exact hexp.held
      · simp only [hassign] at ho
        rwa [assignClass_apply, if_neg hx] at ho
      · simp only [hassign] at ho
        rw [assignClass_apply, if_pos hx] at ho
        cases ho
    split
    · rename_i e he
      split_ifs
      · -- the candidate goes to a slot and its register to the class
        obtain ⟨hmem, hecls⟩ := findSpillCandidate_mem he
        have hallowed := findSpillCandidate_allowed hexp he
        obtain ⟨hfree, hactive, hassign⟩ :=
          acquireSlot_same { st with active := active, free := free } e.cls e.range
        refine ⟨⟨?_, fun x hx => ?_⟩, fun x hx o c ho => ?_, fun x hx o c ho => ?_⟩
        · simp only [hfree]
          exact hexp.lists
        · simp only [hactive] at hx
          rcases List.mem_append.1 hx with hx | hx
          · exact hexp.held x (List.mem_of_mem_erase hx)
          · rw [List.mem_singleton.1 hx]
            exact fun hsaved => hecls ▸ hexp.held e hmem hsaved
        · simp only [hassign] at ho
          rw [assignClass_apply, if_neg hx, assignClass_apply] at ho
          split_ifs at ho
          · cases ho
          · exact ho
        · simp only at ho
          rw [assignClass_apply, if_pos hx] at ho
          obtain ⟨rfl, rfl⟩ := LirLocation.phys.inj (Option.some.inj ho)
          rw [hexcluded, hcross]
          exact .inr ⟨rfl, hallowed⟩
      · exact hspill _ _
    · exact hspill _ _

/-- A class that got a register: the register was allowed by the exclusions computed when the class
was reached, and the registers of the classes before it were what they still are, unless they have
gone to slots since. -/
def Chosen (keeps : LirRegClass → List ℕ) (facts : RegallocFacts) (part : CoalescePartition)
    (rangeOf : ℕ → LirLiveRange) (before : List ℕ) (r : ℕ) (assignments : ℕ → Option LirLocation)
    (o : ℕ) (c : LirRegClass) : Prop :=
  c = (part.hull r).regClass ∧ ∃ a₀ : ℕ → Option LirLocation,
    Allowed keeps (part.hull r).regClass (rangeCrossesCall (part.hull r) facts.callPositions)
      (excludedFor facts rangeOf (part.members r) a₀ (part.hull r)) o ∧
    ∀ s ∈ before, ∀ x ∈ part.members s, ∀ o' c', assignments x = some (.phys o' c') →
      a₀ x = some (.phys o' c')

/-- Every class reached so far was given a register by its exclusions. -/
structure Honours (keeps : LirRegClass → List ℕ) (facts : RegallocFacts) (part : CoalescePartition)
    (rangeOf : ℕ → LirLiveRange) (done : List ℕ) (st : ScanState) : Prop where
  marked : Marked keeps st.free st.active
  chosen : ∀ before r after, done = before ++ r :: after → ∀ x ∈ part.members r, ∀ o c,
    st.assignments x = some (.phys o c) →
      Chosen keeps facts part rangeOf before r st.assignments o c
  fresh : ∀ x, (∀ r ∈ done, x ∉ part.members r) → ∀ o c, st.assignments x ≠ some (.phys o c)

theorem Honours.step (hsound : part.Sound rangeOf)
    (h : Honours keeps facts part rangeOf done st) (hr : r ∉ done) :
    Honours keeps facts part rangeOf (done ++ [r]) (scanClass facts part rangeOf st r) := by
  obtain ⟨hmarked, hothers, hown⟩ := @scanClass_honoured keeps facts part rangeOf r st h.marked
  generalize scanClass facts part rangeOf st r = st' at hmarked hothers hown ⊢
  -- what is a register now was one before, unless it is of the class `r`
  have hkept : ∀ s ∈ done, ∀ x ∈ part.members s, ∀ o c, st'.assignments x = some (.phys o c) →
      st.assignments x = some (.phys o c) := by
    intro s hs x hx
    refine hothers x fun hmem => hr ?_
    rw [hsound.unique r s x hmem hx]
    exact hs
  refine ⟨hmarked, ?_, ?_⟩
  · intro before s after hsplit x hx o c ho
    rcases List.eq_nil_or_concat after with rfl | ⟨after, t, rfl⟩
    · -- the class just reached
      obtain ⟨rfl, heq⟩ := List.append_inj' hsplit rfl
      obtain rfl := (List.cons.inj heq).1
      rcases hown x hx o c ho with hold | ⟨hcls, hallowed⟩
      · refine absurd hold (h.fresh x ?_ o c)
        intro s hs hmem
        exact hr (hsound.unique r s x hx hmem ▸ hs)
      · exact ⟨hcls, st.assignments, hallowed, hkept⟩
    · -- a class reached before
      rw [List.concat_eq_append] at hsplit
      have hsplit' : done = before ++ s :: after := by
        have : done ++ [r] = (before ++ s :: after) ++ [t] := by simp [hsplit]
        exact (List.append_inj' this rfl).1
      have hs : s ∈ done := by simp [hsplit']
      obtain ⟨hcls, a₀, hallowed, hbefore⟩ :=
        h.chosen before s after hsplit' x hx o c (hkept s hs x hx o c ho)
      refine ⟨hcls, a₀, hallowed, fun s' hs' y hy o' c' hy' => hbefore s' hs' y hy o' c' ?_⟩
      exact hkept s' (by simp [hsplit', hs']) y hy o' c' hy'
  · intro x hx o c ho
    have hxr : x ∉ part.members r := hx r (by simp)
    exact h.fresh x (fun s hs => hx s (by simp [hs])) o c (hothers x hxr o c ho)

theorem honours_foldl (hsound : part.Sound rangeOf) (rs : List ℕ) {done : List ℕ} {st : ScanState}
    (h : Honours keeps facts part rangeOf done st) (hnodup : (done ++ rs).Nodup) :
    Honours keeps facts part rangeOf (done ++ rs) (rs.foldl (scanClass facts part rangeOf) st) := by
  induction rs generalizing done st with
  | nil => simpa using h
  | cons r rs ih =>
    have hr : r ∉ done := fun hmem =>
      (List.nodup_append.1 hnodup).2.2 r hmem r List.mem_cons_self rfl
    have hassoc : done ++ r :: rs = (done ++ [r]) ++ rs := by simp
    rw [hassoc] at hnodup ⊢
    exact ih (h.step hsound hr) hnodup

end Scan

end DssPrime
