import DssPrime.Lir.Coalesce

/-!
# The ledger of a linear scan

The scan at the level of classes: which class is where, which registers are free, which classes hold
registers and which slots are in use. `Ledger` is the invariant, stated over the hulls of the
classes alone.
-/

namespace DssPrime

variable {hull : ℕ → LirLiveRange}

def heldOrdinals (c : LirRegClass) (active : List ActiveEntry) : List ℕ :=
  (active.filter fun e => e.cls = c).map ActiveEntry.physOrdinal

def poolOf (free : FreeListsByClass) (active : List ActiveEntry) (c : LirRegClass) : List ℕ :=
  (free c).all ++ heldOrdinals c active

/-- The invariant of the scan: `done` are the classes placed, `rest` those still to come, and `loc`
says where the classes are. -/
structure Ledger (hull : ℕ → LirLiveRange) (done rest : List ℕ) (loc : ℕ → Option LirLocation)
    (free : FreeListsByClass) (active : List ActiveEntry) (slots : List SlotInFlight)
    (nextSlotV : ℕ) : Prop where
  pool : ∀ c, (poolOf free active c).Nodup
  entries : ∀ e ∈ active, e.classRoot ∈ done ∧ e.range = hull e.classRoot ∧
    loc e.classRoot = some (.phys e.physOrdinal e.cls)
  gone : ∀ r ∈ done, ∀ o c, loc r = some (.phys o c) →
    (∃ e ∈ active, e.classRoot = r) ∨ ∀ s ∈ rest, (hull r).end ≤ (hull s).start
  apart : ∀ r ∈ done, ∀ s ∈ done, r ≠ s → ∀ l, loc r = some l → loc s = some l →
    lirRangesInterfere (hull r) (hull s) = false
  slotEnds : ∀ r ∈ done, ∀ k, loc r = some (.spill k) →
    ∃ s ∈ slots, s.slot = k ∧ (hull r).end ≤ s.end
  slotIds : (slots.map SlotInFlight.slot).Nodup ∧ ∀ s ∈ slots, s.slot < nextSlotV

variable {done rest : List ℕ} {loc : ℕ → Option LirLocation} {free free' : FreeListsByClass}
  {active active' : List ActiveEntry} {slots slots' : List SlotInFlight} {nextSlotV next' : ℕ}

theorem mem_heldOrdinals {c : LirRegClass} {e : ActiveEntry} (he : e ∈ active) (hc : e.cls = c) :
    e.physOrdinal ∈ heldOrdinals c active :=
  List.mem_map_of_mem (List.mem_filter.2 ⟨he, by simpa using hc⟩)

theorem giveBack_pool (free : FreeListsByClass) (e : ActiveEntry) (active : List ActiveEntry)
    (c : LirRegClass) :
    (poolOf (giveBack free e) active c).Perm (poolOf free (e :: active) c) := by
  unfold poolOf heldOrdinals giveBack
  by_cases hc : c = e.cls
  · subst hc
    simp only [Function.update_self, List.filter_cons, decide_true, ↓reduceIte, List.map_cons]
    have hperm : (if e.isCalleeSaved then
        { free e.cls with calleeSaved := (free e.cls).calleeSaved ++ [e.physOrdinal] }
        else { free e.cls with
          callerSaved := (free e.cls).callerSaved ++ [e.physOrdinal] } : RegList).all.Perm
        (e.physOrdinal :: (free e.cls).all) := by
      split_ifs
      · exact all_append_calleeSaved _ _
      · exact all_append_callerSaved _ _
    exact (hperm.append_right _).trans List.perm_middle.symm
  · rw [Function.update_of_ne hc]
    simp [Ne.symm hc]

theorem expireActive_spec (t : ℕ) (active : List ActiveEntry) (free : FreeListsByClass) :
    let r := expireActive t active free
    (∀ c, (poolOf r.2 r.1 c).Perm (poolOf free active c)) ∧ (∀ e ∈ r.1, e ∈ active) ∧
      ∀ e ∈ active, e ∈ r.1 ∨ e.range.end ≤ t := by
  induction active generalizing free with
  | nil => exact ⟨fun c => List.Perm.refl _, fun e he => he, fun e he => .inl he⟩
  | cons e active ih =>
    unfold expireActive
    split_ifs with hend
    · obtain ⟨h1, h2, h3⟩ := ih (giveBack free e)
      refine ⟨fun c => (h1 c).trans (giveBack_pool free e active c),
        fun x hx => List.mem_cons_of_mem _ (h2 x hx), fun x hx => ?_⟩
      rcases List.mem_cons.1 hx with rfl | hx
      · exact .inr hend
      · exact h3 x hx
    · obtain ⟨h1, h2, h3⟩ := ih free
      simp only
      generalize expireActive t active free = r at h1 h2 h3
      obtain ⟨active', free'⟩ := r
      refine ⟨fun c => ?_, fun x hx => ?_, fun x hx => ?_⟩
      · have hc := h1 c
        unfold poolOf heldOrdinals at hc ⊢
        by_cases hcls : e.cls = c
        · simp only [List.filter_cons, hcls, decide_true, ↓reduceIte, List.map_cons]
          exact List.perm_middle.trans ((hc.cons _).trans List.perm_middle.symm)
        · simpa [hcls] using hc
      · rcases List.mem_cons.1 hx with rfl | hx
        · exact List.mem_cons_self
        · exact List.mem_cons_of_mem _ (h2 x hx)
      · rcases List.mem_cons.1 hx with rfl | hx
        · exact .inl List.mem_cons_self
        · rcases h3 x hx with h | h
          · exact .inl (List.mem_cons_of_mem _ h)
          · exact .inr h

theorem Ledger.expire (h : Ledger hull done rest loc free active slots nextSlotV) {t : ℕ}
    (hrest : ∀ s ∈ rest, t ≤ (hull s).start) :
    Ledger hull done rest loc (expireActive t active free).2 (expireActive t active free).1 slots
      nextSlotV := by
  obtain ⟨h1, h2, h3⟩ := expireActive_spec t active free
  refine ⟨fun c => (h1 c).nodup_iff.2 (h.pool c), fun e he => h.entries e (h2 e he), ?_, h.apart,
    h.slotEnds, h.slotIds⟩
  intro r hr o c hloc
  rcases h.gone r hr o c hloc with ⟨e, he, rfl⟩ | hgone
  · rcases h3 e he with he' | hend
    · exact .inl ⟨e, he', rfl⟩
    · refine .inr fun s hs => ?_
      rw [← (h.entries e he).2.1]
      exact hend.trans (hrest s hs)
  · exact .inr hgone

section Place

variable {r : ℕ} (hr : r ∉ done)
include hr

theorem update_of_done {l : Option LirLocation} {s : ℕ} (hs : s ∈ done) :
    Function.update loc r l s = loc s := by
  have hne : s ≠ r := fun heq => hr (heq ▸ hs)
  rw [Function.update_of_ne hne]

omit hr in
theorem Ledger.skip (h : Ledger hull done (r :: rest) loc free active slots nextSlotV)
    (hloc : loc r = none) :
    Ledger hull (done ++ [r]) rest loc free active slots nextSlotV := by
  have hsplit : ∀ s ∈ done ++ [r], s ∈ done ∨ s = r := fun s hs => by simpa using hs
  have hnone : ∀ {s l}, loc s = some l → s ≠ r := fun hs heq => by
    rw [heq, hloc] at hs
    cases hs
  refine ⟨h.pool, fun e he => ?_, fun s hs o c hl => ?_, fun s hs t ht hne l hl hl' => ?_,
    fun s hs k hl => ?_, h.slotIds⟩
  · obtain ⟨h1, h2, h3⟩ := h.entries e he
    exact ⟨List.mem_append_left _ h1, h2, h3⟩
  · rcases h.gone s ((hsplit s hs).resolve_right (hnone hl)) o c hl with hact | hgone
    · exact .inl hact
    · exact .inr fun t ht => hgone t (List.mem_cons_of_mem _ ht)
  · exact h.apart s ((hsplit s hs).resolve_right (hnone hl)) t
      ((hsplit t ht).resolve_right (hnone hl')) hne l hl hl'
  · exact h.slotEnds s ((hsplit s hs).resolve_right (hnone hl)) k hl

theorem Ledger.apart_update (h : Ledger hull done (r :: rest) loc free active slots nextSlotV)
    {k : LirLocation}
    (hended : ∀ s ∈ done, loc s = some k → lirRangesInterfere (hull s) (hull r) = false) :
    ∀ s ∈ done ++ [r], ∀ t ∈ done ++ [r], s ≠ t → ∀ l, Function.update loc r (some k) s = some l →
      Function.update loc r (some k) t = some l → lirRangesInterfere (hull s) (hull t) = false := by
  have hsplit : ∀ s ∈ done ++ [r], s ∈ done ∨ s = r := fun s hs => by simpa using hs
  intro s hs t ht hne l hl hl'
  rcases hsplit s hs with hsd | rfl <;> rcases hsplit t ht with htd | rfl
  · rw [update_of_done hr hsd] at hl
    rw [update_of_done hr htd] at hl'
    exact h.apart s hsd t htd hne l hl hl'
  · rw [update_of_done hr hsd] at hl
    rw [Function.update_self] at hl'
    obtain rfl := Option.some.inj hl'
    exact hended s hsd hl
  · rw [update_of_done hr htd] at hl'
    rw [Function.update_self] at hl
    obtain rfl := Option.some.inj hl
    rw [CoalescePartition.interfere_comm]
    exact hended t htd hl'
  · exact absurd rfl hne

theorem Ledger.addPhys (h : Ledger hull done (r :: rest) loc free active slots nextSlotV) {o : ℕ}
    {c : LirRegClass} (ho : o ∉ poolOf free active c) (cs : Bool) :
    Ledger hull (done ++ [r]) rest (Function.update loc r (some (.phys o c))) free
      (active ++ [⟨hull r, c, o, cs, r⟩]) slots nextSlotV := by
  have hsplit : ∀ s ∈ done ++ [r], s ∈ done ∨ s = r := fun s hs => by simpa using hs
  -- another class in the register has ended
  have hended : ∀ s ∈ done, loc s = some (.phys o c) →
      lirRangesInterfere (hull s) (hull r) = false := by
    intro s hs hl
    rw [CoalescePartition.interfere_false_iff]
    rcases h.gone s hs o c hl with ⟨e, he, rfl⟩ | hgone
    · have heq := (h.entries e he).2.2
      rw [hl] at heq
      obtain ⟨rfl, rfl⟩ := LirLocation.phys.inj (Option.some.inj heq)
      exact absurd (List.mem_append_right _ (mem_heldOrdinals he rfl)) ho
    · exact .inr (hgone r List.mem_cons_self)
  refine ⟨fun c' => ?_, fun e he => ?_, fun s hs o' c' hl => ?_, h.apart_update hr hended,
    fun s hs k hl => ?_, h.slotIds⟩
  · have hpool := h.pool c'
    unfold poolOf heldOrdinals at hpool ho ⊢
    rw [List.filter_append, List.map_append, ← List.append_assoc]
    by_cases hc : c = c'
    · subst hc
      simp only [List.filter_cons, decide_true, ↓reduceIte, List.filter_nil, List.map_cons,
        List.map_nil]
      refine (List.perm_append_singleton _ _).nodup_iff.2 (List.nodup_cons.2 ⟨ho, hpool⟩)
    · simpa [hc] using hpool
  · rcases List.mem_append.1 he with he | he
    · obtain ⟨h1, h2, h3⟩ := h.entries e he
      refine ⟨List.mem_append_left _ h1, h2, ?_⟩
      rw [update_of_done hr h1]
      exact h3
    · obtain rfl := List.mem_singleton.1 he
      exact ⟨by simp, rfl, Function.update_self ..⟩
  · rcases hsplit s hs with hs | rfl
    · rw [update_of_done hr hs] at hl
      rcases h.gone s hs o' c' hl with ⟨e, he, hroot⟩ | hgone
      · exact .inl ⟨e, List.mem_append_left _ he, hroot⟩
      · exact .inr fun t ht => hgone t (List.mem_cons_of_mem _ ht)
    · exact .inl ⟨_, List.mem_append_right _ (List.mem_singleton.2 rfl), rfl⟩
  · rcases hsplit s hs with hs | rfl
    · rw [update_of_done hr hs] at hl
      exact h.slotEnds s hs k hl
    · rw [Function.update_self] at hl
      cases hl

structure SlotFor (slots slots' : List SlotInFlight) (nextSlotV next' k : ℕ)
    (range : LirLiveRange) : Prop where
  free : (∃ s ∈ slots, s.slot = k ∧ s.end ≤ range.start) ∨ nextSlotV ≤ k
  used : ∃ s ∈ slots', s.slot = k ∧ range.end ≤ s.end
  kept : ∀ s ∈ slots, ∃ s' ∈ slots', s'.slot = s.slot ∧ s.end ≤ s'.end
  ids : (slots'.map SlotInFlight.slot).Nodup ∧ ∀ s ∈ slots', s.slot < next'

omit hr in
theorem Ledger.slot_ended (h : Ledger hull done rest loc free active slots nextSlotV) {k : ℕ}
    {range : LirLiveRange} (hs : SlotFor slots slots' nextSlotV next' k range) {s : ℕ}
    (hd : s ∈ done) (hl : loc s = some (.spill k)) : (hull s).end ≤ range.start := by
  obtain ⟨t, ht, hslot, hend⟩ := h.slotEnds s hd k hl
  rcases hs.free with ⟨u, hu, huk, hue⟩ | hnew
  · have heq : t = u :=
      List.inj_on_of_nodup_map h.slotIds.1 ht hu (hslot.trans huk.symm)
    subst heq
    exact hend.trans hue
  · have hlt := h.slotIds.2 t ht
    omega

theorem Ledger.addSpill (h : Ledger hull done (r :: rest) loc free active slots nextSlotV) {k : ℕ}
    (hs : SlotFor slots slots' nextSlotV next' k (hull r)) :
    Ledger hull (done ++ [r]) rest (Function.update loc r (some (.spill k))) free active slots'
      next' := by
  have hsplit : ∀ s ∈ done ++ [r], s ∈ done ∨ s = r := fun s hs => by simpa using hs
  have hended : ∀ s ∈ done, loc s = some (.spill k) →
      lirRangesInterfere (hull s) (hull r) = false := fun s hd hl => by
    rw [CoalescePartition.interfere_false_iff]
    exact .inr (h.slot_ended hs hd hl)
  refine ⟨h.pool, fun e he => ?_, fun s hs o c hl => ?_, h.apart_update hr hended,
    fun s hd k' hl => ?_, hs.ids⟩
  · obtain ⟨h1, h2, h3⟩ := h.entries e he
    refine ⟨List.mem_append_left _ h1, h2, ?_⟩
    rw [update_of_done hr h1]
    exact h3
  · rcases hsplit s hs with hs | rfl
    · rw [update_of_done hr hs] at hl
      rcases h.gone s hs o c hl with hact | hgone
      · exact .inl hact
      · exact .inr fun t ht => hgone t (List.mem_cons_of_mem _ ht)
    · rw [Function.update_self] at hl
      cases hl
  · rcases hsplit s hd with hd | rfl
    · rw [update_of_done hr hd] at hl
      obtain ⟨t, ht, hslot, hend⟩ := h.slotEnds s hd k' hl
      obtain ⟨t', ht', hslot', hend'⟩ := hs.kept t ht
      exact ⟨t', ht', hslot'.trans hslot, hend.trans hend'⟩
    · rw [Function.update_self] at hl
      obtain rfl := LirLocation.spill.inj (Option.some.inj hl)
      exact hs.used

end Place

theorem Ledger.entry_unique (h : Ledger hull done rest loc free active slots nextSlotV)
    {e e' : ActiveEntry} (he : e ∈ active) (he' : e' ∈ active)
    (hroot : e.classRoot = e'.classRoot) :
    e = e' := by
  have h1 := (h.entries e he).2.2
  have h2 := (h.entries e' he').2.2
  rw [hroot, h2] at h1
  obtain ⟨hord, hcls⟩ := LirLocation.phys.inj (Option.some.inj h1)
  have hnodup : (heldOrdinals e.cls active).Nodup := (List.nodup_append.1 (h.pool e.cls)).2.1
  refine List.inj_on_of_nodup_map hnodup ?_ ?_ hord.symm
  · exact List.mem_filter.2 ⟨he, by simp⟩
  · exact List.mem_filter.2 ⟨he', by simpa using hcls⟩

theorem heldOrdinals_erase {e : ActiveEntry} (he : e ∈ active) (c : LirRegClass) :
    (heldOrdinals c active).Perm
      ((if e.cls = c then [e.physOrdinal] else []) ++ heldOrdinals c (active.erase e)) := by
  have hperm := ((List.perm_cons_erase he).filter fun x => x.cls = c).map ActiveEntry.physOrdinal
  unfold heldOrdinals
  by_cases hc : e.cls = c
  · simpa [hc] using hperm
  · simpa [hc] using hperm

theorem Ledger.evict (h : Ledger hull done rest loc free active slots nextSlotV)
    {e : ActiveEntry} (he : e ∈ active) {k : ℕ}
    (hs : SlotFor slots slots' nextSlotV next' k (hull e.classRoot)) :
    Ledger hull done rest (Function.update loc e.classRoot (some (.spill k))) free
        (active.erase e) slots' next' ∧
      e.physOrdinal ∉ poolOf free (active.erase e) e.cls := by
  obtain ⟨hdone, -, -⟩ := h.entries e he
  have hpool : ∀ c, (poolOf free active c).Perm
      ((if e.cls = c then [e.physOrdinal] else []) ++ poolOf free (active.erase e) c) := by
    intro c
    have hperm := (heldOrdinals_erase he c).append_left (free c).all
    unfold poolOf
    split_ifs at hperm ⊢
    · exact hperm.trans List.perm_middle
    · exact hperm
  have hmoved : ∀ s l, s ≠ e.classRoot → Function.update loc e.classRoot l s = loc s :=
    fun s l hne => Function.update_of_ne hne _ _
  have hended : ∀ s ∈ done, loc s = some (.spill k) →
      lirRangesInterfere (hull s) (hull e.classRoot) = false := fun s hd hl => by
    rw [CoalescePartition.interfere_false_iff]
    exact .inr (h.slot_ended hs hd hl)
  refine ⟨⟨fun c => ?_, fun e' he' => ?_, fun s hd o c hl => ?_,
    fun s hd t ht hne l hl hl' => ?_, fun s hd k' hl => ?_, hs.ids⟩, ?_⟩
  · exact (List.nodup_append.1 ((hpool c).nodup_iff.1 (h.pool c))).2.1
  · have hmem := List.mem_of_mem_erase he'
    obtain ⟨h1, h2, h3⟩ := h.entries e' hmem
    refine ⟨h1, h2, ?_⟩
    rw [hmoved]
    · exact h3
    · -- the entry of the moved class is the one that was erased
      intro hroot
      obtain rfl := h.entry_unique hmem he hroot
      have hnodup := (hpool e'.cls).nodup_iff.1 (h.pool e'.cls)
      rw [if_pos rfl, List.singleton_append, List.nodup_cons] at hnodup
      exact hnodup.1 (List.mem_append_right _ (mem_heldOrdinals he' rfl))
  · by_cases hroot : s = e.classRoot
    · subst hroot
      rw [Function.update_self] at hl
      cases hl
    · rw [hmoved s _ hroot] at hl
      rcases h.gone s hd o c hl with ⟨e', he', rfl⟩ | hgone
      · have hne' : e' ≠ e := fun heq => hroot (congrArg ActiveEntry.classRoot heq)
        exact .inl ⟨e', (List.mem_erase_of_ne hne').2 he', rfl⟩
      · exact .inr hgone
  · by_cases hroot : s = e.classRoot <;> by_cases hroot' : t = e.classRoot
    · exact absurd (hroot.trans hroot'.symm) hne
    · subst hroot
      rw [Function.update_self] at hl
      rw [hmoved t _ hroot'] at hl'
      obtain rfl := Option.some.inj hl
      rw [CoalescePartition.interfere_comm]
      exact hended t ht hl'
    · subst hroot'
      rw [Function.update_self] at hl'
      rw [hmoved s _ hroot] at hl
      obtain rfl := Option.some.inj hl'
      exact hended s hd hl
    · rw [hmoved s _ hroot] at hl
      rw [hmoved t _ hroot'] at hl'
      exact h.apart s hd t ht hne l hl hl'
  · by_cases hroot : s = e.classRoot
    · subst hroot
      rw [Function.update_self] at hl
      obtain rfl := LirLocation.spill.inj (Option.some.inj hl)
      exact hs.used
    · rw [hmoved s _ hroot] at hl
      obtain ⟨t, ht, hslot, hend⟩ := h.slotEnds s hd k' hl
      obtain ⟨t', ht', hslot', hend'⟩ := hs.kept t ht
      exact ⟨t', ht', hslot'.trans hslot, hend.trans hend'⟩
  · have hnodup := (hpool e.cls).nodup_iff.1 (h.pool e.cls)
    rw [if_pos rfl, List.singleton_append, List.nodup_cons] at hnodup
    exact hnodup.1

end DssPrime
