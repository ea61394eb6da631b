import Mathlib

/-!
# Giving keys numbers

A renaming hands out numbers to keys as it meets them: a key gets a number that nothing has yet, or
it is folded onto a number that some other key was given.  `Names` is the table of the numbers given
so far, with the key that each number was given to; some numbers are handed out to no key at all.

`Naming F` is the invariant of such a table when only the keys of `F` may be folded: every other key
owns its number, so two of them never share one (`Naming.eq_of_table_eq`).  Each operation only adds
to the table (`Names.Extends`), so that whatever was read from it stays true of the finished one.
`Settles` says of a computation that works on a table that it keeps the invariant and adds to the
table, and what its result is in terms of every later table.
-/

namespace DssPrime

universe u v

/-- The numbers of keys. -/
structure Names (κ : Type u) where
  table : κ → Option ℕ
  owner : ℕ → Option κ
  loose : List ℕ

namespace Names

variable {κ : Type u}

def empty : Names κ := ⟨fun _ => none, fun _ => none, []⟩

def Unused (n : Names κ) (id : ℕ) : Prop :=
  (∀ k, n.table k ≠ some id) ∧ n.owner id = none ∧ id ∉ n.loose

def giveLoose (n : Names κ) (id : ℕ) : Names κ := { n with loose := n.loose ++ [id] }

/-- No number is taken back. -/
structure Extends (n n' : Names κ) : Prop where
  table : ∀ k id, n.table k = some id → n'.table k = some id
  owner : ∀ id k, n.owner id = some k → n'.owner id = some k
  loose : n.loose ⊆ n'.loose

theorem Extends.refl (n : Names κ) : Extends n n :=
  ⟨fun _ _ h => h, fun _ _ h => h, List.Subset.refl _⟩

theorem Extends.trans {n n' n'' : Names κ} (h : Extends n n') (h' : Extends n' n'') :
    Extends n n'' :=
  ⟨fun k id hk => h'.table k id (h.table k id hk), fun id k hk => h'.owner id k (h.owner id k hk),
    fun _ hid => h'.loose (h.loose hid)⟩

theorem extends_giveLoose (n : Names κ) (id : ℕ) : Extends n (n.giveLoose id) :=
  ⟨fun _ _ h => h, fun _ _ h => h, fun _ h => List.mem_append_left _ h⟩

variable [DecidableEq κ]

def fold (n : Names κ) (k : κ) (id : ℕ) : Names κ :=
  { n with table := Function.update n.table k (some id) }

def give (n : Names κ) (k : κ) (id : ℕ) : Names κ :=
  { n.fold k id with owner := Function.update n.owner id (some k) }

@[simp] theorem fold_table_self (n : Names κ) (k : κ) (id : ℕ) :
    (n.fold k id).table k = some id := by
  simp [fold]

@[simp] theorem give_table_self (n : Names κ) (k : κ) (id : ℕ) :
    (n.give k id).table k = some id := by
  simp [give]

theorem fold_table_ne (n : Names κ) {k k' : κ} (h : k' ≠ k) (id : ℕ) :
    (n.fold k id).table k' = n.table k' := by
  simp [fold, Function.update_of_ne h]

theorem give_table_ne (n : Names κ) {k k' : κ} (h : k' ≠ k) (id : ℕ) :
    (n.give k id).table k' = n.table k' := fold_table_ne n h id

theorem fold_table_cases {n : Names κ} {k k' : κ} {id id' : ℕ}
    (h : (n.fold k id).table k' = some id') : k' = k ∧ id' = id ∨ n.table k' = some id' := by
  by_cases hk : k' = k
  · subst hk
    rw [fold_table_self] at h
    exact .inl ⟨rfl, (Option.some_inj.mp h).symm⟩
  · rw [fold_table_ne n hk] at h
    exact .inr h

theorem give_table_cases {n : Names κ} {k k' : κ} {id id' : ℕ}
    (h : (n.give k id).table k' = some id') : k' = k ∧ id' = id ∨ n.table k' = some id' :=
  fold_table_cases h

theorem extends_fold {n : Names κ} {k : κ} (h : n.table k = none) (id : ℕ) :
    Extends n (n.fold k id) := by
  refine ⟨fun k' id' hk' => ?_, fun _ _ h => h, List.Subset.refl _⟩
  have hne : k' ≠ k := by
    rintro rfl
    simp [h] at hk'
  rwa [fold_table_ne n hne]

theorem extends_give {n : Names κ} {k : κ} {id : ℕ} (h : n.table k = none) (hid : n.Unused id) :
    Extends n (n.give k id) := by
  refine ⟨(extends_fold h id).table, fun id' k' hk' => ?_, List.Subset.refl _⟩
  have hne : id' ≠ id := by
    rintro rfl
    simp [hid.2.1] at hk'
  simpa [give, Function.update_of_ne hne] using hk'

end Names

variable {κ : Type u}

/-- Keys share a number only if they may. -/
structure Naming (F : κ → Prop) (n : Names κ) : Prop where
  owned : ∀ k id, n.table k = some id → ∃ k₀, n.owner id = some k₀
  mine : ∀ id k, n.owner id = some k → n.table k = some id
  own : ∀ k id, ¬ F k → n.table k = some id → n.owner id = some k
  loose_unowned : ∀ id ∈ n.loose, n.owner id = none
  loose_nodup : n.loose.Nodup

namespace Naming

variable {F : κ → Prop} {n : Names κ}

theorem empty : Naming F (Names.empty : Names κ) := by
  constructor <;> simp [Names.empty]

theorem eq_of_table_eq (h : Naming F n) {k k' : κ} {id : ℕ} (hF : ¬ F k) (hF' : ¬ F k')
    (hk : n.table k = some id) (hk' : n.table k' = some id) : k = k' := by
  have h₁ := h.own k id hF hk
  have h₂ := h.own k' id hF' hk'
  rw [h₁] at h₂
  exact Option.some_inj.mp h₂

theorem giveLoose (h : Naming F n) {id : ℕ} (hid : n.Unused id) : Naming F (n.giveLoose id) where
  owned := h.owned
  mine := h.mine
  own := h.own
  loose_unowned id' hid' := by
    rcases List.mem_append.mp hid' with hid' | hid'
    · exact h.loose_unowned id' hid'
    · rw [List.mem_singleton.mp hid']
      exact hid.2.1
  loose_nodup := by
    refine List.nodup_append.mpr ⟨h.loose_nodup, List.nodup_singleton _, ?_⟩
    rintro a ha b hb rfl
    exact hid.2.2 (List.mem_singleton.mp hb ▸ ha)

variable [DecidableEq κ]

theorem fold (h : Naming F n) {k k₀ : κ} {id : ℕ} (hF : F k) (hk : n.table k = none)
    (hid : n.owner id = some k₀) : Naming F (n.fold k id) where
  owned k' id' hk' := by
    by_cases hkk : k' = k
    · subst hkk
      rw [Names.fold_table_self] at hk'
      cases hk'
      exact ⟨k₀, hid⟩
    · rw [Names.fold_table_ne n hkk] at hk'
      exact h.owned k' id' hk'
  mine id' k' hk' := (Names.extends_fold hk id).table k' id' (h.mine id' k' hk')
  own k' id' hF' hk' := by
    have hkk : k' ≠ k := fun hkk => hF' (hkk ▸ hF)
    rw [Names.fold_table_ne n hkk] at hk'
    exact h.own k' id' hF' hk'
  loose_unowned := h.loose_unowned
  loose_nodup := h.loose_nodup

theorem give (h : Naming F n) {k : κ} {id : ℕ} (hk : n.table k = none) (hid : n.Unused id) :
    Naming F (n.give k id) := by
  have howner : ∀ id', id' ≠ id → (n.give k id).owner id' = n.owner id' := by
    intro id' hne
    simp [Names.give, Function.update_of_ne hne]
  have hself : (n.give k id).owner id = some k := by simp [Names.give]
  -- a number in the old table is not the new one
  have hold : ∀ k' id', k' ≠ k → (n.give k id).table k' = some id' →
      n.table k' = some id' ∧ id' ≠ id := by
    intro k' id' hne hk'
    rw [Names.give_table_ne n hne] at hk'
    refine ⟨hk', ?_⟩
    rintro rfl
    exact hid.1 k' hk'
  constructor
  · intro k' id' hk'
    by_cases hkk : k' = k
    · subst hkk
      rw [Names.give_table_self] at hk'
      cases hk'
      exact ⟨k', hself⟩
    · obtain ⟨hk', hne⟩ := hold k' id' hkk hk'
      rw [howner id' hne]
      exact h.owned k' id' hk'
  · intro id' k' hk'
    by_cases hne : id' = id
    · subst hne
      rw [hself] at hk'
      cases hk'
      exact Names.give_table_self n k id'
    · rw [howner id' hne] at hk'
      exact (Names.extends_give hk hid).table k' id' (h.mine id' k' hk')
  · intro k' id' hF hk'
    by_cases hkk : k' = k
    · subst hkk
      rw [Names.give_table_self] at hk'
      cases hk'
      exact hself
    · obtain ⟨hk', hne⟩ := hold k' id' hkk hk'
      rw [howner id' hne]
      exact h.own k' id' hF hk'
  · intro id' hid'
    have hne : id' ≠ id := by
      rintro rfl
      exact hid.2.2 hid'
    rw [howner id' hne]
    exact h.loose_unowned id' hid'
  · exact h.loose_nodup

end Naming

section

variable {σ : Type u} {α β : Type u} (names : σ → Names κ) (I : σ → Prop)

/-- A computation keeps an invariant and adds to the table, and if `P` holds of every table from now
on, then `Q` holds of the result and every table from then on. -/
def Settles (P : Names κ → Prop) (x : StateM σ α) (Q : Names κ → α → Prop) : Prop :=
  ∀ s, I s → (∀ n, (names s).Extends n → P n) →
    I (x.run s).2 ∧ (names s).Extends (names (x.run s).2) ∧
      ∀ n, (names (x.run s).2).Extends n → Q n (x.run s).1

variable {names I} {x : StateM σ α} {P P' : Names κ → Prop} {Q Q' : Names κ → α → Prop}

theorem settles_pure {a : α} (h : ∀ n, P n → Q n a) :
    Settles names I P (pure a : StateM σ α) Q :=
  fun _ hs hP => ⟨hs, .refl _, fun n hn => h n (hP n hn)⟩

theorem Settles.mono (h : Settles names I P x Q) (hP : ∀ n, P' n → P n)
    (hQ : ∀ n a, P' n → Q n a → Q' n a) : Settles names I P' x Q' := by
  intro s hs hP'
  obtain ⟨h₁, h₂, h₃⟩ := h s hs fun n hn => hP n (hP' n hn)
  exact ⟨h₁, h₂, fun n hn => hQ n _ (hP' n (h₂.trans hn)) (h₃ n hn)⟩

theorem Settles.bind {k : α → StateM σ β} {R : Names κ → β → Prop} (h : Settles names I P x Q)
    (hk : ∀ a, Settles names I (fun n => P n ∧ Q n a) (k a) R) :
    Settles names I P (x >>= k) R := by
  intro s hs hP
  obtain ⟨h₁, h₂, h₃⟩ := h s hs hP
  obtain ⟨h₄, h₅, h₆⟩ := hk (x.run s).1 (x.run s).2 h₁
    fun n hn => ⟨hP n (h₂.trans hn), h₃ n hn⟩
  exact ⟨h₄, h₂.trans h₅, h₆⟩

theorem Settles.foldlM {f : β → α → StateM σ β} {l : List α} {J : List α → Names κ → β → Prop}
    {b : β} (h0 : ∀ n, P n → J [] n b)
    (hstep : ∀ done a rest b, l = done ++ a :: rest →
      Settles names I (fun n => P n ∧ J done n b) (f b a) (J (done ++ [a]))) :
    Settles names I P (l.foldlM f b) (J l) := by
  have key : ∀ (rest done : List α) (b : β), l = done ++ rest →
      Settles names I (fun n => P n ∧ J done n b) (rest.foldlM f b) (J l) := by
    intro rest
    induction rest with
    | nil =>
      intro done b hl
      rw [List.append_nil] at hl
      exact settles_pure fun n hn => hl ▸ hn.2
    | cons a rest ih =>
      intro done b hl
      rw [List.foldlM_cons]
      refine (hstep done a rest b hl).bind fun b' => ?_
      refine (ih (done ++ [a]) b' (by simp [hl])).mono ?_ fun n c _ hc => hc
      exact fun n hn => ⟨hn.1.1, hn.2⟩
  exact (key l [] b rfl).mono (fun n hn => ⟨hn, h0 n hn⟩) fun n c _ hc => hc

theorem Settles.forM {f : α → StateM σ PUnit} {l : List α} {J : List α → Names κ → Prop}
    (h0 : ∀ n, P n → J [] n)
    (hstep : ∀ done a rest, l = done ++ a :: rest →
      Settles names I (fun n => P n ∧ J done n) (f a) fun n _ => J (done ++ [a]) n) :
    Settles names I P (l.forM f) fun n _ => J l n := by
  have key : ∀ rest done : List α, l = done ++ rest →
      Settles names I (fun n => P n ∧ J done n) (rest.forM f) fun n _ => J l n := by
    intro rest
    induction rest with
    | nil =>
      intro done hl
      rw [List.append_nil] at hl
      exact settles_pure fun n hn => hl ▸ hn.2
    | cons a rest ih =>
      intro done hl
      refine (hstep done a rest hl).bind fun _ => ?_
      refine (ih (done ++ [a]) (by simp [hl])).mono ?_ fun n c _ hc => hc
      exact fun n hn => ⟨hn.1.1, hn.2⟩
  exact (key l [] rfl).mono (fun n hn => ⟨hn, h0 n hn⟩) fun n c _ hc => hc

theorem Settles.mapM {f : α → StateM σ β} {l : List α} {R : Names κ → α → β → Prop}
    (h : ∀ a ∈ l, Settles names I P (f a) fun n => R n a) :
    Settles names I P (l.mapM f) fun n bs => List.Forall₂ (R n) l bs := by
  induction l with
  | nil => exact settles_pure fun n _ => .nil
  | cons a l ih =>
    obtain ⟨ha, hl⟩ := List.forall_mem_cons.1 h
    rw [List.mapM_cons]
    refine ha.bind fun b => ?_
    refine Settles.bind ((ih hl).mono (fun n hn => hn.1) fun n bs _ hbs => hbs) fun bs => ?_
    exact settles_pure fun n hn => .cons hn.1.2 hn.2

end

end DssPrime
