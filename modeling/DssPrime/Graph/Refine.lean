import Mathlib

/-!
# Partition refinement

Every node of a finite graph starts with a label of its own, and in every round it takes a new one
mixed from its own label and the labels of its successors. The loop stops at the first round that
adds no class.

* `refine_eq_iff` : two nodes end with one label exactly if they are bisimilar.

The mixture is any function; that it does not collide is asked of the labels that occur only, so
that a hash can be used.
-/

namespace DssPrime.Refine

variable {V K : Type*} [DecidableEq K]

def round (own : V → K) (succ : V → List V) (mix : K → List K → K) (h : V → K) (v : V) : K :=
  mix (own v) ((succ v).map h)

def classes (nodes : List V) (h : V → K) : ℕ := (nodes.map h).dedup.length

/-- Rounds until one adds no class, or the budget is spent; with the number of rounds. -/
def refineLoop (own : V → K) (succ : V → List V) (mix : K → List K → K) (nodes : List V) :
    ℕ → ℕ → (V → K) → ℕ → (V → K) × ℕ
  | 0, _, h, r => (h, r)
  | fuel + 1, distinct, h, r =>
    if classes nodes (round own succ mix h) = distinct then (round own succ mix h, r + 1)
    else
      refineLoop own succ mix nodes fuel (classes nodes (round own succ mix h))
        (round own succ mix h) (r + 1)

def refine (own : V → K) (succ : V → List V) (mix : K → List K → K) (nodes : List V) :
    (V → K) × ℕ :=
  refineLoop own succ mix nodes (nodes.length + 2) (classes nodes own) own 0

def label (own : V → K) (succ : V → List V) (mix : K → List K → K) : ℕ → V → K
  | 0 => own
  | k + 1 => round own succ mix (label own succ mix k)

/-- A relation whose related nodes have one label and related successors. -/
def IsBisimulation (own : V → K) (succ : V → List V) (R : V → V → Prop) : Prop :=
  ∀ v w, R v w → own v = own w ∧ List.Forall₂ R (succ v) (succ w)

def Bisimilar (own : V → K) (succ : V → List V) (v w : V) : Prop :=
  ∃ R, IsBisimulation own succ R ∧ R v w

/-- No two mixtures of a round that the loop may reach collide. -/
def CollisionFree (own : V → K) (succ : V → List V) (mix : K → List K → K) (nodes : List V) :
    Prop :=
  ∀ k ≤ nodes.length, ∀ v ∈ nodes, ∀ w ∈ nodes,
    label own succ mix (k + 1) v = label own succ mix (k + 1) w → own v = own w ∧
      (succ v).map (label own succ mix k) = (succ w).map (label own succ mix k)

def Closed (succ : V → List V) (nodes : List V) : Prop := ∀ v ∈ nodes, ∀ w ∈ succ v, w ∈ nodes

variable {own : V → K} {succ : V → List V} {mix : K → List K → K} {nodes : List V}

theorem map_eq_iff_forall₂ {A B : Type*} {f : A → B} {as as' : List A} :
    as.map f = as'.map f ↔ List.Forall₂ (fun a a' => f a = f a') as as' := by
  rw [← List.forall₂_eq_eq_eq, List.forall₂_map_left_iff, List.forall₂_map_right_iff]

theorem forall₂_imp_of_mem {A B : Type*} {R S : A → B → Prop} {as : List A} {bs : List B}
    (h : List.Forall₂ R as bs) (himp : ∀ a ∈ as, ∀ b ∈ bs, R a b → S a b) :
    List.Forall₂ S as bs := by
  induction h with
  | nil => exact .nil
  | cons hab _ ih =>
    refine .cons (himp _ List.mem_cons_self _ List.mem_cons_self hab) ?_
    exact ih fun a ha b hb => himp a (List.mem_cons_of_mem _ ha) b (List.mem_cons_of_mem _ hb)

omit [DecidableEq K] in
theorem Bisimilar.label_eq {v w : V} (h : Bisimilar own succ v w) (k : ℕ) :
    label own succ mix k v = label own succ mix k w := by
  obtain ⟨R, hR, hvw⟩ := h
  induction k generalizing v w with
  | zero => exact (hR v w hvw).1
  | succ k ih =>
    obtain ⟨hown, hsucc⟩ := hR v w hvw
    have hmap : (succ v).map (label own succ mix k) = (succ w).map (label own succ mix k) :=
      map_eq_iff_forall₂.mpr (hsucc.imp fun _ _ h => ih h)
    show mix (own v) _ = mix (own w) _
    rw [hown, hmap]

theorem classes_eq_card (h : V → K) : classes nodes h = (nodes.map h).toFinset.card := by
  rw [classes, List.card_toFinset]

theorem image_snd_pairs (k : ℕ) :
    ((nodes.map fun v =>
      (label own succ mix (k + 1) v, label own succ mix k v)).toFinset).image Prod.snd =
      (nodes.map (label own succ mix k)).toFinset := by
  ext x
  simp

section Rounds

variable (hfree : CollisionFree own succ mix nodes) (hclosed : Closed succ nodes)
include hfree hclosed

omit [DecidableEq K] in
theorem label_of_label_succ (k : ℕ) (hk : k ≤ nodes.length) {v w : V} (hv : v ∈ nodes)
    (hw : w ∈ nodes)
    (h : label own succ mix (k + 1) v = label own succ mix (k + 1) w) :
    label own succ mix k v = label own succ mix k w := by
  induction k generalizing v w with
  | zero => exact (hfree 0 hk v hv w hw h).1
  | succ k ih =>
    obtain ⟨hown, hmap⟩ := hfree (k + 1) hk v hv w hw h
    have hprev : (succ v).map (label own succ mix k) = (succ w).map (label own succ mix k) := by
      rw [map_eq_iff_forall₂] at hmap ⊢
      refine forall₂_imp_of_mem hmap fun x hx y hy h => ?_
      exact ih (by omega) (hclosed v hv x hx) (hclosed w hw y hy) h
    show mix (own v) _ = mix (own w) _
    rw [hown, hprev]

theorem card_pairs (k : ℕ) (hk : k ≤ nodes.length) :
    ((nodes.map fun v => (label own succ mix (k + 1) v, label own succ mix k v)).toFinset).card =
      classes nodes (label own succ mix (k + 1)) := by
  rw [classes_eq_card]
  have himage : (nodes.map (label own succ mix (k + 1))).toFinset =
      ((nodes.map fun v =>
        (label own succ mix (k + 1) v, label own succ mix k v)).toFinset).image Prod.fst := by
    ext x
    simp
  rw [himage, Finset.card_image_of_injOn]
  intro p hp q hq hpq
  simp only [List.coe_toFinset, List.mem_map, Set.mem_ofPred_eq] at hp hq
  obtain ⟨v, hv, rfl⟩ := hp
  obtain ⟨w, hw, rfl⟩ := hq
  exact Prod.ext hpq (label_of_label_succ hfree hclosed k hk hv hw hpq)

theorem classes_le_succ (k : ℕ) (hk : k ≤ nodes.length) :
    classes nodes (label own succ mix k) ≤ classes nodes (label own succ mix (k + 1)) := by
  rw [← card_pairs hfree hclosed k hk, classes_eq_card,
    ← image_snd_pairs k]
  exact Finset.card_image_le

theorem label_succ_of_label (k : ℕ) (hk : k ≤ nodes.length)
    (hsame : classes nodes (label own succ mix (k + 1)) = classes nodes (label own succ mix k))
    {v w : V} (hv : v ∈ nodes) (hw : w ∈ nodes)
    (h : label own succ mix k v = label own succ mix k w) :
    label own succ mix (k + 1) v = label own succ mix (k + 1) w := by
  have hinj : Set.InjOn Prod.snd (((nodes.map fun v =>
      (label own succ mix (k + 1) v, label own succ mix k v)).toFinset : Finset (K × K)) :
        Set (K × K)) := by
    rw [← Finset.card_image_iff, image_snd_pairs, card_pairs hfree hclosed k hk,
      ← classes_eq_card, hsame]
  have hmem : ∀ x ∈ nodes, (label own succ mix (k + 1) x, label own succ mix k x) ∈
      (((nodes.map fun v =>
        (label own succ mix (k + 1) v, label own succ mix k v)).toFinset : Finset (K × K)) :
          Set (K × K)) := by
    intro x hx
    rw [Finset.mem_coe, List.mem_toFinset]
    exact List.mem_map_of_mem hx
  exact congrArg Prod.fst (hinj (hmem v hv) (hmem w hw) h)

/-- The loop ends with a round that adds no class, before its budget is spent. -/
theorem refineLoop_spec (fuel k : ℕ)
    (hfuel : nodes.length < fuel + classes nodes (label own succ mix k))
    (hk : k ≤ classes nodes (label own succ mix k)) :
    ∃ m, refineLoop own succ mix nodes fuel (classes nodes (label own succ mix k))
        (label own succ mix k) k = (label own succ mix (m + 1), m + 1) ∧
      classes nodes (label own succ mix (m + 1)) = classes nodes (label own succ mix m) ∧
      m + classes nodes (label own succ mix k) ≤ k + nodes.length := by
  have hle : ∀ h : V → K, classes nodes h ≤ nodes.length := by
    intro h
    exact (List.dedup_sublist _).length_le.trans (List.length_map h).le
  induction fuel generalizing k with
  | zero => exact absurd hfuel (by have := hle (label own succ mix k); omega)
  | succ fuel ih =>
    have hstep : round own succ mix (label own succ mix k) = label own succ mix (k + 1) := rfl
    have hlen := hle (label own succ mix k)
    have hmono := classes_le_succ hfree hclosed k (by omega)
    rw [refineLoop, hstep]
    by_cases hd : classes nodes (label own succ mix (k + 1)) = classes nodes (label own succ mix k)
    · rw [if_pos hd]
      exact ⟨k, rfl, hd, by omega⟩
    · rw [if_neg hd]
      obtain ⟨m, hm, hsame, hbound⟩ := ih (k + 1) (by omega) (by omega)
      exact ⟨m, hm, hsame, by omega⟩

/-- The refinement ends with a round that adds no class, after at most one round more than there are
nodes: the budget is never spent. -/
theorem refine_spec : ∃ m, refine own succ mix nodes = (label own succ mix (m + 1), m + 1) ∧
    classes nodes (label own succ mix (m + 1)) = classes nodes (label own succ mix m) ∧
    m ≤ nodes.length := by
  obtain ⟨m, hm, hsame, hbound⟩ := refineLoop_spec hfree hclosed (nodes.length + 2) 0 (by omega)
    (Nat.zero_le _)
  exact ⟨m, hm, hsame, by omega⟩

theorem refine_eq_iff {v w : V} (hv : v ∈ nodes) (hw : w ∈ nodes) :
    (refine own succ mix nodes).1 v = (refine own succ mix nodes).1 w ↔
      Bisimilar own succ v w := by
  obtain ⟨m, hm, hsame, hbound⟩ := refine_spec hfree hclosed
  rw [hm]
  constructor
  · intro h
    refine ⟨fun v w => v ∈ nodes ∧ w ∈ nodes ∧
      label own succ mix (m + 1) v = label own succ mix (m + 1) w, ?_, hv, hw, h⟩
    rintro v w ⟨hv, hw, h⟩
    obtain ⟨hown, hmap⟩ := hfree m hbound v hv w hw h
    refine ⟨hown, ?_⟩
    rw [map_eq_iff_forall₂] at hmap
    -- one label before the last round is one label after it
    refine forall₂_imp_of_mem hmap fun x hx y hy h => ?_
    have hx' := hclosed v hv x hx
    have hy' := hclosed w hw y hy
    exact ⟨hx', hy', label_succ_of_label hfree hclosed m hbound hsame hx' hy' h⟩
  · intro h
    exact h.label_eq (m + 1)

end Rounds

end DssPrime.Refine
