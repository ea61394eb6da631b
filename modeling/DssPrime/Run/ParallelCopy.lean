import Mathlib

/-!
# Parallel copies through temporaries

A store is a function from places to values.  `seqCopy` copies between places one after the other.
To assign many places at once, every source is first copied to a temporary of its own and then every
temporary to its target: `copyThrough_target` and `copyThrough_other` say that this assigns all
targets from the store before, whatever cycles the copies form, and changes nothing else.
-/

namespace DssPrime

variable {A B : Type} [DecidableEq A]

def seqCopy (copies : List (A × A)) (f : A → B) : A → B :=
  copies.foldl (fun f p => Function.update f p.1 (f p.2)) f

@[simp]
theorem seqCopy_nil (f : A → B) : seqCopy [] f = f := rfl

@[simp]
theorem seqCopy_cons (p : A × A) (copies : List (A × A)) (f : A → B) :
    seqCopy (p :: copies) f = seqCopy copies (Function.update f p.1 (f p.2)) := rfl

theorem seqCopy_of_not_mem {copies : List (A × A)} {f : A → B} {a : A}
    (h : a ∉ copies.map Prod.fst) : seqCopy copies f a = f a := by
  induction copies generalizing f with
  | nil => rfl
  | cons p copies ih =>
    rw [List.map_cons, List.mem_cons, not_or] at h
    rw [seqCopy_cons, ih h.2, Function.update_of_ne h.1]

/-- Copies whose sources are no targets assign the targets from the store before. -/
theorem seqCopy_of_mem {copies : List (A × A)} {f : A → B} (hnodup : (copies.map Prod.fst).Nodup)
    (hsep : ∀ p ∈ copies, p.2 ∉ copies.map Prod.fst) {p : A × A} (hp : p ∈ copies) :
    seqCopy copies f p.1 = f p.2 := by
  induction copies generalizing f with
  | nil => cases hp
  | cons q copies ih =>
    rw [List.map_cons, List.nodup_cons] at hnodup
    have hsep' : ∀ p ∈ copies, p.2 ∉ copies.map Prod.fst := fun p hp hmem =>
      hsep p (List.mem_cons_of_mem _ hp) (List.mem_cons_of_mem _ hmem)
    rw [seqCopy_cons]
    rcases List.mem_cons.1 hp with rfl | hp
    · rw [seqCopy_of_not_mem hnodup.1, Function.update_self]
    · rw [ih hnodup.2 hsep' hp, Function.update_of_ne]
      intro heq
      exact hsep p (List.mem_cons_of_mem _ hp) (by rw [heq]; exact List.mem_cons_self)

/-- A copy through a temporary. -/
structure StagedCopy (A : Type) where
  target : A
  temp : A
  source : A

def copyThrough (copies : List (StagedCopy A)) (f : A → B) : A → B :=
  seqCopy (copies.map fun p => (p.target, p.temp))
    (seqCopy (copies.map fun p => (p.temp, p.source)) f)

/-- Nothing is overwritten before it is read. -/
structure StagedApart (copies : List (StagedCopy A)) : Prop where
  targets : (copies.map StagedCopy.target).Nodup
  temps : (copies.map StagedCopy.temp).Nodup
  sources : ∀ p ∈ copies, p.source ∉ copies.map StagedCopy.temp
  apart : ∀ p ∈ copies, p.temp ∉ copies.map StagedCopy.target

omit [DecidableEq A] in
theorem map_fst_target (copies : List (StagedCopy A)) :
    (copies.map fun p => (p.target, p.temp)).map Prod.fst = copies.map StagedCopy.target := by
  rw [List.map_map]
  rfl

omit [DecidableEq A] in
theorem map_fst_temp (copies : List (StagedCopy A)) :
    (copies.map fun p => (p.temp, p.source)).map Prod.fst = copies.map StagedCopy.temp := by
  rw [List.map_map]
  rfl

theorem copyThrough_target {copies : List (StagedCopy A)} (h : StagedApart copies) {f : A → B}
    {p : StagedCopy A} (hp : p ∈ copies) : copyThrough copies f p.target = f p.source := by
  unfold copyThrough
  have h1 : seqCopy (copies.map fun p => (p.temp, p.source)) f p.temp = f p.source := by
    refine @seqCopy_of_mem A B _ _ f ?_ ?_ (p.temp, p.source) (List.mem_map_of_mem hp)
    · rw [map_fst_temp]
      exact h.temps
    · intro q hq
      obtain ⟨q', hq', rfl⟩ := List.mem_map.1 hq
      rw [map_fst_temp]
      exact h.sources q' hq'
  rw [← h1]
  refine @seqCopy_of_mem A B _ _ _ ?_ ?_ (p.target, p.temp) (List.mem_map_of_mem hp)
  · rw [map_fst_target]
    exact h.targets
  · intro q hq
    obtain ⟨q', hq', rfl⟩ := List.mem_map.1 hq
    rw [map_fst_target]
    exact h.apart q' hq'

theorem copyThrough_other {copies : List (StagedCopy A)} {f : A → B} {a : A}
    (h1 : a ∉ copies.map StagedCopy.target) (h2 : a ∉ copies.map StagedCopy.temp) :
    copyThrough copies f a = f a := by
  unfold copyThrough
  rw [seqCopy_of_not_mem (by rw [map_fst_target]; exact h1),
    seqCopy_of_not_mem (by rw [map_fst_temp]; exact h2)]

end DssPrime
