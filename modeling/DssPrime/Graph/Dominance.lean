import DssPrime.Graph.PostOrder

/-!
# Dominance

A node `d` dominates `v` when every path from the entry to `v` goes through `d`.  The definition
used here is the negation of "some path avoids `d`", which is an inductive predicate
(`Avoids`), so that facts about dominance are inductions over a path that does not exist.
-/

namespace DssPrime.Graph

variable {α : Type*}

/-- The node can be reached from the entry without going through `d`. -/
inductive Avoids (next : α → List α) (entry d : α) : α → Prop
  | entry : entry ≠ d → Avoids next entry d entry
  | step {u v : α} : Avoids next entry d u → v ∈ next u → v ≠ d → Avoids next entry d v

def Dom (next : α → List α) (entry d v : α) : Prop := ¬ Avoids next entry d v

variable {next : α → List α} {entry d v u : α}

theorem Avoids.ne (h : Avoids next entry d v) : v ≠ d := by
  cases h <;> assumption

theorem Avoids.reaches (h : Avoids next entry d v) : Worklist.Reaches next entry v := by
  induction h with
  | entry _ => exact .refl
  | step _ hv _ ih => exact .tail ih hv

theorem Dom.refl (v : α) : Dom next entry v v := fun h => h.ne rfl

theorem dom_entry (v : α) : Dom next entry entry v := by
  intro h
  induction h with
  | entry hne => exact hne rfl
  | step _ _ _ ih => exact ih

/-- A strict dominator dominates every predecessor. -/
theorem Dom.pred (h : Dom next entry d v) (hne : d ≠ v) (hv : v ∈ next u) : Dom next entry d u :=
  fun hu => h (.step hu hv (Ne.symm hne))

theorem Avoids.through {b : α} (h : Avoids next entry d v) :
    Avoids next entry b v ∨ Avoids next entry d b := by
  induction h with
  | entry hne =>
    by_cases hb : entry = b
    · exact .inr (hb ▸ .entry hne)
    · exact .inl (.entry hb)
  | @step u v hu hv hne ih =>
    rcases ih with ih | ih
    · by_cases hb : v = b
      · exact .inr (hb ▸ .step hu hv hne)
      · exact .inl (.step ih hv hb)
    · exact .inr ih

theorem Dom.trans {b : α} (h : Dom next entry d b) (h' : Dom next entry b v) :
    Dom next entry d v := by
  intro hv
  rcases hv.through (b := b) with hb | hd
  · exact h' hb
  · exact h hd

end DssPrime.Graph
