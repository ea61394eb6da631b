import Mathlib
import DssPrime.Run.Outcome

/-!
# Rules for two runs that may abort

`Agree R x y` compares two computations that may abort: both return, with results that `R` relates,
or both abort for the same reason.  The rules follow the shape of the computations, so that two runs
of one program on related states are compared step by step.
-/

namespace DssPrime

universe u v

variable {ε : Type v} {α β α' β' : Type u}

/-- Two computations that return related results or abort alike. -/
inductive Agree (R : α → β → Prop) : Except ε α → Except ε β → Prop where
  | ok {a : α} {b : β} (h : R a b) : Agree R (.ok a) (.ok b)
  | error (e : ε) : Agree R (.error e) (.error e)

variable {R : α → β → Prop} {S : α' → β' → Prop} {x : Except ε α} {y : Except ε β}

theorem agree_refl {z : Except ε α} : Agree Eq z z := by
  cases z with
  | ok a => exact .ok rfl
  | error e => exact .error e

theorem Agree.bind (h : Agree R x y) {k : α → Except ε α'} {l : β → Except ε β'}
    (hk : ∀ a b, R a b → Agree S (k a) (l b)) : Agree S (x >>= k) (y >>= l) := by
  cases h with
  | ok hab => exact hk _ _ hab
  | error e => exact .error e

theorem Agree.bind_same {z : Except ε α} {k : α → Except ε α'} {l : α → Except ε β'}
    (hk : ∀ a, Agree S (k a) (l a)) : Agree S (z >>= k) (z >>= l) := by
  refine agree_refl.bind ?_
  rintro a _ rfl
  exact hk a

/-- Two computations that become the same when part of the result is left out. -/
theorem agree_of_map_eq {γ : Type u} {f : α → γ} {g : β → γ} (h : x.map f = y.map g) :
    Agree (fun a b => f a = g b) x y := by
  cases x with
  | ok a =>
    cases y with
    | ok b =>
      have hab : f a = g b := by simpa [Except.map] using h
      exact .ok hab
    | error e => simp [Except.map] at h
  | error e =>
    cases y with
    | ok b => simp [Except.map] at h
    | error e' =>
      have hee : e = e' := by simpa [Except.map] using h
      rw [hee]
      exact .error e'

theorem Agree.map_eq {γ : Type u} {f : α → γ} {g : β → γ} (h : Agree R x y)
    (hR : ∀ a b, R a b → f a = g b) : x.map f = y.map g := by
  cases h with
  | ok hab => exact congrArg Except.ok (hR _ _ hab)
  | error e => rfl

end DssPrime
