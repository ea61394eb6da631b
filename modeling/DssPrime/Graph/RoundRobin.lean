import Mathlib

/-!
# Rounds until nothing changes

A round takes a state to the next one and says whether it changed anything; rounds follow one
another until one does not.

* `RoundRobin.run_isSome` : a bounded measure that every round with a change raises is fuel enough;
-/

namespace DssPrime.RoundRobin

variable {σ : Type*} {round : σ → σ × Bool}

/-- Rounds until one changes nothing; `none` is running out of fuel. -/
def run (round : σ → σ × Bool) : ℕ → σ → Option σ
  | 0, _ => none
  | fuel + 1, s => if (round s).2 then run round fuel (round s).1 else some (round s).1

variable {I : σ → Prop} (hI : ∀ s, I s → I (round s).1)

include hI

theorem run_spec {fuel : ℕ} {s r : σ} (hs : I s) (h : run round fuel s = some r) :
    ∃ t, I t ∧ (round t).2 = false ∧ (round t).1 = r := by
  induction fuel generalizing s with
  | zero => cases h
  | succ fuel ih =>
    rw [run] at h
    by_cases hc : (round s).2 = true
    · rw [if_pos hc] at h
      exact ih (hI s hs) h
    · rw [if_neg hc] at h
      exact ⟨s, hs, by simpa using hc, Option.some.inj h⟩

theorem run_isSome {μ : σ → ℕ} {bound : ℕ}
    (hμ : ∀ s, I s → (round s).2 = true → μ s < μ (round s).1) (hb : ∀ s, I s → μ s ≤ bound)
    {fuel : ℕ} {s : σ} (hs : I s) (hfuel : bound < fuel + μ s) :
    ∃ r, run round fuel s = some r := by
  induction fuel generalizing s with
  | zero =>
    have := hb s hs
    omega
  | succ fuel ih =>
    rw [run]
    by_cases hc : (round s).2 = true
    · rw [if_pos hc]
      have := hμ s hs hc
      exact ih (hI s hs) (by omega)
    · rw [if_neg hc]
      exact ⟨_, rfl⟩

end DssPrime.RoundRobin
