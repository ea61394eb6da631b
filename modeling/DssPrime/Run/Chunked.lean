import Mathlib

/-!
# Loops that work in chunks

A loop that goes on while there is more to do, one step at a time, may be cut into chunks of a fixed
number of steps: an outer loop starts a chunk while there is more to do, and an inner loop makes at
most `levels` steps of it.  `chunked_eq_upTo` says that the cut is invisible: if every step lowers a
measure, the chunks end, and they end where the same steps without the chunks end, whatever the
number of steps a chunk may take, as long as it takes one.

The budget of the outer loop is its fuel; running out of it is the error `out`, which
`chunked_ne_out` excludes.
-/

namespace DssPrime.Chunked

universe u v

variable {ε : Type v} {σ : Type u} (more : σ → Bool) (step : σ → Except ε σ)

def upTo : ℕ → σ → Except ε σ
  | 0, s => .ok s
  | n + 1, s => if more s then step s >>= upTo n else .ok s

def chunked (out : ε) (levels : ℕ) : ℕ → σ → ℕ → Except ε (σ × ℕ)
  | 0, s, batches => if more s then .error out else .ok (s, batches)
  | fuel + 1, s, batches =>
    if more s then upTo more step levels s >>= fun s' => chunked out levels fuel s' (batches + 1)
    else .ok (s, batches)

/-- Every step lowers the measure. -/
structure Lowers (μ : σ → ℕ) : Prop where
  pos : ∀ s, more s = true → 0 < μ s
  step : ∀ s s', more s = true → step s = .ok s' → μ s' < μ s

variable {more step}

theorem upTo_of_not_more {s : σ} (h : more s = false) (n : ℕ) :
    upTo more step n s = .ok s := by
  cases n with
  | zero => rfl
  | succ n => rw [upTo, if_neg (by simp [h])]

theorem upTo_succ_of_more {s : σ} (h : more s = true) (n : ℕ) :
    upTo more step (n + 1) s = step s >>= upTo more step n := by
  rw [upTo, if_pos h]

theorem upTo_add (m n : ℕ) (s : σ) :
    upTo more step (m + n) s = upTo more step m s >>= upTo more step n := by
  induction m generalizing s with
  | zero =>
    rw [Nat.zero_add]
    rfl
  | succ m ih =>
    cases hmore : more s with
    | false =>
      rw [upTo_of_not_more hmore, upTo_of_not_more hmore]
      exact (upTo_of_not_more hmore n).symm
    | true =>
      rw [Nat.succ_add, upTo_succ_of_more hmore, upTo_succ_of_more hmore]
      cases hstep : step s with
      | error e => rfl
      | ok s' => exact ih s'

section

variable {μ : σ → ℕ} (hμ : Lowers more step μ)

include hμ

theorem Lowers.not_more {s : σ} (h : μ s = 0) : more s = false := by
  by_contra hmore
  exact absurd (hμ.pos s (by simpa using hmore)) (by omega)

theorem Lowers.upTo_le {n : ℕ} {s s' : σ} (h : upTo more step n s = .ok s') :
    more s' = false ∨ μ s' + n ≤ μ s := by
  induction n generalizing s with
  | zero =>
    cases h
    exact .inr le_rfl
  | succ n ih =>
    cases hmore : more s with
    | false =>
      rw [upTo_of_not_more hmore] at h
      cases h
      exact .inl hmore
    | true =>
      rw [upTo_succ_of_more hmore] at h
      cases hstep : step s with
      | error e =>
        rw [hstep] at h
        cases h
      | ok s₁ =>
        rw [hstep] at h
        have hlt := hμ.step s s₁ hmore hstep
        rcases ih h with hs' | hs'
        · exact .inl hs'
        · exact .inr (by omega)

theorem Lowers.upTo_eq {n : ℕ} {s : σ} (h : μ s ≤ n) :
    upTo more step n s = upTo more step (μ s) s := by
  obtain ⟨k, rfl⟩ := Nat.exists_eq_add_of_le h
  rw [upTo_add]
  cases hs : upTo more step (μ s) s with
  | error e => rfl
  | ok s' =>
    -- after that many steps nothing is left to do
    have hmore : more s' = false := by
      rcases hμ.upTo_le hs with hs' | hs'
      · exact hs'
      · exact hμ.not_more (by omega)
    exact upTo_of_not_more hmore k

theorem chunked_eq_upTo (out : ε) {levels : ℕ} (hl : 0 < levels) {fuel : ℕ} {s : σ}
    (hf : μ s ≤ fuel) (batches : ℕ) :
    (chunked more step out levels fuel s batches).map Prod.fst = upTo more step (μ s) s := by
  induction fuel generalizing s batches with
  | zero =>
    have hmore := hμ.not_more (Nat.le_zero.mp hf)
    rw [chunked, if_neg (by simp [hmore]), upTo_of_not_more hmore]
    rfl
  | succ fuel ih =>
    cases hmore : more s with
    | false =>
      rw [chunked, if_neg (by simp [hmore]), upTo_of_not_more hmore]
      rfl
    | true =>
      rw [chunked, if_pos hmore]
      have hrest : upTo more step (μ s) s = upTo more step (levels + μ s) s :=
        (hμ.upTo_eq (Nat.le_add_left _ _)).symm
      rw [hrest, upTo_add]
      cases hs : upTo more step levels s with
      | error e => rfl
      | ok s' =>
        -- the chunk made a step, so the rest of the budget covers the rest of the measure
        have hs' : μ s' ≤ fuel ∧ μ s' ≤ μ s ∨ more s' = false := by
          rcases hμ.upTo_le hs with hs' | hs'
          · exact .inr hs'
          · exact .inl (by omega)
        show (chunked more step out levels fuel s' (batches + 1)).map Prod.fst =
          upTo more step (μ s) s'
        rcases hs' with ⟨hfuel, hle⟩ | hdone
        · rw [ih hfuel, hμ.upTo_eq hle]
        · rw [upTo_of_not_more hdone]
          cases fuel with
          | zero => rw [chunked, if_neg (by simp [hdone])]; rfl
          | succ fuel => rw [chunked, if_neg (by simp [hdone])]; rfl

theorem chunked_ne_out (out : ε) {levels : ℕ} (hl : 0 < levels) {fuel : ℕ} {s : σ}
    (hf : μ s ≤ fuel) (batches : ℕ) (hout : ∀ s, step s ≠ .error out) :
    chunked more step out levels fuel s batches ≠ .error out := by
  intro hrun
  have hup := chunked_eq_upTo hμ out hl hf batches
  rw [hrun] at hup
  have hnever : ∀ (n : ℕ) (s : σ), upTo more step n s ≠ .error out := by
    intro n
    induction n with
    | zero =>
      intro s h
      cases h
    | succ n ih =>
      intro s h
      cases hmore : more s with
      | false =>
        rw [upTo_of_not_more hmore] at h
        cases h
      | true =>
        rw [upTo_succ_of_more hmore] at h
        cases hstep : step s with
        | error e =>
          rw [hstep] at h
          exact hout s (hstep.trans h)
        | ok s' =>
          rw [hstep] at h
          exact ih s' h
  exact hnever _ _ hup.symm

end

end DssPrime.Chunked
