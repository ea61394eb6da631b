import Mathlib

/-!
# Two scales on one text

A text cut into pieces, each measured on a near and on a far scale.  `up` carries an offset of the
near scale to the far one and counts a piece it falls into whole; `down` goes back and drops such a
piece.
-/

namespace DssPrime

namespace Ruler

/-- A piece of the text, of positive size on both scales. -/
structure Piece where
  near : ℕ
  far : ℕ
  near_pos : 0 < near
  far_pos : 0 < far

def nearSum (ps : List Piece) : ℕ := (ps.map (·.near)).sum

def farSum (ps : List Piece) : ℕ := (ps.map (·.far)).sum

def up : List Piece → ℕ → ℕ
  | [], _ => 0
  | p :: ps, n => if n = 0 then 0 else p.far + up ps (n - p.near)

def down : List Piece → ℕ → ℕ
  | [], _ => 0
  | p :: ps, k => if k < p.far then 0 else p.near + down ps (k - p.far)

attribute [local simp] up down

@[simp] theorem nearSum_nil : nearSum [] = 0 := rfl

@[simp] theorem nearSum_cons (p : Piece) (ps : List Piece) :
    nearSum (p :: ps) = p.near + nearSum ps := by simp [nearSum]

@[simp] theorem farSum_nil : farSum [] = 0 := rfl

@[simp] theorem farSum_cons (p : Piece) (ps : List Piece) :
    farSum (p :: ps) = p.far + farSum ps := by simp [farSum]

@[simp] theorem up_zero (ps : List Piece) : up ps 0 = 0 := by
  cases ps <;> simp

@[simp] theorem down_zero (ps : List Piece) : down ps 0 = 0 := by
  cases ps with
  | nil => rfl
  | cons p ps => simp [p.far_pos]

theorem up_le (ps : List Piece) : ∀ n, up ps n ≤ farSum ps := by
  induction ps with
  | nil => simp
  | cons p ps ih =>
    intro n
    have := ih (n - p.near)
    rw [up, farSum_cons]
    split_ifs <;> omega

theorem down_le (ps : List Piece) : ∀ k, down ps k ≤ nearSum ps := by
  induction ps with
  | nil => simp
  | cons p ps ih =>
    intro k
    have := ih (k - p.far)
    rw [down, nearSum_cons]
    split_ifs <;> omega

theorem up_mono (ps : List Piece) : ∀ {m n}, m ≤ n → up ps m ≤ up ps n := by
  induction ps with
  | nil => simp
  | cons p ps ih =>
    intro m n hmn
    have := ih (show m - p.near ≤ n - p.near by omega)
    rw [up, up]
    split_ifs <;> omega

theorem down_mono (ps : List Piece) : ∀ {j k}, j ≤ k → down ps j ≤ down ps k := by
  induction ps with
  | nil => simp
  | cons p ps ih =>
    intro j k hjk
    have := ih (show j - p.far ≤ k - p.far by omega)
    rw [down, down]
    split_ifs <;> omega

theorem down_all (ps : List Piece) : ∀ {k}, farSum ps ≤ k → down ps k = nearSum ps := by
  induction ps with
  | nil => simp
  | cons p ps ih =>
    intro k hk
    rw [farSum_cons] at hk
    rw [down, if_neg (by omega), nearSum_cons, ih (show farSum ps ≤ k - p.far by omega)]

theorem up_append (pre post : List Piece) : up (pre ++ post) (nearSum pre) = farSum pre := by
  induction pre with
  | nil => simp
  | cons p pre ih =>
    have := p.near_pos
    rw [List.cons_append, up, nearSum_cons, farSum_cons, if_neg (by omega),
      Nat.add_sub_cancel_left, ih]

theorem down_append (pre post : List Piece) (k : ℕ) :
    down (pre ++ post) (farSum pre + k) = nearSum pre + down post k := by
  induction pre with
  | nil => simp
  | cons p pre ih =>
    rw [List.cons_append, down, farSum_cons, nearSum_cons, if_neg (by omega),
      show p.far + farSum pre + k - p.far = farSum pre + k by omega, ih, Nat.add_assoc]

theorem down_up (pre post : List Piece) :
    down (pre ++ post) (up (pre ++ post) (nearSum pre)) = nearSum pre := by
  simpa [up_append] using down_append pre post 0

end Ruler

end DssPrime
