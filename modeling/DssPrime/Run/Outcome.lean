import Mathlib

/-!
# Rules for computations that may abort

`Holds E Q x` says what becomes of a computation `x` that may abort: if it returns, `Q` holds of the
result, and if it aborts, `E` holds of the reason.  With `E` false it says that the computation
returns; with `E` true it only speaks about the results; in between it names the aborts that are
possible.

The rules follow the shape of the computation: `Holds.bind` for a sequence, `Holds.foldlM` for a
loop with an invariant that may mention the elements done so far, `Holds.mapM` for a traversal.
-/

namespace DssPrime

universe u v

variable {ε : Type v} {α β : Type u}

def Holds (E : ε → Prop) (Q : α → Prop) : Except ε α → Prop
  | .ok a => Q a
  | .error e => E e

variable {E E' : ε → Prop} {Q Q' : α → Prop} {x : Except ε α}

theorem holds_ok {a : α} (h : Q a) : Holds E Q (.ok a : Except ε α) := h

theorem holds_error {e : ε} (h : E e) : Holds E Q (.error e : Except ε α) := h

theorem Holds.of_ok {a : α} (h : Holds E Q x) (hx : x = .ok a) : Q a := by
  subst hx
  exact h

theorem Holds.of_error {e : ε} (h : Holds E Q x) (hx : x = .error e) : E e := by
  subst hx
  exact h

/-- A computation that returns has returned from its first part. -/
theorem exists_of_bind_eq_ok {k : α → Except ε β} {r : β} (h : x >>= k = .ok r) :
    ∃ a, x = .ok a ∧ k a = .ok r := by
  cases x with
  | ok a => exact ⟨a, rfl, h⟩
  | error e => cases h

/-- A computation with no possible abort returns. -/
theorem Holds.exists_ok (h : Holds E Q x) (hE : ∀ e, ¬ E e) : ∃ a, x = .ok a ∧ Q a := by
  cases x with
  | ok a => exact ⟨a, rfl, h⟩
  | error e => exact absurd h (hE e)

theorem Holds.mono (h : Holds E Q x) (hE : ∀ e, E e → E' e) (hQ : ∀ a, Q a → Q' a) :
    Holds E' Q' x := by
  cases x with
  | ok a => exact hQ a h
  | error e => exact hE e h

theorem Holds.imp (h : Holds E Q x) (hQ : ∀ a, Q a → Q' a) : Holds E Q' x :=
  h.mono (fun _ he => he) hQ

theorem Holds.bind {k : α → Except ε β} {R : β → Prop} (h : Holds E Q x)
    (hk : ∀ a, Q a → Holds E R (k a)) : Holds E R (x >>= k) := by
  cases x with
  | ok a => exact hk a h
  | error e => exact h

/-- A loop: the invariant may mention the elements done and those still to come. -/
theorem Holds.foldlM {f : β → α → Except ε β} {l : List α} {I : List α → β → Prop} {b : β}
    (h0 : I [] b)
    (hstep : ∀ done a rest b, l = done ++ a :: rest → I done b →
      Holds E (I (done ++ [a])) (f b a)) : Holds E (I l) (l.foldlM f b) := by
  have key : ∀ (rest done : List α) (b : β), l = done ++ rest → I done b →
      Holds E (I l) (rest.foldlM f b) := by
    intro rest
    induction rest with
    | nil =>
      intro done b hl hb
      rw [List.append_nil] at hl
      exact holds_ok (hl ▸ hb)
    | cons a rest ih =>
      intro done b hl hb
      rw [List.foldlM_cons]
      refine (hstep done a rest b hl hb).bind fun b' hb' => ?_
      exact ih (done ++ [a]) b' (by simp [hl]) hb'
  exact key l [] b rfl h0

theorem Holds.mapM {f : α → Except ε β} {l : List α} {R : α → β → Prop}
    (h : ∀ a ∈ l, Holds E (R a) (f a)) : Holds E (List.Forall₂ R l) (l.mapM f) := by
  induction l with
  | nil => exact holds_ok .nil
  | cons a l ih =>
    obtain ⟨ha, hl⟩ := List.forall_mem_cons.1 h
    rw [List.mapM_cons]
    refine ha.bind fun b hb => (ih hl).bind fun bs hbs => ?_
    exact holds_ok (.cons hb hbs)

end DssPrime
