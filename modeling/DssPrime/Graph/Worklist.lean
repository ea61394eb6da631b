import Mathlib

/-!
# Closing a set under successors with a stack

The walk behind every reachability question of the optimiser: pop an element, push those of
its successors that were not seen yet, mark them seen, and stop when the stack is empty.  The
step budget of the walk is its fuel, so running out of budget is a visible outcome (`none`).

`Worklist.mem_run_iff` says that what the walk collects is exactly what its roots reach, and
`Worklist.run_isSome` that a budget of one step per element of a closed finite universe is
always enough.
-/

namespace DssPrime.Worklist

variable {α : Type*} [DecidableEq α]

def pushNew : List α → List α → List α → List α × List α
  | [], work, seen => (work, seen)
  | s :: ss, work, seen =>
    if s ∈ seen then pushNew ss work seen else pushNew ss (s :: work) (s :: seen)

/-- Pop and push until the stack is empty (or the budget is spent, `none`). -/
def run (next : α → List α) : ℕ → List α → List α → Option (List α)
  | _, [], seen => some seen
  | 0, _ :: _, _ => none
  | fuel + 1, b :: work, seen =>
    run next fuel (pushNew (next b) work seen).1 (pushNew (next b) work seen).2

def Edge (next : α → List α) (a b : α) : Prop := b ∈ next a

def Reaches (next : α → List α) : α → α → Prop := Relation.ReflTransGen (Edge next)

attribute [local simp] pushNew run

variable {next : α → List α}

theorem mem_pushNew_seen {ss work seen : List α} {x : α} :
    x ∈ (pushNew ss work seen).2 ↔ x ∈ ss ∨ x ∈ seen := by
  induction ss generalizing work seen with
  | nil => simp
  | cons s ss ih =>
    simp only [pushNew]
    split_ifs with h
    · rw [ih, List.mem_cons]
      constructor
      · rintro (hx | hx)
        · exact .inl (.inr hx)
        · exact .inr hx
      · rintro ((rfl | hx) | hx)
        · exact .inr h
        · exact .inl hx
        · exact .inr hx
    · rw [ih, List.mem_cons, List.mem_cons]; tauto

theorem mem_pushNew_work {ss work seen : List α} {x : α} :
    x ∈ (pushNew ss work seen).1 ↔ x ∈ work ∨ x ∈ ss ∧ x ∉ seen := by
  induction ss generalizing work seen with
  | nil => simp
  | cons s ss ih =>
    simp only [pushNew]
    split_ifs with h
    · rw [ih, List.mem_cons]
      constructor
      · rintro (hx | ⟨hx, hn⟩)
        · exact .inl hx
        · exact .inr ⟨.inr hx, hn⟩
      · rintro (hx | ⟨rfl | hx, hn⟩)
        · exact .inl hx
        · exact absurd h hn
        · exact .inr ⟨hx, hn⟩
    · rw [ih, List.mem_cons, List.mem_cons, List.mem_cons]
      by_cases hxs : x = s
      · subst hxs; simp [h]
      · simp [hxs]

theorem nodup_pushNew {ss work seen : List α} (h : seen.Nodup) :
    (pushNew ss work seen).2.Nodup := by
  induction ss generalizing work seen with
  | nil => exact h
  | cons s ss ih =>
    simp only [pushNew]
    split_ifs with hs
    · exact ih h
    · exact ih (List.nodup_cons.2 ⟨hs, h⟩)

/-- A push grows the stack and the seen list by the same number of elements. -/
theorem length_pushNew (ss work seen : List α) :
    (pushNew ss work seen).1.length + seen.length =
      work.length + (pushNew ss work seen).2.length := by
  induction ss generalizing work seen with
  | nil => simp
  | cons s ss ih =>
    simp only [pushNew]
    split_ifs with h
    · exact ih work seen
    · have := ih (s :: work) (s :: seen)
      simp only [List.length_cons] at this
      omega

/-- Pushing onto a stack that is the seen list keeps the two equal. -/
theorem pushNew_same (ss l : List α) : (pushNew ss l l).1 = (pushNew ss l l).2 := by
  induction ss generalizing l with
  | nil => rfl
  | cons s ss ih =>
    simp only [pushNew]
    split_ifs with h
    · exact ih l
    · exact ih (s :: l)

/-- The seen list of a finished walk is closed under successors, contains what was seen before
and nothing that the seen elements do not reach. -/
theorem run_spec {fuel : ℕ} {work seen r : List α} (h : run next fuel work seen = some r)
    (hclosed : ∀ x ∈ seen, x ∉ work → ∀ y ∈ next x, y ∈ seen) :
    (∀ x ∈ seen, x ∈ r) ∧ (∀ x ∈ r, ∀ y ∈ next x, y ∈ r) ∧
      ((∀ x ∈ work, x ∈ seen) → ∀ y ∈ r, ∃ x ∈ seen, Reaches next x y) := by
  induction fuel generalizing work seen with
  | zero =>
    cases work with
    | nil =>
      obtain rfl : seen = r := by simpa using h
      exact ⟨fun _ hx => hx, fun x hx => hclosed x hx (by simp), fun _ y hy => ⟨y, hy, .refl⟩⟩
    | cons b work => simp at h
  | succ fuel ih =>
    cases work with
    | nil =>
      obtain rfl : seen = r := by simpa using h
      exact ⟨fun _ hx => hx, fun x hx => hclosed x hx (by simp), fun _ y hy => ⟨y, hy, .refl⟩⟩
    | cons b work =>
      rw [run] at h
      obtain ⟨h1, h2, h3⟩ := ih h (by
        intro x hx hxw y hy
        rw [mem_pushNew_work, not_or] at hxw
        rw [mem_pushNew_seen] at hx ⊢
        by_cases hxb : x = b
        · subst hxb; exact .inl hy
        · rcases hx with hx | hx
          · exact .inr (by_contra fun _ => hxw.2 ⟨hx, fun hs =>
              ‹y ∉ seen› (hclosed x hs (by simp [hxb, hxw.1]) y hy)⟩)
          · exact .inr (hclosed x hx (by simp [hxb, hxw.1]) y hy))
      refine ⟨fun x hx => h1 x (mem_pushNew_seen.2 (.inr hx)), h2, fun hw y hy => ?_⟩
      obtain ⟨x, hx, hxy⟩ := h3 (fun x hx => by
        rw [mem_pushNew_work] at hx
        rw [mem_pushNew_seen]
        rcases hx with hx | ⟨hx, -⟩
        · exact .inr (hw x (List.mem_cons_of_mem _ hx))
        · exact .inl hx) y hy
      rcases mem_pushNew_seen.1 hx with hx | hx
      · exact ⟨b, hw b List.mem_cons_self, .head hx hxy⟩
      · exact ⟨x, hx, hxy⟩

/-- **What a finished walk collects is what its roots reach.** -/
theorem mem_run_iff {fuel : ℕ} {roots r : List α} (h : run next fuel roots roots = some r)
    {y : α} : y ∈ r ↔ ∃ x ∈ roots, Reaches next x y := by
  obtain ⟨h1, h2, h3⟩ := run_spec h fun x hx hn => absurd hx hn
  refine ⟨h3 (fun _ hx => hx) y, ?_⟩
  rintro ⟨x, hx, hxy⟩
  induction hxy with
  | refl => exact h1 x hx
  | tail _ hbc ih => exact h2 _ ih _ hbc

/-- **A budget of one step per element of a closed finite universe is enough.** -/
theorem run_isSome {U : Finset α} (hU : ∀ x ∈ U, ∀ y ∈ next x, y ∈ U) {fuel : ℕ}
    {work seen : List α} (hseen : ∀ x ∈ seen, x ∈ U) (hwork : ∀ x ∈ work, x ∈ seen)
    (hn : seen.Nodup) (hf : work.length + U.card ≤ fuel + seen.length) :
    ∃ r, run next fuel work seen = some r := by
  induction fuel generalizing work seen with
  | zero =>
    cases work with
    | nil => exact ⟨seen, rfl⟩
    | cons b work =>
      have : seen.length ≤ U.card := by
        rw [← List.toFinset_card_of_nodup hn]
        exact Finset.card_le_card fun x hx => hseen x (List.mem_toFinset.1 hx)
      simp only [List.length_cons] at hf
      omega
  | succ fuel ih =>
    cases work with
    | nil => exact ⟨seen, rfl⟩
    | cons b work =>
      rw [run]
      have hb := hseen b (hwork b List.mem_cons_self)
      refine ih (fun x hx => ?_) (fun x hx => ?_) (nodup_pushNew hn) ?_
      · rcases mem_pushNew_seen.1 hx with hx | hx
        · exact hU b hb x hx
        · exact hseen x hx
      · rw [mem_pushNew_seen]
        rcases mem_pushNew_work.1 hx with hx | ⟨hx, -⟩
        · exact .inr (hwork x (List.mem_cons_of_mem _ hx))
        · exact .inl hx
      · have := length_pushNew (next b) work seen
        simp only [List.length_cons] at hf
        omega

end DssPrime.Worklist
