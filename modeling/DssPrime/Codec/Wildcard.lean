import Mathlib

/-!
# Matching with one resume point

A pattern of stars and of tokens that each take one symbol.  `Matches` says what it means; `greedy`
scans once and, where it is stuck, lets the last star take one symbol more.  Forgetting the earlier
stars loses nothing: what a match after an earlier star leaves for the last star is a later part of
the text, and the last star can skip up to it (`Follows`).
-/

namespace DssPrime

namespace Wildcard

/-- One element of a pattern. -/
inductive Elem (τ : Type) where
  | star
  | one (t : τ)

variable {τ α : Type} (ok : τ → α → Bool)

/-- What a pattern matches. -/
inductive Matches : List (Elem τ) → List α → Prop
  | nil : Matches [] []
  | one {t p a s} : ok t a = true → Matches p s → Matches (.one t :: p) (a :: s)
  | star {p s} (run : List α) : Matches p s → Matches (.star :: p) (run ++ s)

def Elem.isStar : Elem τ → Bool
  | .star => true
  | .one _ => false

/-- How much text is still ahead of the scan or of the last star. -/
def ahead (s : List α) (resume : Option (List (Elem τ) × List α)) : ℕ :=
  max s.length ((resume.map (·.2.length)).getD 0)

def greedy (p : List (Elem τ)) (s : List α) (resume : Option (List (Elem τ) × List α)) : Bool :=
  match s, p with
  | [], p => p.all Elem.isStar
  | a :: s, .star :: p => greedy p (a :: s) (some (p, a :: s))
  | a :: s, .one t :: p =>
    if ok t a then greedy p s resume
    else
      match resume with
      | some (q, _ :: r) => greedy q r (some (q, r))
      | _ => false
  | _ :: _, [] =>
    match resume with
    | some (q, _ :: r) => greedy q r (some (q, r))
    | _ => false
termination_by (ahead s resume, p.length)
decreasing_by
  all_goals simp only [ahead, Prod.lex_def, Option.map_some, Option.getD_some, List.length_cons]
  all_goals omega

variable {ok}

theorem greedy_nil (p : List (Elem τ)) (resume : Option (List (Elem τ) × List α)) :
    greedy ok p [] resume = p.all Elem.isStar := by
  rw [greedy]

theorem greedy_star (p : List (Elem τ)) (a : α) (s : List α)
    (resume : Option (List (Elem τ) × List α)) :
    greedy ok (.star :: p) (a :: s) resume = greedy ok p (a :: s) (some (p, a :: s)) := by
  rw [greedy.eq_def]

theorem greedy_one {t : τ} {a : α} (h : ok t a = true) (p : List (Elem τ)) (s : List α)
    (resume : Option (List (Elem τ) × List α)) :
    greedy ok (.one t :: p) (a :: s) resume = greedy ok p s resume := by
  rw [greedy.eq_def]
  exact if_pos h

def Stuck (ok : τ → α → Bool) (p : List (Elem τ)) (a : α) : Prop :=
  p = [] ∨ ∃ t p', p = .one t :: p' ∧ ¬ ok t a = true

theorem greedy_retry {p : List (Elem τ)} {a : α} (h : Stuck ok p a) (s : List α)
    (q : List (Elem τ)) (b : α) (r : List α) :
    greedy ok p (a :: s) (some (q, b :: r)) = greedy ok q r (some (q, r)) := by
  rcases h with rfl | ⟨t, p, rfl, hno⟩
  · rw [greedy.eq_def]
  · rw [greedy.eq_def]
    exact if_neg hno

/-- A resume point with text to take stays one when its pattern is read as elements. -/
theorem map_resume_ne {P : Type} {f : P → List (Elem τ)} {resume : Option (P × List α)}
    (h : ∀ q b r, resume = some (q, b :: r) → False) (q : List (Elem τ)) (b : α) (r : List α) :
    resume.map (fun x => (f x.1, x.2)) ≠ some (q, b :: r) := by
  intro heq
  obtain ⟨x, rfl, hx⟩ := Option.map_eq_some_iff.1 heq
  exact h x.1 b r (by rw [← (Prod.mk.inj hx).2])

theorem greedy_stuck {p : List (Elem τ)} {a : α} (h : Stuck ok p a) (s : List α)
    {resume : Option (List (Elem τ) × List α)} (hnone : ∀ q b r, resume ≠ some (q, b :: r)) :
    greedy ok p (a :: s) resume = false := by
  rcases h with rfl | ⟨t, p, rfl, hno⟩
  · rw [greedy.eq_def]
    cases resume with
    | none => rfl
    | some x => obtain ⟨q, _ | ⟨b, r⟩⟩ := x <;> [rfl; exact absurd rfl (hnone q b r)]
  · rw [greedy.eq_def]
    refine (if_neg hno).trans ?_
    cases resume with
    | none => rfl
    | some x => obtain ⟨q, _ | ⟨b, r⟩⟩ := x <;> [rfl; exact absurd rfl (hnone q b r)]

/-- A star leaves some last part of the text to what follows it. -/
theorem matches_star_iff {p : List (Elem τ)} {s : List α} :
    Matches ok (.star :: p) s ↔ ∃ r, r <:+ s ∧ Matches ok p r := by
  constructor
  · intro h
    cases h with
    | star run hp => exact ⟨_, List.suffix_append run _, hp⟩
  · rintro ⟨r, ⟨run, rfl⟩, hp⟩
    exact .star run hp

theorem matches_nil_iff {p : List (Elem τ)} : Matches ok p [] ↔ p.all Elem.isStar = true := by
  induction p with
  | nil => simpa using Matches.nil
  | cons e p ih =>
    cases e with
    | star =>
      rw [List.all_cons, Elem.isStar, Bool.true_and, ← ih, matches_star_iff]
      simp
    | one t =>
      refine ⟨fun h => ?_, fun h => ?_⟩
      · cases h
      · simp [Elem.isStar] at h

theorem matches_one_iff {t : τ} {p : List (Elem τ)} {s : List α} :
    Matches ok (.one t :: p) s ↔ ∃ a r, s = a :: r ∧ ok t a = true ∧ Matches ok p r := by
  constructor
  · rintro (_ | ⟨hok, hp⟩)
    exact ⟨_, _, rfl, hok, hp⟩
  · rintro ⟨a, r, rfl, hok, hp⟩
    exact .one hok hp

/-- Wherever the pattern `q` of the resume point matches a last part of `r`, the rest `p` of it
matches a last part of `s`. -/
def Follows (ok : τ → α → Bool) (q : List (Elem τ)) (r : List α) (p : List (Elem τ))
    (s : List α) : Prop :=
  ∀ r', r' <:+ r → Matches ok q r' → ∃ s', s' <:+ s ∧ Matches ok p s'

theorem Follows.refl (q : List (Elem τ)) (r : List α) : Follows ok q r q r :=
  fun r' hr hq => ⟨r', hr, hq⟩

theorem Follows.step {q p : List (Elem τ)} {r s : List α} {t : τ} {a : α}
    (h : Follows ok q r (.one t :: p) (a :: s)) : Follows ok q r p s := by
  intro r' hr hq
  obtain ⟨s', hs, hp⟩ := h r' hr hq
  obtain ⟨b, s'', rfl, -, hp⟩ := matches_one_iff.1 hp
  rcases List.suffix_cons_iff.1 hs with heq | hs
  · exact ⟨s'', (List.cons.inj heq).2 ▸ List.suffix_rfl, hp⟩
  · exact ⟨s'', (List.suffix_cons b s'').trans hs, hp⟩

def Later (ok : τ → α → Bool) (resume : Option (List (Elem τ) × List α)) : Prop :=
  ∃ q b r r', resume = some (q, b :: r) ∧ r' <:+ r ∧ Matches ok q r'

theorem later_cons {q : List (Elem τ)} {b : α} {r : List α} :
    Later ok (some (q, b :: r)) ↔ ∃ r', r' <:+ r ∧ Matches ok q r' := by
  constructor
  · rintro ⟨_, _, _, r', ⟨⟩, hr, hq⟩
    exact ⟨r', hr, hq⟩
  · rintro ⟨r', hr, hq⟩
    exact ⟨q, b, r, r', rfl, hr, hq⟩

def Tracks (ok : τ → α → Bool) (resume : Option (List (Elem τ) × List α)) (p : List (Elem τ))
    (s : List α) : Prop :=
  ∀ q r, resume = some (q, r) → Follows ok q r p s

theorem tracks_self (q : List (Elem τ)) (r : List α) : Tracks ok (some (q, r)) q r := by
  rintro _ _ ⟨⟩
  exact Follows.refl q r

theorem Tracks.of_later {resume : Option (List (Elem τ) × List α)} {p : List (Elem τ)} {s : List α}
    (h : Tracks ok resume p s) (hlater : Later ok resume) : ∃ s', s' <:+ s ∧ Matches ok p s' := by
  obtain ⟨q, b, r, r', rfl, hr, hq⟩ := hlater
  exact h q (b :: r) rfl r' (hr.trans (List.suffix_cons b r)) hq

theorem exists_suffix_cons {P : List α → Prop} {a : α} {s : List α} :
    (∃ r, r <:+ a :: s ∧ P r) ↔ P (a :: s) ∨ ∃ r, r <:+ s ∧ P r := by
  simp only [List.suffix_cons_iff, or_and_right, exists_or, exists_eq_left]

/-- Resuming tries every last part of the text after the first symbol. -/
theorem matches_or_later_iff {q : List (Elem τ)} {b : α} {r : List α} :
    Matches ok q r ∨ Later ok (some (q, r)) ↔ Later ok (some (q, b :: r)) := by
  rw [later_cons]
  cases r with
  | nil => simp [Later]
  | cons c r => rw [later_cons, exists_suffix_cons]

theorem greedy_iff (p : List (Elem τ)) (s : List α) (resume : Option (List (Elem τ) × List α))
    (h : Tracks ok resume p s) :
    greedy ok p s resume = true ↔ Matches ok p s ∨ Later ok resume := by
  fun_induction greedy ok p s resume with
  | case1 resume p =>
    rw [← matches_nil_iff]
    refine ⟨.inl, fun hor => hor.elim id fun hlater => ?_⟩
    obtain ⟨s', hs, hp⟩ := h.of_later hlater
    exact List.suffix_nil.1 hs ▸ hp
  | case2 resume a s p ih =>
    have hlater : Later ok resume → ∃ r, r <:+ a :: s ∧ Matches ok p r := by
      intro hlater
      obtain ⟨s', hs, hp⟩ := h.of_later hlater
      obtain ⟨r, hr, hp⟩ := matches_star_iff.1 hp
      exact ⟨r, hr.trans hs, hp⟩
    rw [ih (tracks_self p (a :: s)), later_cons, ← exists_suffix_cons, matches_star_iff]
    exact (or_iff_left_of_imp hlater).symm
  | case3 resume a s t p hok ih =>
    rw [ih (fun q r hr => (h q r hr).step), matches_one_iff]
    simp [hok]
  | case4 a s t p hok q b r ih =>
    have hno : ¬ Matches ok (.one t :: p) (a :: s) := by
      rw [matches_one_iff]
      simp [hok]
    rw [ih (tracks_self q r), matches_or_later_iff (b := b)]
    simp [hno]
  | case5 resume a s t p hok hnone =>
    have hno : ¬ Matches ok (.one t :: p) (a :: s) := by
      rw [matches_one_iff]
      simp [hok]
    have hlater : ¬ Later ok resume := by
      rintro ⟨q, b, r, r', heq, -⟩
      exact hnone q b r heq
    simp [hno, hlater]
  | case6 a s q b r ih =>
    have hno : ¬ Matches ok [] (a :: s) := by rintro ⟨⟩
    rw [ih (tracks_self q r), matches_or_later_iff (b := b)]
    simp [hno]
  | case7 resume a s hnone =>
    have hno : ¬ Matches ok [] (a :: s) := by rintro ⟨⟩
    have hlater : ¬ Later ok resume := by
      rintro ⟨q, b, r, r', heq, -⟩
      exact hnone q b r heq
    simp [hno, hlater]

/-- One resume point is as good as a full search. -/
theorem greedy_none_iff (p : List (Elem τ)) (s : List α) :
    greedy ok p s none = true ↔ Matches ok p s := by
  rw [greedy_iff p s none (fun q r hr => by cases hr)]
  simp [Later]

end Wildcard

end DssPrime
