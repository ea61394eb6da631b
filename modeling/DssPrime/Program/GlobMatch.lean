import DssPrime.Codec.Wildcard

/-!
# Glob matching

`globMatch` splits a pattern and a path on `/` and matches them segment by segment, where a `**`
segment spans any number of segments; `segmentMatch` does the same inside one segment with `*`, `?`
and bracket classes.  Both scan with one resume point, so both are a `Wildcard.greedy`, at the
elements their pattern is made of.

A `char` of the source is a `Char`; `le` is the order of plain `char`, which the platform chooses.
-/

namespace DssPrime

namespace Glob

open Wildcard

variable (le : Char → Char → Bool)

def negationLen (t : List Char) : ℕ := if t[0]? = some '!' ∨ t[0]? = some '^' then 1 else 0

def classLen (pat : List Char) : ℕ :=
  let i := 1 + negationLen (pat.drop 1)
  -- a `]` right here is a literal member
  let i := if pat[i]? = some ']' then i + 1 else i
  let i := i + (pat.drop i).findIdx (· == ']')
  if pat.length ≤ i then 0 else i + 1

def memberLoop (c : Char) : List Char → Bool → Bool
  | x :: '-' :: y :: rest, matched => memberLoop c rest (matched || (le x c && le c y))
  | x :: rest, matched => memberLoop c rest (matched || x == c)
  | [], matched => matched

def classMatch (cls : List Char) (c : Char) : Bool :=
  let inner := (cls.drop 1).dropLast
  memberLoop le c (inner.drop (negationLen inner)) false != decide (negationLen inner = 1)

/-- How much of the pattern its front element, no star, takes up. -/
def elementLen (pat : List Char) (pc : Char) : ℕ :=
  if pc = '[' ∧ classLen pat ≠ 0 then classLen pat else 1

def elementMatch (pat : List Char) (pc c : Char) : Bool :=
  if pc = '?' then true
  else if pc = '[' then
    if classLen pat = 0 then c == '[' else classMatch le (pat.take (classLen pat)) c
  else pc == c

/-- The loop of `segmentMatch`; `resume` is the pattern after the last star and the text it was met
at. -/
def segmentLoop (pat s : List Char) (resume : Option (List Char × List Char)) : Bool :=
  match s, pat with
  | [], pat => (pat.dropWhile (· == '*')).isEmpty
  | c :: s, pc :: pat =>
    if pc = '*' then segmentLoop pat (c :: s) (some (pat, c :: s))
    else if elementMatch le (pc :: pat) pc c then
      segmentLoop (pat.drop (elementLen (pc :: pat) pc - 1)) s resume
    else
      match resume with
      | some (q, _ :: r) => segmentLoop q r (some (q, r))
      | _ => false
  | _ :: _, [] =>
    match resume with
    | some (q, _ :: r) => segmentLoop q r (some (q, r))
    | _ => false
termination_by (max s.length ((resume.map (·.2.length)).getD 0), pat.length)
decreasing_by
  all_goals simp only [Prod.lex_def, Option.map_some, Option.getD_some, List.length_cons,
    List.length_drop]
  all_goals omega

def segmentMatch (pat s : List Char) : Bool := segmentLoop le pat s none

def segmentsLoop (pat txt : List (List Char))
    (resume : Option (List (List Char) × List (List Char))) : Bool :=
  match txt, pat with
  | [], pat => (pat.dropWhile (· == ['*', '*'])).isEmpty
  | seg :: txt, p :: pat =>
    if p = ['*', '*'] then segmentsLoop pat (seg :: txt) (some (pat, seg :: txt))
    else if segmentMatch le p seg then segmentsLoop pat txt resume
    else
      match resume with
      | some (q, _ :: r) => segmentsLoop q r (some (q, r))
      | _ => false
  | _ :: _, [] =>
    match resume with
    | some (q, _ :: r) => segmentsLoop q r (some (q, r))
    | _ => false
termination_by (max txt.length ((resume.map (·.2.length)).getD 0), pat.length)
decreasing_by
  all_goals simp only [Prod.lex_def, Option.map_some, Option.getD_some, List.length_cons]
  all_goals omega

def splitSegments (s : List Char) : List (List Char) := s.splitOn '/'

def globMatch (pattern path : List Char) : Bool :=
  segmentsLoop le (splitSegments pattern) (splitSegments path) none

def members (inner : List Char) : List Char := inner.drop (negationLen inner)

def IsClass (inner : List Char) : Prop := ∃ first rest, members inner = first :: rest ∧ ']' ∉ rest

def OpensClass (pat inner p : List Char) : Prop := IsClass inner ∧ pat = '[' :: (inner ++ ']' :: p)

/-- A character is listed in a class. -/
inductive InMembers (c : Char) : List Char → Prop
  | range {x y rest} : le x c = true → le c y = true → InMembers c (x :: '-' :: y :: rest)
  | afterRange {x y rest} : InMembers c rest → InMembers c (x :: '-' :: y :: rest)
  | member {rest} : (∀ y r, rest ≠ '-' :: y :: r) → InMembers c (c :: rest)
  | afterMember {x rest} : (∀ y r, rest ≠ '-' :: y :: r) → InMembers c rest →
    InMembers c (x :: rest)

def InClass (inner : List Char) (c : Char) : Prop :=
  InMembers le c (members inner) ↔ negationLen inner = 0

/-- What a pattern without a slash matches. -/
inductive SegmentMatches : List Char → List Char → Prop
  | nil : SegmentMatches [] []
  | star {p s} (run : List Char) : SegmentMatches p s → SegmentMatches ('*' :: p) (run ++ s)
  | any {p c s} : SegmentMatches p s → SegmentMatches ('?' :: p) (c :: s)
  | cls {pat inner p c s} : OpensClass pat inner p → InClass le inner c → SegmentMatches p s →
      SegmentMatches pat (c :: s)
  | lit {c p s} : c ≠ '*' → c ≠ '?' → (∀ inner q, ¬ OpensClass (c :: p) inner q) →
      SegmentMatches p s → SegmentMatches (c :: p) (c :: s)

/-- What a pattern matches, segment by segment. -/
inductive PathMatches : List (List Char) → List (List Char) → Prop
  | nil : PathMatches [] []
  | span {p t} (run : List (List Char)) : PathMatches p t →
      PathMatches (['*', '*'] :: p) (run ++ t)
  | one {pat p seg t} : pat ≠ ['*', '*'] → SegmentMatches le pat seg → PathMatches p t →
      PathMatches (pat :: p) (seg :: t)

theorem negationLen_le (t : List Char) : negationLen t ≤ 1 := by
  unfold negationLen
  split_ifs <;> omega

theorem negationLen_append {t : List Char} (h : t ≠ []) (x : List Char) :
    negationLen (t ++ x) = negationLen t := by
  obtain ⟨c, t, rfl⟩ := List.exists_cons_of_ne_nil h
  simp [negationLen]

theorem members_append {inner : List Char} (h : inner ≠ []) (x : List Char) :
    members (inner ++ x) = members inner ++ x := by
  have hlen := List.length_pos_of_ne_nil h
  have hneg := negationLen_le inner
  rw [members, negationLen_append h, List.drop_append_of_le_length (by omega), members]

theorem findIdx_bracket {rest p : List Char} (h : ']' ∉ rest) :
    (rest ++ ']' :: p).findIdx (· == ']') = rest.length := by
  rw [List.findIdx_append, if_neg (by simpa [List.findIdx_lt_length] using h), List.findIdx_cons]
  simp

theorem classLen_eq {t : List Char} {first : Char} {rest : List Char}
    (h : members t = first :: rest) : classLen ('[' :: t) =
      if ']' ∈ rest then negationLen t + rest.findIdx (· == ']') + 3 else 0 := by
  have hdrop (k : ℕ) : ('[' :: t).drop (1 + negationLen t + k) = (members t).drop k := by
    rw [members, List.drop_drop, show 1 + negationLen t + k = negationLen t + k + 1 by omega,
      List.drop_succ_cons]
  have hget : ('[' :: t)[1 + negationLen t]? = some first := by
    have := congrArg (·[0]?) (hdrop 0)
    simpa [h] using this
  have hlen : ('[' :: t).length = negationLen t + rest.length + 2 := by
    have := congrArg List.length (hdrop 0)
    simp [h] at this
    simp
    omega
  -- the first member is stepped over: as a `]` by the test, else by the search itself
  have hscan : ∃ i, classLen ('[' :: t) =
      (if ('[' :: t).length ≤ i then 0 else i + 1) ∧
        i = negationLen t + 2 + rest.findIdx (· == ']') := by
    refine ⟨_, rfl, ?_⟩
    simp only [List.drop_succ_cons, List.drop_zero, hget, Option.some.injEq]
    by_cases hfirst : first = ']'
    · rw [if_pos hfirst, hdrop 1, h, List.drop_succ_cons, List.drop_zero]
      omega
    · rw [if_neg hfirst, ← Nat.add_zero (1 + negationLen t), hdrop 0, List.drop_zero, h,
        List.findIdx_cons, show (first == ']') = false by simpa using hfirst]
      simp
      omega
  obtain ⟨i, hclass, rfl⟩ := hscan
  have hfound : rest.findIdx (· == ']') < rest.length ↔ ']' ∈ rest := by
    simp [List.findIdx_lt_length]
  rw [hclass]
  by_cases hmem : ']' ∈ rest
  · have := hfound.2 hmem
    rw [if_pos hmem, if_neg (by omega)]
    omega
  · have := mt hfound.1 hmem
    rw [if_neg hmem, if_pos (by omega)]

theorem classLen_of_members_nil {t : List Char} (h : members t = []) : classLen ('[' :: t) = 0 := by
  have hneg := negationLen_le t
  have hlen : t.length ≤ negationLen t := by simpa [members] using h
  have hget : ('[' :: t)[1 + negationLen t]? = none := by simp; omega
  simp only [classLen, List.drop_succ_cons, List.drop_zero, hget, reduceCtorEq, if_false]
  rw [if_pos]
  simp
  omega

theorem classLen_of_opensClass {pat inner p : List Char} (h : OpensClass pat inner p) :
    classLen pat = inner.length + 2 := by
  obtain ⟨⟨first, rest, hmem, hrest⟩, rfl⟩ := h
  have hne : inner ≠ [] := by rintro rfl; simp [members] at hmem
  have hlen : inner.length = negationLen inner + rest.length + 1 := by
    have := congrArg List.length hmem
    have hpos := List.length_pos_of_ne_nil hne
    have hneg := negationLen_le inner
    simp [members] at this
    omega
  have htext : members (inner ++ ']' :: p) = first :: (rest ++ ']' :: p) := by
    rw [members_append hne, hmem, List.cons_append]
  rw [classLen_eq htext, if_pos (by simp), negationLen_append hne, findIdx_bracket hrest]
  omega

theorem opensClass_of_classLen {t : List Char} (h : classLen ('[' :: t) ≠ 0) :
    ∃ inner p, OpensClass ('[' :: t) inner p := by
  cases hmem : members t with
  | nil => exact absurd (classLen_of_members_nil hmem) h
  | cons first rest =>
    have hclosed : ']' ∈ rest := by
      by_contra hopen
      exact h (by rw [classLen_eq hmem, if_neg hopen])
    obtain ⟨front, p, rfl, hfront⟩ := List.eq_append_cons_of_mem hclosed
    have htext : t = t.take (negationLen t) ++ first :: front ++ ']' :: p := by
      conv_lhs => rw [← List.take_append_drop (negationLen t) t, ← members, hmem]
      simp
    have hneg := negationLen_append (t := t.take (negationLen t) ++ first :: front) (by simp)
      (']' :: p)
    rw [← htext] at hneg
    have hlen : (t.take (negationLen t)).length = negationLen t := by
      have := congrArg List.length hmem
      simp [members] at this
      simp
      omega
    refine ⟨t.take (negationLen t) ++ first :: front, p, ⟨first, front, ?_, hfront⟩, ?_⟩
    · rw [members, ← hneg, List.drop_left' hlen]
    · rw [← htext]

theorem OpensClass.parts {pat inner p : List Char} (h : OpensClass pat inner p) :
    pat.take (classLen pat) = '[' :: (inner ++ [']']) ∧ pat.drop (classLen pat) = p := by
  rw [classLen_of_opensClass h, h.2]
  simp [List.take_append, List.drop_append]

theorem memberLoop_iff (c : Char) (l : List Char) (matched : Bool) :
    memberLoop le c l matched = true ↔ matched = true ∨ InMembers le c l := by
  fun_induction memberLoop le c l matched with
  | case1 x y rest matched ih =>
    rw [ih]
    constructor
    · rintro (h | h)
      · rw [Bool.or_eq_true, Bool.and_eq_true] at h
        exact h.imp_right fun h => .range h.1 h.2
      · exact .inr (.afterRange h)
    · rintro (h | h)
      · exact .inl (by rw [h, Bool.true_or])
      · cases h with
        | range h1 h2 => exact .inl (by simp [h1, h2])
        | afterRange h => exact .inr h
        | member h => exact absurd rfl (h y rest)
        | afterMember h => exact absurd rfl (h y rest)
  | case2 x rest matched hno ih =>
    have hno' : ∀ y r, rest ≠ '-' :: y :: r := fun y r h => hno y r h
    rw [ih]
    constructor
    · rintro (h | h)
      · rw [Bool.or_eq_true, beq_iff_eq] at h
        rcases h with h | rfl
        · exact .inl h
        · exact .inr (.member hno')
      · exact .inr (.afterMember hno' h)
    · rintro (h | h)
      · exact .inl (by rw [h, Bool.true_or])
      · cases h with
        | range => exact absurd rfl (hno' _ _)
        | afterRange => exact absurd rfl (hno' _ _)
        | member => exact .inl (by simp)
        | afterMember _ h => exact .inr h
  | case3 matched =>
    refine ⟨.inl, fun h => h.elim id fun h => ?_⟩
    cases h

theorem classMatch_iff (inner : List Char) (c : Char) :
    classMatch le ('[' :: (inner ++ [']'])) c = true ↔ InClass le inner c := by
  have hneg := negationLen_le inner
  have hloop := memberLoop_iff le c (members inner) false
  simp only [Bool.false_eq_true, false_or] at hloop
  simp only [classMatch, List.drop_succ_cons, List.drop_zero, List.dropLast_concat]
  rw [InClass, ← hloop, members, bne_iff_ne]
  by_cases h0 : negationLen inner = 0
  · simp [h0]
  · simp [show negationLen inner = 1 by omega]

/-- The elements of a pattern segment; one that is no star is the test it makes. -/
def elements (pat : List Char) : List (Elem (Char → Bool)) :=
  match pat with
  | [] => []
  | pc :: pat =>
    if pc = '*' then .star :: elements pat
    else .one (elementMatch le (pc :: pat) pc) ::
      elements (pat.drop (elementLen (pc :: pat) pc - 1))
termination_by pat.length
decreasing_by all_goals simp

abbrev Takes (test : Char → Bool) (c : Char) : Bool := test c

theorem elements_star (p : List Char) : elements le ('*' :: p) = .star :: elements le p := by
  rw [elements, if_pos rfl]

theorem elements_one {pc : Char} (hstar : pc ≠ '*') (p : List Char) :
    elements le (pc :: p) =
      .one (elementMatch le (pc :: p) pc) ::
        elements le (p.drop (elementLen (pc :: p) pc - 1)) := by
  rw [elements, if_neg hstar]

theorem all_star_iff (pat : List Char) :
    (elements le pat).all Elem.isStar = (pat.dropWhile (· == '*')).isEmpty := by
  induction pat with
  | nil => rw [elements]; rfl
  | cons pc pat ih =>
    by_cases hstar : pc = '*'
    · subst hstar
      rw [elements_star, List.all_cons, ih]
      simp [Elem.isStar]
    · rw [elements_one le hstar]
      simp [Elem.isStar, hstar]

theorem segmentLoop_eq (pat s : List Char) (resume : Option (List Char × List Char)) :
    segmentLoop le pat s resume =
      greedy Takes (elements le pat) s (resume.map fun x => (elements le x.1, x.2)) := by
  fun_induction segmentLoop le pat s resume with
  | case1 resume pat => rw [greedy_nil, all_star_iff]
  | case2 resume c s pat ih => rw [ih, elements_star, greedy_star]; rfl
  | case3 resume c s pc pat hstar htakes ih =>
    have hok : Takes (elementMatch le (pc :: pat) pc) c = true := htakes
    rw [ih, elements_one le hstar, greedy_one hok]
  | case4 c s pc pat hstar htakes q b r ih =>
    have hok : ¬ Takes (elementMatch le (pc :: pat) pc) c = true := htakes
    rw [ih, elements_one le hstar, Option.map_some, Option.map_some,
      greedy_retry (.inr ⟨_, _, rfl, hok⟩)]
  | case5 resume c s pc pat hstar htakes hno =>
    have hok : ¬ Takes (elementMatch le (pc :: pat) pc) c = true := htakes
    rw [elements_one le hstar, greedy_stuck (.inr ⟨_, _, rfl, hok⟩) _ (map_resume_ne hno)]
  | case6 c s q b r ih =>
    rw [ih, elements, Option.map_some, Option.map_some, greedy_retry (.inl rfl)]
  | case7 resume c s hno =>
    rw [elements, greedy_stuck (.inl rfl) _ (map_resume_ne hno)]

theorem matches_of_segmentMatches {pat s : List Char} (h : SegmentMatches le pat s) :
    Matches Takes (elements le pat) s := by
  induction h with
  | nil => rw [elements]; exact .nil
  | star run _ ih => rw [elements_star]; exact .star run ih
  | any _ ih =>
    rw [elements_one le (by decide)]
    exact .one (by simp [Takes, elementMatch]) (by simpa [elementLen] using ih)
  | @cls pat inner p c s hopen hin _ ih =>
    obtain ⟨htake, hdrop⟩ := hopen.parts
    have hlen := classLen_of_opensClass hopen
    obtain ⟨t, rfl⟩ : ∃ t, pat = '[' :: t := ⟨_, hopen.2⟩
    rw [elements_one le (by decide)]
    have hne : classLen ('[' :: t) ≠ 0 := by omega
    refine .one ?_ ?_
    · simp only [Takes, elementMatch, htake, if_neg hne]
      simpa using (classMatch_iff le inner c).2 hin
    · rw [elementLen, if_pos ⟨rfl, hne⟩]
      rw [hlen, List.drop_succ_cons] at hdrop
      rwa [hlen, show inner.length + 2 - 1 = inner.length + 1 by omega, hdrop]
  | @lit c p s hstar hany hno _ ih =>
    have hlen : ¬ (c = '[' ∧ classLen (c :: p) ≠ 0) := by
      rintro ⟨rfl, hne⟩
      obtain ⟨inner, q, hopen⟩ := opensClass_of_classLen hne
      exact hno inner q hopen
    rw [elements_one le hstar]
    refine .one ?_ (by simpa [elementLen, hlen] using ih)
    simp only [Takes, elementMatch, if_neg hany]
    split_ifs with hbracket hzero
    · simpa using hbracket
    · exact absurd ⟨hbracket, hzero⟩ hlen
    · simp

theorem segmentMatches_of_matches {pat : List Char} : ∀ {s : List Char},
    Matches Takes (elements le pat) s → SegmentMatches le pat s := by
  induction pat using elements.induct with
  | case1 =>
    intro s h
    rw [elements] at h
    cases h
    exact .nil
  | case2 pat ih =>
    intro s h
    rw [elements_star] at h
    obtain ⟨r, ⟨run, rfl⟩, hp⟩ := matches_star_iff.1 h
    exact .star run (ih hp)
  | case3 pc pat hstar ih =>
    intro s h
    rw [elements_one le hstar] at h
    obtain ⟨c, s, rfl, hok, hp⟩ := matches_one_iff.1 h
    have hrest := ih hp
    simp only [Takes, elementMatch] at hok
    by_cases hany : pc = '?'
    · subst hany
      exact .any (by simpa [elementLen] using hrest)
    by_cases hlen : pc = '[' ∧ classLen (pc :: pat) ≠ 0
    · obtain ⟨rfl, hne⟩ := hlen
      obtain ⟨inner, p, hopen⟩ := opensClass_of_classLen hne
      obtain ⟨htake, hdrop⟩ := hopen.parts
      have hlen := classLen_of_opensClass hopen
      refine .cls hopen ((classMatch_iff le inner c).1 ?_) ?_
      · simpa [hne, htake] using hok
      · rw [elementLen, if_pos ⟨rfl, hne⟩] at hrest
        rw [hlen, List.drop_succ_cons] at hdrop
        rwa [hlen, show inner.length + 2 - 1 = inner.length + 1 by omega, hdrop] at hrest
    · have hc : pc = c := by
        by_cases hbracket : pc = '['
        · have hzero : classLen (pc :: pat) = 0 := by
            by_contra hne
            exact hlen ⟨hbracket, hne⟩
          subst hbracket
          rw [if_neg (by decide), if_pos rfl, if_pos hzero, beq_iff_eq] at hok
          exact hok.symm
        · simpa [hany, hbracket] using hok
      subst hc
      refine .lit hstar hany ?_ (by simpa [elementLen, hlen] using hrest)
      intro inner q hopen
      have := classLen_of_opensClass hopen
      exact hlen ⟨(List.cons.inj hopen.2).1, by omega⟩

theorem segmentMatch_iff (pat s : List Char) :
    segmentMatch le pat s = true ↔ SegmentMatches le pat s := by
  rw [segmentMatch, segmentLoop_eq, Option.map_none, greedy_none_iff]
  exact ⟨segmentMatches_of_matches le, matches_of_segmentMatches le⟩

def spans (pat : List (List Char)) : List (Elem (List Char)) :=
  pat.map fun p => if p = ['*', '*'] then .star else .one p

theorem all_span_iff (pat : List (List Char)) :
    (spans pat).all Elem.isStar = (pat.dropWhile (· == ['*', '*'])).isEmpty := by
  induction pat with
  | nil => rfl
  | cons p pat ih =>
    by_cases hspan : p = ['*', '*']
    · subst hspan
      rw [List.dropWhile_cons_of_pos (by decide), ← ih]
      rfl
    · rw [List.dropWhile_cons_of_neg (by simpa using hspan)]
      simp [spans, hspan, Elem.isStar]

theorem segmentsLoop_eq (pat txt : List (List Char))
    (resume : Option (List (List Char) × List (List Char))) :
    segmentsLoop le pat txt resume =
      greedy (segmentMatch le) (spans pat) txt (resume.map fun x => (spans x.1, x.2)) := by
  have hone {p : List Char} (h : p ≠ ['*', '*']) (pat : List (List Char)) :
      spans (p :: pat) = .one p :: spans pat := by simp [spans, h]
  fun_induction segmentsLoop le pat txt resume with
  | case1 resume pat => rw [greedy_nil, all_span_iff]
  | case2 resume seg txt pat ih =>
    rw [ih]
    exact (greedy_star (spans pat) seg txt _).symm
  | case3 resume seg txt p pat hne htakes ih => rw [ih, hone hne, greedy_one htakes]
  | case4 seg txt p pat hne htakes q b r ih =>
    rw [ih, hone hne, Option.map_some, Option.map_some, greedy_retry (.inr ⟨_, _, rfl, htakes⟩)]
  | case5 resume seg txt p pat hne htakes hno =>
    rw [hone hne, greedy_stuck (.inr ⟨_, _, rfl, htakes⟩) _ (map_resume_ne hno)]
  | case6 seg txt q b r ih =>
    rw [ih]
    exact (greedy_retry (.inl rfl) txt (spans q) b r).symm
  | case7 resume seg txt hno =>
    exact (greedy_stuck (.inl rfl) _ (map_resume_ne hno)).symm

theorem pathMatches_iff (pat txt : List (List Char)) :
    PathMatches le pat txt ↔ Matches (segmentMatch le) (spans pat) txt := by
  constructor
  · intro h
    induction h with
    | nil => exact .nil
    | span run _ ih => exact .star run ih
    | one hne hseg _ ih =>
      simp only [spans, List.map_cons, if_neg hne]
      exact .one ((segmentMatch_iff le _ _).2 hseg) ih
  · induction pat generalizing txt with
    | nil =>
      intro h
      cases h
      exact .nil
    | cons p pat ih =>
      intro h
      by_cases hspan : p = ['*', '*']
      · subst hspan
        obtain ⟨r, ⟨run, rfl⟩, hp⟩ := matches_star_iff.1 h
        exact .span run (ih _ hp)
      · simp only [spans, List.map_cons, if_neg hspan] at h
        obtain ⟨seg, txt, rfl, hseg, hp⟩ := matches_one_iff.1 h
        exact .one hspan ((segmentMatch_iff le _ _).1 hseg) (ih _ hp)

/-- The matcher with its one resume point decides the meaning of the pattern. -/
theorem globMatch_iff (pattern path : List Char) :
    globMatch le pattern path = true ↔
      PathMatches le (splitSegments pattern) (splitSegments path) := by
  rw [globMatch, segmentsLoop_eq, Option.map_none, greedy_none_iff, pathMatches_iff]

end Glob

end DssPrime
