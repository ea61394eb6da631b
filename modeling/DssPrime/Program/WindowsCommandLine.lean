import Mathlib

/-!
# The Windows command line

A Windows process gets one string and splits it itself.  `quoteArgvNarrow` writes the string;
`splitCommandLine` is the rule the programs read it by: backslashes are literal except before a
quote, where `2n` of them are `n` backslashes and the quote delimits, and `2n + 1` are `n`
backslashes and a literal quote.  The first argument follows a rule of its own, where quotes toggle
and no backslash escapes.
-/

namespace DssPrime

namespace CommandLine

/-- The characters that make an argument need quotes. -/
def reactsTo (c : Char) : Bool :=
  c == ' ' || c == '\t' || c == '\n' || c == Char.ofNat 11 || c == '"'

def needsQuotes (arg : List Char) : Bool := arg.isEmpty || arg.any reactsTo

def backslashRun (n : ℕ) : List Char := List.replicate n '\\'

def quoteBody : List Char → ℕ → List Char
  -- the run abuts the closing quote
  | [], backslashes => backslashRun (backslashes * 2)
  | c :: arg, backslashes =>
    if c = '\\' then quoteBody arg (backslashes + 1)
    else if c = '"' then backslashRun (backslashes * 2 + 1) ++ '"' :: quoteBody arg 0
    else backslashRun backslashes ++ c :: quoteBody arg 0

def quoteArg (arg : List Char) : List Char :=
  if needsQuotes arg then '"' :: (quoteBody arg 0 ++ ['"']) else arg

def quoteArgvNarrow : List (List Char) → List Char
  | [] => []
  | arg :: argv => quoteArg arg ++ argv.flatMap (fun a => ' ' :: quoteArg a)

def isDelimiter (c : Char) : Bool := c == ' ' || c == '\t'

/-- An argument being read: what is settled, the run of backslashes after it, and whether a quote
is open. -/
structure Partial where
  settled : List Char
  backslashes : ℕ
  inQuotes : Bool

def Partial.done (a : Partial) : List Char := a.settled ++ backslashRun a.backslashes

def Partial.feed (a : Partial) (c : Char) : Partial :=
  if c = '\\' then { a with backslashes := a.backslashes + 1 }
  else if c = '"' then
    if a.backslashes % 2 = 0 then
      ⟨a.settled ++ backslashRun (a.backslashes / 2), 0, !a.inQuotes⟩
    else ⟨a.settled ++ backslashRun (a.backslashes / 2) ++ ['"'], 0, a.inQuotes⟩
  else ⟨a.done ++ [c], 0, a.inQuotes⟩

def splitRest : Option Partial → List Char → List (List Char)
  | none, [] => []
  | some a, [] => [a.done]
  | none, c :: cs =>
    if isDelimiter c then splitRest none cs else splitRest (some (Partial.feed ⟨[], 0, false⟩ c)) cs
  | some a, c :: cs =>
    if isDelimiter c && !a.inQuotes then a.done :: splitRest none cs
    else splitRest (some (a.feed c)) cs

def splitFirst (settled : List Char) (inQuotes : Bool) : List Char → List Char × List Char
  | [] => (settled, [])
  | c :: cs =>
    if c = '"' then splitFirst settled (!inQuotes) cs
    else if isDelimiter c && !inQuotes then (settled, c :: cs)
    else splitFirst (settled ++ [c]) inQuotes cs

def splitCommandLine (s : List Char) : List (List Char) :=
  (splitFirst [] false s).1 :: splitRest none (splitFirst [] false s).2

theorem not_delimiter_backslash : isDelimiter '\\' = false := by decide

theorem not_delimiter_quote : isDelimiter '"' = false := by decide

theorem splitRest_backslashes (k : ℕ) : ∀ (settled : List Char) (n : ℕ) (q : Bool) (s : List Char),
    splitRest (some ⟨settled, n, q⟩) (backslashRun k ++ s) =
      splitRest (some ⟨settled, n + k, q⟩) s := by
  induction k with
  | zero => intro settled n q s; rfl
  | succ k ih =>
    intro settled n q s
    rw [backslashRun, List.replicate_succ, List.cons_append, splitRest,
      not_delimiter_backslash, Bool.false_and, if_neg (by decide), Partial.feed, if_pos rfl,
      ← backslashRun, ih, Nat.add_right_comm, Nat.add_assoc]

theorem feed_even (settled : List Char) (n : ℕ) (q : Bool) :
    Partial.feed ⟨settled, n * 2, q⟩ '"' = ⟨settled ++ backslashRun n, 0, !q⟩ := by
  simp [Partial.feed]

theorem feed_odd (settled : List Char) (n : ℕ) (q : Bool) :
    Partial.feed ⟨settled, n * 2 + 1, q⟩ '"' = ⟨settled ++ backslashRun n ++ ['"'], 0, q⟩ := by
  have hhalf : (n * 2 + 1) / 2 = n := by omega
  simp [Partial.feed, hhalf]

theorem splitRest_run_char (settled : List Char) (k : ℕ) (c : Char) (s : List Char) :
    splitRest (some ⟨settled, 0, true⟩) (backslashRun k ++ c :: s) =
      splitRest (some (Partial.feed ⟨settled, k, true⟩ c)) s := by
  rw [splitRest_backslashes, Nat.zero_add, splitRest, Bool.not_true, Bool.and_false,
    if_neg (by decide)]

theorem splitRest_quoteBody (arg : List Char) : ∀ (settled : List Char) (n : ℕ) (s : List Char),
    splitRest (some ⟨settled, 0, true⟩) (quoteBody arg n ++ '"' :: s) =
      splitRest (some ⟨settled ++ backslashRun n ++ arg, 0, false⟩) s := by
  induction arg with
  | nil =>
    intro settled n s
    rw [quoteBody, splitRest_run_char, feed_even, List.append_nil, Bool.not_true]
  | cons c arg ih =>
    intro settled n s
    rw [quoteBody]
    by_cases hb : c = '\\'
    · -- the run goes on
      rw [if_pos hb, ih, hb, backslashRun, List.replicate_succ']
      simp [backslashRun]
    by_cases hq : c = '"'
    · -- an odd run and the quote it escapes
      rw [if_neg hb, if_pos hq, List.append_assoc, List.cons_append, splitRest_run_char, feed_odd,
        ih, hq]
      simp [backslashRun]
    · rw [if_neg hb, if_neg hq, List.append_assoc, List.cons_append, splitRest_run_char,
        Partial.feed, if_neg hb, if_neg hq, ih]
      simp [backslashRun, Partial.done]

theorem splitRest_verbatim (arg : List Char) (hplain : ∀ c ∈ arg, reactsTo c = false) :
    ∀ (a : Partial) (s : List Char), a.inQuotes = false → ∃ b : Partial, b.inQuotes = false ∧
      b.done = a.done ++ arg ∧ splitRest (some a) (arg ++ s) = splitRest (some b) s := by
  induction arg with
  | nil => intro a s ha; exact ⟨a, ha, by simp, rfl⟩
  | cons c arg ih =>
    intro a s ha
    have hc := hplain c List.mem_cons_self
    simp only [reactsTo, Bool.or_eq_false_iff, beq_eq_false_iff_ne] at hc
    have hdelim : isDelimiter c = false := by simp [isDelimiter, hc]
    have hfeed : (a.feed c).inQuotes = false ∧ (a.feed c).done = a.done ++ [c] := by
      rw [Partial.feed]
      by_cases hb : c = '\\'
      · rw [if_pos hb, hb]
        exact ⟨ha, by simp [Partial.done, backslashRun, List.replicate_succ']⟩
      · rw [if_neg hb, if_neg hc.2]
        exact ⟨ha, by simp [Partial.done, backslashRun]⟩
    obtain ⟨b, hb, hdone, hsplit⟩ :=
      ih (fun d hd => hplain d (List.mem_cons_of_mem c hd)) (a.feed c) s hfeed.1
    refine ⟨b, hb, by rw [hdone, hfeed.2]; simp, ?_⟩
    rw [List.cons_append, splitRest, hdelim, Bool.false_and, if_neg (by decide), hsplit]

/-- What follows an argument: nothing, or the space before the next one. -/
def Ends (s : List Char) : Prop := s = [] ∨ ∃ r, s = ' ' :: r

theorem splitRest_ended (a : Partial) (ha : a.inQuotes = false) (s : List Char) (hs : Ends s) :
    splitRest (some a) s = a.done :: splitRest none s := by
  rcases hs with rfl | ⟨r, rfl⟩
  · rfl
  · simp [splitRest, isDelimiter, ha]

theorem plain_of_not_needsQuotes {arg : List Char} (h : needsQuotes arg = false) :
    arg ≠ [] ∧ ∀ c ∈ arg, reactsTo c = false := by
  simpa [needsQuotes] using h

theorem splitRest_quoteArg (arg s : List Char) (hs : Ends s) :
    splitRest none (quoteArg arg ++ s) = arg :: splitRest none s := by
  rw [quoteArg]
  by_cases hneeds : needsQuotes arg = true
  · have hopen : Partial.feed ⟨[], 0, false⟩ '"' = ⟨[], 0, true⟩ := feed_even [] 0 false
    rw [if_pos hneeds, List.cons_append, List.append_assoc, List.singleton_append, splitRest,
      not_delimiter_quote, if_neg (by decide), hopen, splitRest_quoteBody,
      splitRest_ended _ rfl s hs]
    simp [Partial.done, backslashRun]
  · rw [Bool.not_eq_true] at hneeds
    obtain ⟨hne, hplain⟩ := plain_of_not_needsQuotes hneeds
    rw [hneeds, if_neg (by decide)]
    obtain ⟨c, arg, rfl⟩ := List.exists_cons_of_ne_nil hne
    have hc := hplain c List.mem_cons_self
    simp only [reactsTo, Bool.or_eq_false_iff, beq_eq_false_iff_ne] at hc
    have hdelim : isDelimiter c = false := by simp [isDelimiter, hc]
    -- the first character opens the argument as it would continue an empty one
    have hopen : splitRest none (c :: arg ++ s) =
        splitRest (some ⟨[], 0, false⟩) (c :: arg ++ s) := by
      rw [List.cons_append, splitRest, splitRest, hdelim]
      rfl
    obtain ⟨b, hb, hdone, hsplit⟩ := splitRest_verbatim (c :: arg) hplain ⟨[], 0, false⟩ s rfl
    rw [hopen, hsplit, splitRest_ended b hb s hs, hdone]
    simp [Partial.done, backslashRun]

theorem ends_flatMap (args : List (List Char)) :
    Ends (args.flatMap (fun a => ' ' :: quoteArg a)) := by
  cases args with
  | nil => exact .inl rfl
  | cons a args => exact .inr ⟨_, rfl⟩

theorem splitRest_args (args : List (List Char)) :
    splitRest none (args.flatMap (fun a => ' ' :: quoteArg a)) = args := by
  induction args with
  | nil => rfl
  | cons a args ih =>
    rw [List.flatMap_cons, List.cons_append, splitRest, if_pos (by decide),
      splitRest_quoteArg a _ (ends_flatMap args), ih]

theorem quoteBody_literal (arg : List Char) : ∀ n, '"' ∉ arg → arg.getLast? ≠ some '\\' →
    (arg = [] → n = 0) → quoteBody arg n = backslashRun n ++ arg := by
  induction arg with
  | nil => intro n _ _ hn; simp [quoteBody, backslashRun, hn rfl]
  | cons c arg ih =>
    intro n hquote hlast _
    have hquote' : '"' ∉ arg := fun h => hquote (List.mem_cons_of_mem c h)
    have hlast' : arg.getLast? ≠ some '\\' := by
      cases arg with
      | nil => simp
      | cons d arg => simpa [List.getLast?_cons_cons] using hlast
    rw [quoteBody]
    by_cases hb : c = '\\'
    · rw [if_pos hb, ih (n + 1) hquote' hlast' (by rintro rfl; simp [hb] at hlast), hb,
        backslashRun, List.replicate_succ']
      simp [backslashRun]
    · have hq : c ≠ '"' := fun h => hquote (h ▸ List.mem_cons_self)
      rw [if_neg hb, if_neg hq, ih 0 hquote' hlast' (fun _ => rfl)]
      simp [backslashRun]

theorem splitFirst_literal (arg : List Char) : ∀ (settled s : List Char) (q : Bool), '"' ∉ arg →
    (q = true ∨ ∀ c ∈ arg, reactsTo c = false) →
    splitFirst settled q (arg ++ s) = splitFirst (settled ++ arg) q s := by
  induction arg with
  | nil => simp
  | cons c arg ih =>
    intro settled s q hquote hplain
    have hq : c ≠ '"' := fun h => hquote (h ▸ List.mem_cons_self)
    have hstay : (isDelimiter c && !q) = false := by
      rcases hplain with rfl | hplain
      · simp
      · have hc := hplain c List.mem_cons_self
        simp only [reactsTo, Bool.or_eq_false_iff] at hc
        simp [isDelimiter, hc]
    rw [List.cons_append, splitFirst, if_neg hq, hstay, if_neg (by decide),
      ih _ _ _ (fun h => hquote (List.mem_cons_of_mem c h))
        (hplain.imp_right fun h d hd => h d (List.mem_cons_of_mem c hd))]
    simp

theorem splitFirst_ended (settled s : List Char) (hs : Ends s) :
    splitFirst settled false s = (settled, s) := by
  rcases hs with rfl | ⟨r, rfl⟩
  · rfl
  · simp [splitFirst, isDelimiter]

theorem splitFirst_quoteArg (program s : List Char) (hquote : '"' ∉ program)
    (hlast : program.getLast? ≠ some '\\') (hs : Ends s) :
    splitFirst [] false (quoteArg program ++ s) = (program, s) := by
  rw [quoteArg]
  by_cases hneeds : needsQuotes program = true
  · have hbody := quoteBody_literal program 0 hquote hlast (fun _ => rfl)
    rw [if_pos hneeds, hbody, backslashRun, List.replicate_zero, List.nil_append, List.cons_append,
      List.append_assoc, List.singleton_append, splitFirst, if_pos rfl, Bool.not_false,
      splitFirst_literal program _ _ _ hquote (.inl rfl), splitFirst, if_pos rfl]
    exact splitFirst_ended program s hs
  · rw [Bool.not_eq_true] at hneeds
    rw [hneeds, if_neg (by decide), splitFirst_literal program _ _ _ hquote
      (.inr (plain_of_not_needsQuotes hneeds).2), splitFirst_ended _ s hs, List.nil_append]

/-- The string is split into exactly the arguments it was built from. -/
theorem splitCommandLine_quoteArgvNarrow (program : List Char) (args : List (List Char))
    (hquote : '"' ∉ program) (hlast : program.getLast? ≠ some '\\') :
    splitCommandLine (quoteArgvNarrow (program :: args)) = program :: args := by
  rw [splitCommandLine, quoteArgvNarrow,
    splitFirst_quoteArg program _ hquote hlast (ends_flatMap args)]
  exact congrArg (program :: ·) (splitRest_args args)

/-- A directory with a space and a trailing backslash, and a message with a quote in it. -/
theorem splitCommandLine_dir_message :
    splitCommandLine (quoteArgvNarrow ["p q".toList, "C:\\my dir\\".toList, "a\\\"b".toList, []]) =
      ["p q".toList, "C:\\my dir\\".toList, "a\\\"b".toList, []] :=
  splitCommandLine_quoteArgvNarrow "p q".toList ["C:\\my dir\\".toList, "a\\\"b".toList, []]
    (by decide) (by decide)

end CommandLine

end DssPrime
