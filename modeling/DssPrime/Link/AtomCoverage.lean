import Mathlib

/-!
# The bytes that atoms own

Two passes of `object_atom_coverage.hpp`. `uncoveredDefinedSymbolsThatStartAnAtom` promotes defined
symbols that no atom covers, the first of every run; `unownedByteRangesOfSection` lists the byte
ranges of a section that no atom owns.
-/

namespace DssPrime.AtomCoverage

structure BodilessDefinedSymbol where
  sectionKey : ℕ
  sectionOffset : ℕ
  declaredSize : Option ℕ
  name : String
  sectionName : String
  offset_lt : sectionOffset < 2 ^ 64

instance : Inhabited BodilessDefinedSymbol := ⟨⟨0, 0, none, "", "", by decide⟩⟩

/-- The bytes of an atom. -/
structure ReconstructedAtomExtent where
  sectionKey : ℕ
  start : ℕ
  len : ℕ
  deriving DecidableEq

def isCoveredByAnAtom (sym : BodilessDefinedSymbol) (atoms : List ReconstructedAtomExtent) : Bool :=
  atoms.any fun atom => decide (atom.sectionKey = sym.sectionKey) &&
    (decide (sym.sectionOffset ≥ atom.start) && decide (sym.sectionOffset - atom.start < atom.len))

def isDeclaredEmptyMarker (sym : BodilessDefinedSymbol) : Bool := decide (sym.declaredSize = some 0)

/-- Where the atom of a promoted symbol ends, in 64 bits: after its declared size, or at the next
atom of the section, or at the largest offset. -/
def runEnd (atoms : List ReconstructedAtomExtent) (sym : BodilessDefinedSymbol) : ℕ :=
  match sym.declaredSize with
  | some size => (sym.sectionOffset + size) % 2 ^ 64
  | none => atoms.foldl (fun runEnd atom =>
      if atom.sectionKey = sym.sectionKey ∧ atom.start > sym.sectionOffset ∧ atom.start < runEnd
      then atom.start else runEnd) (2 ^ 64 - 1)

/-- The run of atoms that the scan is in. -/
structure Run where
  runSection : ℕ
  runStart : ℕ
  runEnd : ℕ

/-- Whether a symbol lies inside the atom promoted last. -/
def inRun (run : Option Run) (sym : BodilessDefinedSymbol) : Bool :=
  match run with
  | none => false
  | some r => decide (r.runSection = sym.sectionKey) &&
      (decide (sym.sectionOffset ≥ r.runStart) && decide (sym.sectionOffset < r.runEnd))

def symbolAt (bodiless : List BodilessDefinedSymbol) (i : ℕ) : BodilessDefinedSymbol :=
  bodiless.getD i default

def promoteLoop (bodiless : List BodilessDefinedSymbol) (atoms : List ReconstructedAtomExtent)
    (reach : BodilessDefinedSymbol → ℕ) : Option Run → List ℕ → List ℕ
  | _, [] => []
  | run, idx :: order =>
    let sym := symbolAt bodiless idx
    if isDeclaredEmptyMarker sym then promoteLoop bodiless atoms reach run order
    else if isCoveredByAnAtom sym atoms then promoteLoop bodiless atoms reach run order
    else if inRun run sym then promoteLoop bodiless atoms reach run order
    else idx :: promoteLoop bodiless atoms reach
      (some ⟨sym.sectionKey, sym.sectionOffset, reach sym⟩) order

def symbolLe (a b : BodilessDefinedSymbol) : Bool :=
  decide (a.sectionKey < b.sectionKey ∨
    a.sectionKey = b.sectionKey ∧ a.sectionOffset ≤ b.sectionOffset)

/-- The indices of the symbols by section and offset; those at one place in the order in which they
were staged. -/
def symbolOrder (bodiless : List BodilessDefinedSymbol) : List ℕ :=
  (List.range bodiless.length).mergeSort fun a b =>
    symbolLe (symbolAt bodiless a) (symbolAt bodiless b)

def uncoveredDefinedSymbolsThatStartAnAtom (bodiless : List BodilessDefinedSymbol)
    (atoms : List ReconstructedAtomExtent) : List ℕ :=
  (promoteLoop bodiless atoms (runEnd atoms) none (symbolOrder bodiless)).mergeSort
    fun a b => decide (a ≤ b)

def gapsFrom (sectionKey sectionSize : ℕ) : ℕ → List ReconstructedAtomExtent →
    List ReconstructedAtomExtent
  | cursor, [] => if cursor < sectionSize then [⟨sectionKey, cursor, sectionSize - cursor⟩] else []
  | cursor, iv :: covered =>
    (if iv.start > cursor then [⟨sectionKey, cursor, iv.start - cursor⟩] else []) ++
      gapsFrom sectionKey sectionSize (max cursor (iv.start + iv.len)) covered

/-- The byte ranges of a section that no atom owns.  Atoms lie inside the section, so that their
ends have 64 bits. -/
def unownedByteRangesOfSection (sectionKey sectionSize : ℕ) (atoms : List ReconstructedAtomExtent) :
    List ReconstructedAtomExtent :=
  gapsFrom sectionKey sectionSize 0
    ((atoms.filter fun a => a.sectionKey = sectionKey).mergeSort
      fun a b => decide (a.start ≤ b.start))

section Gaps

variable {sectionKey sectionSize : ℕ} {atoms : List ReconstructedAtomExtent}

def Owned (sectionKey : ℕ) (atoms : List ReconstructedAtomExtent) (b : ℕ) : Prop :=
  ∃ a ∈ atoms, a.sectionKey = sectionKey ∧ a.start ≤ b ∧ b < a.start + a.len

/-- A range of a section of which no atom owns a byte and that can be extended to neither side. -/
structure MaximalGap (sectionKey sectionSize : ℕ) (atoms : List ReconstructedAtomExtent)
    (s e : ℕ) : Prop where
  lt : s < e
  le : e ≤ sectionSize
  free : ∀ b, s ≤ b → b < e → ¬ Owned sectionKey atoms b
  left : s = 0 ∨ Owned sectionKey atoms (s - 1)
  right : e = sectionSize ∨ Owned sectionKey atoms e

def ReturnsGaps (sectionKey sectionSize : ℕ) (atoms : List ReconstructedAtomExtent) : Prop :=
  (∀ g, g ∈ unownedByteRangesOfSection sectionKey sectionSize atoms ↔
    g.sectionKey = sectionKey ∧ MaximalGap sectionKey sectionSize atoms g.start (g.start + g.len)) ∧
  (unownedByteRangesOfSection sectionKey sectionSize atoms).Pairwise
    fun g h => g.start + g.len ≤ h.start

def NoEmptyAtomInGap (sectionKey sectionSize : ℕ) (atoms : List ReconstructedAtomExtent) : Prop :=
  ∀ z ∈ atoms, z.sectionKey = sectionKey → z.len = 0 → 0 < z.start → z.start < sectionSize →
    Owned sectionKey atoms (z.start - 1) ∨ Owned sectionKey atoms z.start

theorem mem_gapsFrom (covered : List ReconstructedAtomExtent) (cursor : ℕ)
    (hin : ∀ a ∈ covered, a.start + a.len ≤ sectionSize)
    (hsorted : covered.Pairwise fun a b => a.start ≤ b.start) (g : ReconstructedAtomExtent) :
    g ∈ gapsFrom sectionKey sectionSize cursor covered ↔
      g.sectionKey = sectionKey ∧ 0 < g.len ∧ cursor ≤ g.start ∧ g.start + g.len ≤ sectionSize ∧
      (∀ a ∈ covered, a.start + a.len ≤ g.start ∨ g.start + g.len ≤ a.start) ∧
      (g.start = cursor ∨ ∃ a ∈ covered, a.start + a.len = g.start) ∧
      (g.start + g.len = sectionSize ∨ ∃ a ∈ covered, a.start = g.start + g.len) := by
  obtain ⟨key, s, len⟩ := g
  induction covered generalizing cursor with
  | nil =>
    simp only [gapsFrom, List.not_mem_nil, false_and, exists_false, or_false, false_implies,
      implies_true, true_and]
    split
    · simp only [List.mem_singleton, ReconstructedAtomExtent.mk.injEq]
      omega
    · simp only [List.not_mem_nil, false_iff]
      omega
  | cons iv covered ih =>
    obtain ⟨hiv, hrest⟩ := List.pairwise_cons.1 hsorted
    have hivin := hin iv List.mem_cons_self
    rw [gapsFrom, List.mem_append, ih _ (fun a ha => hin a (List.mem_cons_of_mem _ ha)) hrest]
    have hhead : (⟨key, s, len⟩ : ReconstructedAtomExtent) ∈
        (if iv.start > cursor then [⟨sectionKey, cursor, iv.start - cursor⟩] else []) ↔
        key = sectionKey ∧ s = cursor ∧ 0 < len ∧ s + len = iv.start := by
      split
      · simp only [List.mem_singleton, ReconstructedAtomExtent.mk.injEq]
        omega
      · simp only [List.not_mem_nil, false_iff]
        omega
    rw [hhead]
    simp only [List.forall_mem_cons, List.exists_mem_cons_iff]
    constructor
    · rintro (⟨hkey, hs, hlen, hend⟩ | ⟨hkey, hlen, hcur, hle, hout, hleft, hright⟩)
      · refine ⟨hkey, hlen, hs.ge, by omega, ⟨.inr hend.le, fun a ha => .inr ?_⟩, .inl hs,
          .inr (.inl hend.symm)⟩
        have := hiv a ha
        omega
      · obtain ⟨hcur', hivend⟩ := Nat.max_le.1 hcur
        refine ⟨hkey, hlen, hcur', hle, ⟨.inl hivend, hout⟩, ?_, ?_⟩
        · rcases hleft with hleft | hleft
          · rcases max_choice cursor (iv.start + iv.len) with hm | hm
            · exact .inl (hleft.trans hm)
            · exact .inr (.inl (hm.symm.trans hleft.symm))
          · exact .inr (.inr hleft)
        · exact hright.imp_right .inr
    · rintro ⟨hkey, hlen, hcur, hle, ⟨hivout, hout⟩, hleft, hright⟩
      rcases hivout with hivout | hivout
      · refine .inr ⟨hkey, hlen, by omega, hle, hout, ?_, ?_⟩
        · rcases hleft with hleft | hleft | hleft
          · exact .inl (by omega)
          · exact .inl (by omega)
          · exact .inr hleft
        · rcases hright with hright | hright | hright
          · exact .inl hright
          · omega
          · exact .inr hright
      · refine .inl ⟨hkey, ?_, hlen, ?_⟩
        · rcases hleft with hleft | hleft | ⟨a, ha, hleft⟩
          · exact hleft
          · omega
          · have := hiv a ha
            omega
        · rcases hright with hright | hright | ⟨a, ha, hright⟩
          · omega
          · exact hright.symm
          · have := hiv a ha
            omega

theorem gapsFrom_ascending (covered : List ReconstructedAtomExtent) (cursor : ℕ)
    (hin : ∀ a ∈ covered, a.start + a.len ≤ sectionSize)
    (hsorted : covered.Pairwise fun a b => a.start ≤ b.start) :
    (gapsFrom sectionKey sectionSize cursor covered).Pairwise
      fun g h => g.start + g.len ≤ h.start := by
  induction covered generalizing cursor with
  | nil =>
    unfold gapsFrom
    split
    · exact List.pairwise_singleton _ _
    · exact List.Pairwise.nil
  | cons iv covered ih =>
    obtain ⟨-, hrest⟩ := List.pairwise_cons.1 hsorted
    have hin' : ∀ a ∈ covered, a.start + a.len ≤ sectionSize :=
      fun a ha => hin a (List.mem_cons_of_mem _ ha)
    rw [gapsFrom]
    refine List.pairwise_append.2 ⟨?_, ih _ hin' hrest, fun g hg h hh => ?_⟩
    · split
      · exact List.pairwise_singleton _ _
      · exact List.Pairwise.nil
    · have hge := ((mem_gapsFrom covered _ hin' hrest h).1 hh).2.2.1
      split at hg
      · rw [List.mem_singleton.1 hg]
        simp only
        omega
      · cases hg

theorem sortedAtoms_spec :
    (∀ a, a ∈ (atoms.filter fun a => a.sectionKey = sectionKey).mergeSort
      (fun a b => decide (a.start ≤ b.start)) ↔ a ∈ atoms ∧ a.sectionKey = sectionKey) ∧
    ((atoms.filter fun a => a.sectionKey = sectionKey).mergeSort
      (fun a b => decide (a.start ≤ b.start))).Pairwise fun a b => a.start ≤ b.start := by
  constructor
  · intro a
    rw [(List.mergeSort_perm _ _).mem_iff, List.mem_filter, decide_eq_true_eq]
  · refine (List.pairwise_mergeSort ?_ ?_ _).imp fun h => by simpa using h
    · intro a b c hab hbc
      simp only [decide_eq_true_eq] at hab hbc ⊢
      omega
    · intro a b
      simp only [Bool.or_eq_true, decide_eq_true_eq]
      omega

theorem exists_maximalGap {b : ℕ} (hb : b < sectionSize) (hfree : ¬ Owned sectionKey atoms b) :
    ∃ s e, MaximalGap sectionKey sectionSize atoms s e ∧ s ≤ b ∧ b < e := by
  have hleft : ∀ c, (∀ x, x = c → ¬ Owned sectionKey atoms x) →
      ∃ s ≤ c, (∀ x, s ≤ x → x ≤ c → ¬ Owned sectionKey atoms x) ∧
        (s = 0 ∨ Owned sectionKey atoms (s - 1)) := by
    intro c
    induction c with
    | zero =>
      intro h
      exact ⟨0, Nat.le_refl 0, fun x _ hx => h x (by omega), .inl rfl⟩
    | succ c ih =>
      intro h
      by_cases hc : Owned sectionKey atoms c
      · exact ⟨c + 1, Nat.le_refl _, fun x hx hx' => h x (by omega), .inr hc⟩
      · obtain ⟨s, hs, hfree, hor⟩ := ih fun x hx => hx ▸ hc
        refine ⟨s, by omega, fun x hx hx' => ?_, hor⟩
        rcases Nat.lt_or_ge c x with hlt | hge
        · exact h x (by omega)
        · exact hfree x hx hge
  have hright : ∀ n c, sectionSize - c = n → c < sectionSize → ¬ Owned sectionKey atoms c →
      ∃ e, c < e ∧ e ≤ sectionSize ∧ (∀ x, c ≤ x → x < e → ¬ Owned sectionKey atoms x) ∧
        (e = sectionSize ∨ Owned sectionKey atoms e) := by
    intro n
    induction n with
    | zero =>
      intro c hn hc
      omega
    | succ n ih =>
      intro c hn hc hfree
      by_cases hend : c + 1 = sectionSize ∨ Owned sectionKey atoms (c + 1)
      · refine ⟨c + 1, by omega, by omega, fun x hx hx' => ?_, hend⟩
        obtain rfl : x = c := by omega
        exact hfree
      · obtain ⟨hne, hnext⟩ := not_or.1 hend
        obtain ⟨e, hlt, hle, hfree', hor⟩ := ih (c + 1) (by omega) (by omega) hnext
        refine ⟨e, by omega, hle, fun x hx hx' => ?_, hor⟩
        rcases Nat.eq_or_lt_of_le hx with rfl | hlt'
        · exact hfree
        · exact hfree' x hlt' hx'
  obtain ⟨s, hs, hsfree, hsor⟩ := hleft b fun x hx => hx ▸ hfree
  obtain ⟨e, hbe, he, hefree, heor⟩ := hright _ b rfl hb hfree
  refine ⟨s, e, ⟨by omega, he, fun x hx hx' => ?_, hsor, heor⟩, hs, hbe⟩
  rcases Nat.lt_or_ge b x with hlt | hge
  · exact hefree x hlt.le hx'
  · exact hsfree x hx hge

theorem returnsGaps_iff
    (hin : ∀ a ∈ atoms, a.sectionKey = sectionKey → a.start + a.len ≤ sectionSize) :
    ReturnsGaps sectionKey sectionSize atoms ↔ NoEmptyAtomInGap sectionKey sectionSize atoms := by
  obtain ⟨hmem, hsorted⟩ := @sortedAtoms_spec sectionKey atoms
  have hin' : ∀ a ∈ (atoms.filter fun a => a.sectionKey = sectionKey).mergeSort
      (fun a b => decide (a.start ≤ b.start)), a.start + a.len ≤ sectionSize :=
    fun a ha => hin a ((hmem a).1 ha).1 ((hmem a).1 ha).2
  have hgap : ∀ g, g ∈ unownedByteRangesOfSection sectionKey sectionSize atoms ↔ _ :=
    mem_gapsFrom _ 0 hin' hsorted
  simp only [hmem] at hgap
  constructor
  · rintro ⟨hret, -⟩ z hz hkey hlen hpos hlt
    by_contra hno
    obtain ⟨hbefore, hat⟩ := not_or.1 hno
    -- the gap around the empty atom starts before it
    obtain ⟨s, e, hmax, hs, he⟩ := exists_maximalGap hlt hat
    have hslt : s < z.start := by
      rcases Nat.eq_or_lt_of_le hs with rfl | h
      · rcases hmax.left with h | h
        · omega
        · exact absurd h hbefore
      · exact h
    have hse := hmax.lt
    have hin := (hret ⟨sectionKey, s, e - s⟩).2 ⟨rfl, by
      simp only
      rwa [Nat.add_sub_cancel' hse.le]⟩
    have hcut := ((hgap _).1 hin).2.2.2.2.1 z ⟨hz, hkey⟩
    simp only at hcut
    omega
  · intro hempty
    refine ⟨fun g => (hgap g).trans ⟨fun h => ?_, fun h => ?_⟩, gapsFrom_ascending _ 0 hin' hsorted⟩
    · obtain ⟨hkey, hlen, -, hle, hout, hleft, hright⟩ := h
      have hfree : ∀ b, g.start ≤ b → b < g.start + g.len → ¬ Owned sectionKey atoms b := by
        rintro b hb hb' ⟨a, ha, hak, hab, hab'⟩
        have := hout a ⟨ha, hak⟩
        omega
      refine ⟨hkey, by omega, hle, hfree, ?_, ?_⟩
      · rcases hleft with hleft | ⟨a, ⟨ha, hak⟩, hend⟩
        · exact .inl hleft
        · rcases Nat.eq_zero_or_pos g.start with h0 | hpos
          · exact .inl h0
          rcases Nat.eq_zero_or_pos a.len with hz | hz
          · rcases hempty a ha hak hz (by omega) (by omega) with h | h
            · exact .inr (by rwa [← hend, hz])
            · exact absurd h (hfree _ (by omega) (by omega))
          · exact .inr ⟨a, ha, hak, by omega, by omega⟩
      · rcases hright with hright | ⟨a, ⟨ha, hak⟩, hstart⟩
        · exact .inl hright
        · rcases Nat.eq_or_lt_of_le hle with hsize | hlt
          · exact .inl hsize
          rcases Nat.eq_zero_or_pos a.len with hz | hz
          · rcases hempty a ha hak hz (by omega) (by omega) with h | h
            · exact absurd h (hfree _ (by omega) (by omega))
            · exact .inr (hstart ▸ h)
          · exact .inr ⟨a, ha, hak, by omega, by omega⟩
    · obtain ⟨hkey, hlt, hle, hfree, hleft, hright⟩ := h
      refine ⟨hkey, by omega, Nat.zero_le _, hle, fun a ha => ?_, ?_, ?_⟩
      · obtain ⟨ha, hak⟩ := ha
        by_contra hcut
        obtain ⟨h1, h2⟩ := not_or.1 hcut
        rcases Nat.eq_zero_or_pos a.len with hz | hz
        · have hain := hin a ha hak
          rcases hempty a ha hak hz (by omega) (by omega) with h | h
          · exact hfree _ (by omega) (by omega) h
          · exact hfree _ (by omega) (by omega) h
        · exact hfree (max a.start g.start) (by omega) (by omega)
            ⟨a, ha, hak, by omega, by omega⟩
      · rcases hleft with h | ⟨a, ha, hak, h1, h2⟩
        · exact .inl h
        · by_cases h0 : g.start = 0
          · exact .inl h0
          refine .inr ⟨a, ⟨ha, hak⟩, ?_⟩
          by_contra hne
          exact hfree g.start (by omega) hlt ⟨a, ha, hak, by omega, by omega⟩
      · rcases hright with h | ⟨a, ha, hak, h1, h2⟩
        · exact .inl h
        · refine .inr ⟨a, ⟨ha, hak⟩, ?_⟩
          by_contra hne
          exact hfree (g.start + g.len - 1) (by omega) (by omega) ⟨a, ha, hak, by omega, by omega⟩

end Gaps

section Runs

variable {bodiless : List BodilessDefinedSymbol} {atoms : List ReconstructedAtomExtent}
  {reach : BodilessDefinedSymbol → ℕ}

def Uncovered (bodiless : List BodilessDefinedSymbol) (atoms : List ReconstructedAtomExtent)
    (i : ℕ) : Prop :=
  i < bodiless.length ∧ isDeclaredEmptyMarker (symbolAt bodiless i) = false ∧
    isCoveredByAnAtom (symbolAt bodiless i) atoms = false

/-- A symbol of the same section lies before another one, or at its place and was staged first. -/
def Before (bodiless : List BodilessDefinedSymbol) (s x : ℕ) : Prop :=
  (symbolAt bodiless s).sectionKey = (symbolAt bodiless x).sectionKey ∧
    ((symbolAt bodiless s).sectionOffset < (symbolAt bodiless x).sectionOffset ∨
      (symbolAt bodiless s).sectionOffset = (symbolAt bodiless x).sectionOffset ∧ s < x)

/-- The symbols that start a run, with atoms that end at `reach`: those uncovered ones that no such
symbol before them reaches. -/
def StartRuns (bodiless : List BodilessDefinedSymbol) (atoms : List ReconstructedAtomExtent)
    (reach : BodilessDefinedSymbol → ℕ) (starts : List ℕ) : Prop :=
  ∀ x, x ∈ starts ↔ Uncovered bodiless atoms x ∧ ∀ s ∈ starts, Before bodiless s x →
    reach (symbolAt bodiless s) ≤ (symbolAt bodiless x).sectionOffset

theorem Before.trans {a b c : ℕ} (hab : Before bodiless a b) (hbc : Before bodiless b c) :
    Before bodiless a c := by
  unfold Before at *
  omega

theorem Before.irrefl (a : ℕ) : ¬ Before bodiless a a := by
  unfold Before
  omega

theorem StartRuns.unique {p q : List ℕ} (hp : StartRuns bodiless atoms reach p)
    (hq : StartRuns bodiless atoms reach q) (x : ℕ) : x ∈ p ↔ x ∈ q := by
  -- by induction along the symbols before this one
  have hwf : ∀ n m x, (symbolAt bodiless x).sectionOffset = n → x = m → (x ∈ p ↔ x ∈ q) := by
    intro n
    induction n using Nat.strong_induction_on with
    | _ n ihn =>
      intro m
      induction m using Nat.strong_induction_on with
      | _ m ihm =>
        intro x hn hm
        have hbefore : ∀ s, Before bodiless s x → (s ∈ p ↔ s ∈ q) := by
          rintro s ⟨-, hlt | ⟨heq, hlt⟩⟩
          · exact ihn _ (hn ▸ hlt) s s rfl rfl
          · exact ihm s (hm ▸ hlt) s (heq.trans hn) rfl
        rw [hp x, hq x]
        refine and_congr_right fun _ => ⟨fun h s hs hb => ?_, fun h s hs hb => ?_⟩
        · exact h s ((hbefore s hb).2 hs) hb
        · exact h s ((hbefore s hb).1 hs) hb
  exact hwf _ _ x rfl rfl

/-- The indices are sorted, and those at one place ascend. -/
def Staged (bodiless : List BodilessDefinedSymbol) (i j : ℕ) : Prop :=
  (symbolAt bodiless i).sectionKey < (symbolAt bodiless j).sectionKey ∨ Before bodiless i j

theorem promoteLoop_subset (run : Option Run) (order : List ℕ) :
    ∀ x ∈ promoteLoop bodiless atoms reach run order, x ∈ order := by
  induction order generalizing run with
  | nil => exact fun x hx => hx
  | cons idx order ih =>
    intro x hx
    simp only [promoteLoop] at hx
    split_ifs at hx
    · exact List.mem_cons_of_mem _ (ih _ x hx)
    · exact List.mem_cons_of_mem _ (ih _ x hx)
    · exact List.mem_cons_of_mem _ (ih _ x hx)
    · rcases List.mem_cons.1 hx with rfl | hx
      · exact List.mem_cons_self
      · exact List.mem_cons_of_mem _ (ih _ x hx)

theorem promoteLoop_nodup (run : Option Run) {order : List ℕ} (h : order.Nodup) :
    (promoteLoop bodiless atoms reach run order).Nodup := by
  induction order generalizing run with
  | nil => exact List.nodup_nil
  | cons idx order ih =>
    obtain ⟨hidx, horder⟩ := List.nodup_cons.1 h
    simp only [promoteLoop]
    split_ifs
    · exact ih _ horder
    · exact ih _ horder
    · exact ih _ horder
    · exact List.nodup_cons.2 ⟨fun hmem => hidx (promoteLoop_subset _ _ _ hmem), ih _ horder⟩

theorem inRun_some {r : Run} {sym : BodilessDefinedSymbol} : inRun (some r) sym = true ↔
    r.runSection = sym.sectionKey ∧ r.runStart ≤ sym.sectionOffset ∧
      sym.sectionOffset < r.runEnd := by
  simp [inRun]

theorem mem_promoteLoop (order : List ℕ) (run : Option Run)
    (hlt : ∀ x ∈ order, x < bodiless.length)
    (hsorted : order.Pairwise (Staged bodiless))
    (hrun : ∀ r, run = some r → ∀ x ∈ order, r.runSection < (symbolAt bodiless x).sectionKey ∨
      r.runSection = (symbolAt bodiless x).sectionKey ∧
        r.runStart ≤ (symbolAt bodiless x).sectionOffset) :
    ∀ x ∈ order, x ∈ promoteLoop bodiless atoms reach run order ↔
      Uncovered bodiless atoms x ∧ inRun run (symbolAt bodiless x) = false ∧
        ∀ s ∈ promoteLoop bodiless atoms reach run order, Before bodiless s x →
          reach (symbolAt bodiless s) ≤ (symbolAt bodiless x).sectionOffset := by
  induction order generalizing run with
  | nil =>
    intro x hx
    cases hx
  | cons idx order ih =>
    obtain ⟨hidx, hrest⟩ := List.pairwise_cons.1 hsorted
    have hlt' : ∀ x ∈ order, x < bodiless.length := fun x hx => hlt x (List.mem_cons_of_mem _ hx)
    have hlater : ∀ x ∈ order, ¬ Before bodiless x idx := by
      intro x hx hb
      have h := hidx x hx
      unfold Staged Before at h
      unfold Before at hb
      omega
    have hnotmem : ∀ run', idx ∉ promoteLoop bodiless atoms reach run' order := by
      intro run' hmem
      have h := hidx idx (promoteLoop_subset _ _ _ hmem)
      unfold Staged at h
      rcases h with h | h
      · exact Nat.lt_irrefl _ h
      · exact Before.irrefl idx h
    have hskip := ih run hlt' hrest fun r hr x hx => hrun r hr x (List.mem_cons_of_mem _ hx)
    intro x hx
    simp only [promoteLoop]
    split_ifs with hmarker hcovered hin
    · rcases List.mem_cons.1 hx with rfl | hx
      · exact iff_of_false (hnotmem _) fun h => by
          rw [h.1.2.1] at hmarker
          cases hmarker
      · exact hskip x hx
    · rcases List.mem_cons.1 hx with rfl | hx
      · exact iff_of_false (hnotmem _) fun h => by
          rw [h.1.2.2] at hcovered
          cases hcovered
      · exact hskip x hx
    · rcases List.mem_cons.1 hx with rfl | hx
      · exact iff_of_false (hnotmem _) fun h => by
          rw [h.2.1] at hin
          cases hin
      · exact hskip x hx
    · -- the symbol is promoted, and is the run from here on
      have hpromote := ih (some ⟨(symbolAt bodiless idx).sectionKey,
        (symbolAt bodiless idx).sectionOffset, reach (symbolAt bodiless idx)⟩) hlt' hrest (by
          rintro r hr x hx
          obtain rfl := Option.some.inj hr
          have h := hidx x hx
          unfold Staged Before at h
          simp only
          omega)
      rcases List.mem_cons.1 hx with rfl | hx
      · refine iff_of_true List.mem_cons_self ⟨⟨hlt _ List.mem_cons_self,
          Bool.eq_false_iff.2 hmarker, Bool.eq_false_iff.2 hcovered⟩, Bool.eq_false_iff.2 hin,
          fun s hs hb => ?_⟩
        rcases List.mem_cons.1 hs with rfl | hs
        · exact absurd hb (Before.irrefl _)
        · exact absurd hb (hlater s (promoteLoop_subset _ _ _ hs))
      · have hx' := hidx x hx
        have hne : x ≠ idx := by
          intro heq
          have h := hx'
          rw [heq] at h
          unfold Staged at h
          rcases h with h | h
          · exact Nat.lt_irrefl _ h
          · exact Before.irrefl idx h
        have hmem : x ∈ idx :: promoteLoop bodiless atoms reach
            (some ⟨(symbolAt bodiless idx).sectionKey, (symbolAt bodiless idx).sectionOffset,
              reach (symbolAt bodiless idx)⟩) order ↔
            x ∈ promoteLoop bodiless atoms reach
              (some ⟨(symbolAt bodiless idx).sectionKey, (symbolAt bodiless idx).sectionOffset,
                reach (symbolAt bodiless idx)⟩) order := by
          rw [List.mem_cons]
          exact or_iff_right hne
        rw [hmem, hpromote x hx]
        simp only [List.forall_mem_cons]
        refine and_congr_right fun _ => ⟨fun h => ⟨?_, fun hb => ?_, h.2⟩, fun h => ⟨?_, h.2.2⟩⟩
        · -- the run before reaches no further than the promoted symbol
          rw [Bool.eq_false_iff]
          intro hold
          cases hr : run with
          | none =>
            rw [hr] at hold
            cases hold
          | some r =>
            rw [hr] at hold hin
            rw [inRun_some] at hold
            have hidx' := hrun r hr idx List.mem_cons_self
            have hnot := h.1
            rw [Bool.eq_false_iff, Ne, inRun_some] at hnot
            rw [inRun_some] at hin
            unfold Staged Before at hx'
            simp only at hnot
            omega
        · have hnot := h.1
          rw [Bool.eq_false_iff, Ne, inRun_some] at hnot
          unfold Before at hb
          simp only at hnot
          omega
        · rw [Bool.eq_false_iff, Ne, inRun_some]
          simp only
          rintro ⟨hsec, hle, hlt⟩
          have hb : Before bodiless idx x := by
            unfold Staged at hx'
            rcases hx' with h | h
            · omega
            · exact h
          have := h.2.1 hb
          omega

theorem symbolOrder_staged : (symbolOrder bodiless).Pairwise (Staged bodiless) := by
  have htrans : ∀ a b c, symbolLe (symbolAt bodiless a) (symbolAt bodiless b) = true →
      symbolLe (symbolAt bodiless b) (symbolAt bodiless c) = true →
      symbolLe (symbolAt bodiless a) (symbolAt bodiless c) = true := by
    intro a b c hab hbc
    simp only [symbolLe, decide_eq_true_eq] at hab hbc ⊢
    omega
  have htotal : ∀ a b, (symbolLe (symbolAt bodiless a) (symbolAt bodiless b) ||
      symbolLe (symbolAt bodiless b) (symbolAt bodiless a)) = true := by
    intro a b
    simp only [symbolLe, Bool.or_eq_true, decide_eq_true_eq]
    omega
  have hnodup : (symbolOrder bodiless).Nodup :=
    (List.mergeSort_perm _ _).nodup_iff.2 List.nodup_range
  have hpos : (symbolOrder bodiless).Pairwise fun a b =>
      (symbolOrder bodiless).idxOf a < (symbolOrder bodiless).idxOf b := by
    rw [List.pairwise_iff_getElem]
    intro i j hi hj hij
    rwa [hnodup.idxOf_getElem, hnodup.idxOf_getElem]
  rw [List.pairwise_iff_forall_sublist] at hpos ⊢
  intro i j hij
  have hle := List.pairwise_iff_forall_sublist.1 (List.pairwise_mergeSort htrans htotal _) hij
  have hlt := hpos hij
  simp only [symbolLe, decide_eq_true_eq] at hle
  have hi : i < bodiless.length := List.mem_range.1
    ((List.mergeSort_perm _ _).mem_iff.1 (hij.subset List.mem_cons_self))
  unfold Staged Before
  by_contra hno
  -- otherwise the later one was staged first, and the sort keeps it first
  have hji : j < i := by
    have hne : i ≠ j := by
      rintro rfl
      exact Nat.lt_irrefl _ hlt
    omega
  have hrange : [j, i].Sublist (List.range bodiless.length) := by
    refine List.Sublist.trans ?_ (List.range_sublist.2 hi)
    rw [List.range_succ]
    exact List.Sublist.append (List.singleton_sublist.2 (List.mem_range.2 hji))
      (List.Sublist.refl [i])
  have hkeep := hpos (List.pair_sublist_mergeSort htrans htotal (by
    simp only [symbolLe, decide_eq_true_eq]
    omega) hrange)
  exact Nat.lt_asymm hlt hkeep

theorem mem_symbolOrder {x : ℕ} : x ∈ symbolOrder bodiless ↔ x < bodiless.length :=
  (List.mergeSort_perm _ _).mem_iff.trans List.mem_range

theorem promoteLoop_startRuns : StartRuns bodiless atoms reach
    (promoteLoop bodiless atoms reach none (symbolOrder bodiless)) := by
  intro x
  have hmem := @mem_promoteLoop bodiless atoms reach (symbolOrder bodiless) none
    (fun x hx => mem_symbolOrder.1 hx) symbolOrder_staged fun r hr => by cases hr
  constructor
  · intro hx
    have h := (hmem x (promoteLoop_subset _ _ _ hx)).1 hx
    exact ⟨h.1, h.2.2⟩
  · rintro ⟨hunc, hstart⟩
    exact (hmem x (mem_symbolOrder.2 hunc.1)).2 ⟨hunc, rfl, hstart⟩

theorem uncovered_startRuns : StartRuns bodiless atoms (runEnd atoms)
    (uncoveredDefinedSymbolsThatStartAnAtom bodiless atoms) := by
  have hperm : (uncoveredDefinedSymbolsThatStartAnAtom bodiless atoms).Perm
      (promoteLoop bodiless atoms (runEnd atoms) none (symbolOrder bodiless)) :=
    List.mergeSort_perm _ _
  intro x
  rw [hperm.mem_iff, promoteLoop_startRuns x]
  simp only [hperm.mem_iff]

theorem uncovered_ascending :
    (uncoveredDefinedSymbolsThatStartAnAtom bodiless atoms).Pairwise (· < ·) := by
  have hnodup : (uncoveredDefinedSymbolsThatStartAnAtom bodiless atoms).Nodup :=
    (List.mergeSort_perm _ _).nodup_iff.2
      (promoteLoop_nodup none ((List.mergeSort_perm _ _).nodup_iff.2 List.nodup_range))
  have hle : (uncoveredDefinedSymbolsThatStartAnAtom bodiless atoms).Pairwise (· ≤ ·) := by
    refine (List.pairwise_mergeSort ?_ ?_ _).imp fun h => by simpa using h
    · intro a b c hab hbc
      simp only [decide_eq_true_eq] at hab hbc ⊢
      omega
    · intro a b
      simp only [Bool.or_eq_true, decide_eq_true_eq]
      omega
  exact (hle.and hnodup).imp fun h => Nat.lt_of_le_of_ne h.1 h.2

/-- The atom of a promoted symbol owns a place of its section: up to the declared size, or up to the
next atom of the section. -/
def Extends (atoms : List ReconstructedAtomExtent) (s x : BodilessDefinedSymbol) : Prop :=
  s.sectionKey = x.sectionKey ∧ s.sectionOffset ≤ x.sectionOffset ∧
    ((∃ size, s.declaredSize = some size ∧ x.sectionOffset < s.sectionOffset + size) ∨
      s.declaredSize = none ∧ ∀ a ∈ atoms, a.sectionKey = s.sectionKey →
        a.start > s.sectionOffset → x.sectionOffset < a.start)

def trueEnd (atoms : List ReconstructedAtomExtent) (sym : BodilessDefinedSymbol) : ℕ :=
  match sym.declaredSize with
  | some size => sym.sectionOffset + size
  | none => atoms.foldl (fun runEnd atom =>
      if atom.sectionKey = sym.sectionKey ∧ atom.start > sym.sectionOffset ∧ atom.start < runEnd
      then atom.start else runEnd) (2 ^ 64)

theorem lt_nextStart (sym : BodilessDefinedSymbol) (v : ℕ) (top : ℕ) :
    v < atoms.foldl (fun runEnd atom =>
      if atom.sectionKey = sym.sectionKey ∧ atom.start > sym.sectionOffset ∧ atom.start < runEnd
      then atom.start else runEnd) top ↔
    v < top ∧ ∀ a ∈ atoms, a.sectionKey = sym.sectionKey → a.start > sym.sectionOffset →
      v < a.start := by
  induction atoms generalizing top with
  | nil => simp
  | cons a atoms ih =>
    rw [List.foldl_cons, ih, List.forall_mem_cons]
    split_ifs with h
    · refine ⟨fun hv => ⟨by omega, fun _ _ => hv.1, hv.2⟩, fun hv => ⟨hv.2.1 h.1 h.2.1, hv.2.2⟩⟩
    · refine ⟨fun hv => ⟨hv.1, fun hk hs => ?_, hv.2⟩, fun hv => ⟨hv.1, hv.2.2⟩⟩
      have : ¬ a.start < top := fun hlt => h ⟨hk, hs, hlt⟩
      omega

theorem extends_iff {s x : BodilessDefinedSymbol} : Extends atoms s x ↔
    s.sectionKey = x.sectionKey ∧ s.sectionOffset ≤ x.sectionOffset ∧
      x.sectionOffset < trueEnd atoms s := by
  unfold Extends trueEnd
  refine and_congr_right fun _ => and_congr_right fun _ => ?_
  cases hs : s.declaredSize with
  | some size => simp
  | none =>
    rw [lt_nextStart]
    simp only [reduceCtorEq, false_and, exists_const, true_and, false_or, x.offset_lt]

theorem lt_trueEnd {s : BodilessDefinedSymbol} (h : isDeclaredEmptyMarker s = false) :
    s.sectionOffset < trueEnd atoms s := by
  unfold trueEnd
  unfold isDeclaredEmptyMarker at h
  cases hs : s.declaredSize with
  | some size =>
    rw [hs] at h
    simp only [Option.some.injEq, decide_eq_false_iff_not] at h
    simp only
    omega
  | none =>
    simp only
    rw [lt_nextStart]
    exact ⟨s.offset_lt, fun a _ _ hlt => hlt⟩

theorem runEnd_le_trueEnd (s : BodilessDefinedSymbol) : runEnd atoms s ≤ trueEnd atoms s := by
  unfold runEnd trueEnd
  cases hs : s.declaredSize with
  | some size => exact Nat.mod_le _ _
  | none =>
    simp only
    refine Nat.le_of_not_lt fun hlt => ?_
    rw [lt_nextStart] at hlt
    refine Nat.lt_irrefl _ ((@lt_nextStart atoms s _ (2 ^ 64)).2 ⟨?_, hlt.2⟩)
    omega

/-- What the pass is for: every symbol with bytes is covered once each promoted symbol has an atom,
and no atom is started without need. -/
structure Recovers (bodiless : List BodilessDefinedSymbol) (atoms : List ReconstructedAtomExtent)
    (promoted : List ℕ) : Prop where
  ascending : promoted.Pairwise (· < ·)
  uncovered : ∀ s ∈ promoted, Uncovered bodiless atoms s
  covers : ∀ x < bodiless.length, isDeclaredEmptyMarker (symbolAt bodiless x) = false →
    isCoveredByAnAtom (symbolAt bodiless x) atoms = true ∨
      ∃ s ∈ promoted, Extends atoms (symbolAt bodiless s) (symbolAt bodiless x)
  apart : ∀ s ∈ promoted, ∀ x ∈ promoted,
    Extends atoms (symbolAt bodiless s) (symbolAt bodiless x) → s = x
  first : ∀ s ∈ promoted, ∀ x, Uncovered bodiless atoms x →
    Extends atoms (symbolAt bodiless s) (symbolAt bodiless x) → s = x ∨ Before bodiless s x

theorem before_total {s x : ℕ}
    (h : (symbolAt bodiless s).sectionKey = (symbolAt bodiless x).sectionKey) :
    s = x ∨ Before bodiless s x ∨ Before bodiless x s := by
  unfold Before
  omega

theorem recovers_iff {promoted : List ℕ} : Recovers bodiless atoms promoted ↔
    promoted.Pairwise (· < ·) ∧ StartRuns bodiless atoms (trueEnd atoms) promoted := by
  constructor
  · intro h
    refine ⟨h.ascending, fun x => ⟨fun hx => ⟨h.uncovered x hx, fun s hs hb => ?_⟩, ?_⟩⟩
    · by_contra hlt
      have hsx := h.apart s hs x hx (extends_iff.2 ⟨hb.1, by
        unfold Before at hb
        omega, by omega⟩)
      exact Before.irrefl x (hsx ▸ hb)
    · rintro ⟨hunc, hstart⟩
      rcases h.covers x hunc.1 hunc.2.1 with hcov | ⟨s, hs, hext⟩
      · rw [hunc.2.2] at hcov
        cases hcov
      · rcases h.first s hs x hunc hext with rfl | hb
        · exact hs
        · have := hstart s hs hb
          have := (extends_iff.1 hext).2.2
          omega
  · rintro ⟨hasc, hruns⟩
    have hmarker : ∀ s ∈ promoted, (symbolAt bodiless s).sectionOffset <
        trueEnd atoms (symbolAt bodiless s) := fun s hs => lt_trueEnd ((hruns s).1 hs).1.2.1
    have hfirst : ∀ s ∈ promoted, ∀ x, Uncovered bodiless atoms x →
        Extends atoms (symbolAt bodiless s) (symbolAt bodiless x) →
        s = x ∨ Before bodiless s x := by
      intro s hs x hunc hext
      obtain ⟨hsec, hle, hlt⟩ := extends_iff.1 hext
      rcases before_total hsec with h | h | h
      · exact .inl h
      · exact .inr h
      · -- the two lie at one place, and the other one was staged first
        have hoff : (symbolAt bodiless x).sectionOffset = (symbolAt bodiless s).sectionOffset := by
          unfold Before at h
          omega
        have hnot : x ∉ promoted := by
          intro hx
          have := ((hruns s).1 hs).2 x hx h
          have := hmarker x hx
          omega
        rw [hruns x, not_and_or] at hnot
        rcases hnot with hnot | hnot
        · exact absurd hunc hnot
        · push Not at hnot
          obtain ⟨r, hr, hb, hreach⟩ := hnot
          have := ((hruns s).1 hs).2 r hr (hb.trans h)
          omega
    refine ⟨hasc, fun s hs => ((hruns s).1 hs).1, fun x hx hm => ?_, fun s hs x hx hext => ?_,
      hfirst⟩
    · cases hcov : isCoveredByAnAtom (symbolAt bodiless x) atoms with
      | true => exact .inl rfl
      | false =>
        refine .inr ?_
        by_cases hmem : x ∈ promoted
        · exact ⟨x, hmem, extends_iff.2 ⟨rfl, Nat.le_refl _, hmarker x hmem⟩⟩
        · rw [hruns x, not_and_or] at hmem
          rcases hmem with hmem | hmem
          · exact absurd ⟨hx, hm, hcov⟩ hmem
          · push Not at hmem
            obtain ⟨s, hs, hb, hlt⟩ := hmem
            refine ⟨s, hs, extends_iff.2 ⟨hb.1, ?_, hlt⟩⟩
            unfold Before at hb
            omega
    · rcases hfirst s hs x ((hruns x).1 hx).1 hext with h | h
      · exact h
      · have := ((hruns x).1 hx).2 s hs h
        have := (extends_iff.1 hext).2.2
        omega

/-- No atom of a symbol that starts a run ends past the last offset with symbols behind its wrapped
end. -/
def NoWrap (bodiless : List BodilessDefinedSymbol) (atoms : List ReconstructedAtomExtent) : Prop :=
  ∀ starts, StartRuns bodiless atoms (trueEnd atoms) starts → ∀ a ∈ starts, ∀ b,
    Uncovered bodiless atoms b → Before bodiless a b →
    (symbolAt bodiless b).sectionOffset < trueEnd atoms (symbolAt bodiless a) →
      (symbolAt bodiless b).sectionOffset < runEnd atoms (symbolAt bodiless a)

theorem recovers_uncovered_iff :
    Recovers bodiless atoms (uncoveredDefinedSymbolsThatStartAnAtom bodiless atoms) ↔
      NoWrap bodiless atoms := by
  rw [recovers_iff, and_iff_right uncovered_ascending]
  have hcode := @uncovered_startRuns bodiless atoms
  constructor
  · intro htrue starts hstarts a ha b hunc hb hlt
    rw [hstarts.unique htrue a] at ha
    by_contra hge
    -- the code promotes what a wrapped run no longer reaches
    have hnot : b ∉ uncoveredDefinedSymbolsThatStartAnAtom bodiless atoms := by
      intro hmem
      have := ((htrue b).1 hmem).2 a ha hb
      omega
    rw [hcode b, not_and_or] at hnot
    rcases hnot with hnot | hnot
    · exact hnot hunc
    push Not at hnot
    obtain ⟨s, hs, hsb, hsreach⟩ := hnot
    have hsec : (symbolAt bodiless s).sectionKey = (symbolAt bodiless a).sectionKey :=
      hsb.1.trans hb.1.symm
    have hle := @runEnd_le_trueEnd atoms (symbolAt bodiless s)
    rcases before_total hsec with rfl | h | h
    · exact hge hsreach
    · have := ((htrue a).1 ha).2 s hs h
      unfold Before at hb
      omega
    · have := ((htrue s).1 hs).2 a ha h
      unfold Before at hsb
      omega
  · intro hwrap
    have hideal := @promoteLoop_startRuns bodiless atoms (trueEnd atoms)
    have hideal' : StartRuns bodiless atoms (runEnd atoms)
        (promoteLoop bodiless atoms (trueEnd atoms) none (symbolOrder bodiless)) := by
      intro x
      rw [hideal x]
      refine and_congr_right fun hunc => ⟨fun h s hs hb => ?_, fun h s hs hb => ?_⟩
      · exact (runEnd_le_trueEnd _).trans (h s hs hb)
      · by_contra hlt
        exact absurd (hwrap _ hideal s hs x hunc hb (by omega)) (Nat.not_lt.2 (h s hs hb))
    have hsame := hcode.unique hideal'
    intro x
    rw [hsame x, hideal x]
    simp only [hsame]

theorem isCoveredByAnAtom_perm {atoms' : List ReconstructedAtomExtent} (h : atoms.Perm atoms')
    (sym : BodilessDefinedSymbol) : isCoveredByAnAtom sym atoms = isCoveredByAnAtom sym atoms' := by
  rw [Bool.eq_iff_iff]
  simp only [isCoveredByAnAtom, List.any_eq_true, h.mem_iff]

theorem runEnd_perm {atoms' : List ReconstructedAtomExtent} (h : atoms.Perm atoms') :
    runEnd atoms = runEnd atoms' := by
  funext sym
  unfold runEnd
  cases sym.declaredSize with
  | some size => rfl
  | none =>
    refine eq_of_forall_lt_iff fun v => ?_
    simp only [lt_nextStart, h.mem_iff]

theorem uncovered_perm {atoms' : List ReconstructedAtomExtent} (h : atoms.Perm atoms') :
    uncoveredDefinedSymbolsThatStartAnAtom bodiless atoms =
      uncoveredDefinedSymbolsThatStartAnAtom bodiless atoms' := by
  have hloop : ∀ reach order run, promoteLoop bodiless atoms reach run order =
      promoteLoop bodiless atoms' reach run order := by
    intro reach order
    induction order with
    | nil => exact fun _ => rfl
    | cons idx order ih =>
      intro run
      simp only [promoteLoop, isCoveredByAnAtom_perm h, ih]
  unfold uncoveredDefinedSymbolsThatStartAnAtom
  rw [runEnd_perm h, hloop]

end Runs

/-- **Both passes.**  For atoms inside their section, the promoted symbols are the ones that are
needed, in every order of the atoms, and the ranges are the maximal ones that no atom owns, if and
only if no end that matters wraps and no atom without bytes lies inside such a range. -/
theorem atomRecovery_iff (bodiless : List BodilessDefinedSymbol)
    (atoms : List ReconstructedAtomExtent) (sectionKey sectionSize : ℕ)
    (hin : ∀ a ∈ atoms, a.sectionKey = sectionKey → a.start + a.len ≤ sectionSize) :
    (Recovers bodiless atoms (uncoveredDefinedSymbolsThatStartAnAtom bodiless atoms) ∧
      (∀ atoms', atoms.Perm atoms' → uncoveredDefinedSymbolsThatStartAnAtom bodiless atoms =
        uncoveredDefinedSymbolsThatStartAnAtom bodiless atoms') ∧
      ReturnsGaps sectionKey sectionSize atoms) ↔
    NoWrap bodiless atoms ∧ NoEmptyAtomInGap sectionKey sectionSize atoms := by
  rw [recovers_uncovered_iff, returnsGaps_iff hin]
  exact and_congr_right fun _ => and_iff_right fun atoms' h => uncovered_perm h

/-- A function before an atom: it is promoted, and the ranges before and behind the atom are
returned. -/
theorem atomRecovery_iff_function :
    let f : BodilessDefinedSymbol := ⟨1, 0, none, "f", ".text", by decide⟩
    Recovers [f] [⟨1, 4, 2⟩] (uncoveredDefinedSymbolsThatStartAnAtom [f] [⟨1, 4, 2⟩]) ∧
      ReturnsGaps 1 10 [⟨1, 4, 2⟩] := by
  intro f
  have hwrap : NoWrap [f] [⟨1, 4, 2⟩] := by
    intro starts hstarts a ha b hb hab
    obtain rfl : a = 0 := Nat.lt_one_iff.1 ((hstarts a).1 ha).1.1
    obtain rfl : b = 0 := Nat.lt_one_iff.1 hb.1
    exact absurd hab (Before.irrefl 0)
  have hempty : NoEmptyAtomInGap 1 10 [⟨1, 4, 2⟩] := by
    intro z hz _ hlen
    rw [List.mem_singleton.1 hz] at hlen
    cases hlen
  have h := (atomRecovery_iff [f] [⟨1, 4, 2⟩] 1 10 (by decide)).2 ⟨hwrap, hempty⟩
  exact ⟨h.1, h.2.2⟩

theorem atomRecovery_emptyAtom :
    unownedByteRangesOfSection 1 10 [⟨1, 5, 0⟩] = [⟨1, 0, 5⟩, ⟨1, 5, 5⟩] ∧
      MaximalGap 1 10 [⟨1, 5, 0⟩] 0 10 ∧ ¬ ReturnsGaps 1 10 [⟨1, 5, 0⟩] := by
  have hno : ∀ b, ¬ Owned 1 [⟨1, 5, 0⟩] b := by
    rintro b ⟨a, ha, -, hle, hlt⟩
    rw [List.mem_singleton.1 ha] at hle hlt
    simp only at hle hlt
    omega
  have hmax : MaximalGap 1 10 [⟨1, 5, 0⟩] 0 10 :=
    ⟨by decide, Nat.le_refl _, fun b _ _ => hno b, .inl rfl, .inl rfl⟩
  have hgaps : unownedByteRangesOfSection 1 10 [⟨1, 5, 0⟩] = [⟨1, 0, 5⟩, ⟨1, 5, 5⟩] := by
    simp [unownedByteRangesOfSection, gapsFrom]
  refine ⟨hgaps, hmax, fun hret => ?_⟩
  have hmem := (hret.1 ⟨1, 0, 10⟩).2 ⟨rfl, hmax⟩
  rw [hgaps] at hmem
  exact absurd hmem (by decide)

end DssPrime.AtomCoverage
