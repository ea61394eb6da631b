import DssPrime.Types.ReinternHost
import Mathlib

/-!
# Composites that are complete at once

The overloads of `structType` and `unionType` (`type_lattice.cpp`) mint a composite under a key made
of its own content and complete it in one call. A channel is not named in the key, and neither
is one that is not used.
-/

namespace DssPrime

variable {K : Type} [DecidableEq K]

def countedWords {A : Type} (word : A → UInt64) (channel : List A) : List UInt64 :=
  if channel = [] then [] else channel.length.toUInt64 :: channel.map word

def numberWord (n : UInt32) : List UInt64 := if n = 0 then [] else [n.toUInt64]

def channelWords (fieldOffsets : List UInt64) (fieldAligns : List UInt32) (packed : Bool)
    (explicitAlign maxFieldAlign : UInt32) (fieldPacked : List Bool) : List UInt64 :=
  countedWords id fieldOffsets ++ (countedWords UInt32.toUInt64 fieldAligns ++
    ((if packed then [1] else []) ++ (numberWord explicitAlign ++ (numberWord maxFieldAlign ++
      countedWords (fun p => if p then 1 else 0) fieldPacked))))

def contentDeclSiteKey (mix : List UInt64 → K) (fields : List UInt32)
    (bitWidthScalars fieldOffsets : List UInt64) (fieldAligns : List UInt32) (packed : Bool)
    (explicitAlign maxFieldAlign : UInt32) (fieldPacked : List Bool) : K :=
  mix (fields.length.toUInt64 :: (fields.map UInt32.toUInt64 ++
    (bitWidthScalars.length.toUInt64 :: (bitWidthScalars ++
      channelWords fieldOffsets fieldAligns packed explicitAlign maxFieldAlign fieldPacked))))

/-- A complete struct; the shorter overloads leave the last channels empty. -/
def Host.structType (mix : List UInt64 → K) (h : Host K) (name : List UInt8) (fields : List UInt32)
    (fieldBitWidths : List (Option UInt64)) (fieldOffsets : List UInt64)
    (fieldAligns : List UInt32) (explicitAlign maxFieldAlign : UInt32) (fieldPacked : List Bool) :
    Except ReinternFatal (ℕ × Host K) := do
  let sc := encodeFieldBitWidths fields.length fieldBitWidths
  let (id, h) := h.forwardComposite .struct name
    (contentDeclSiteKey mix fields sc fieldOffsets fieldAligns false explicitAlign maxFieldAlign
      fieldPacked)
  let h ← h.completeComposite id ⟨fields.map UInt32.toNat, false, fieldBitWidths, fieldOffsets,
    fieldAligns, explicitAlign, maxFieldAlign, fieldPacked⟩
  .ok (id, h)

def Host.unionType (mix : List UInt64 → K) (h : Host K) (name : List UInt8)
    (variants : List UInt32) (fieldBitWidths : List (Option UInt64)) :
    Except ReinternFatal (ℕ × Host K) := do
  let sc := encodeFieldBitWidths variants.length fieldBitWidths
  let (id, h) := h.forwardComposite .union name
    (contentDeclSiteKey mix variants sc [] [] false 0 0 [])
  let h ← h.completeComposite id ⟨variants.map UInt32.toNat, false, fieldBitWidths, [], [], 0,
    0, []⟩
  .ok (id, h)

/-- A call that makes a composite. -/
inductive CompositeCall where
  | structType (name : List UInt8) (fields : List UInt32) (fieldBitWidths : List (Option UInt64))
    (fieldOffsets : List UInt64) (fieldAligns : List UInt32) (explicitAlign maxFieldAlign : UInt32)
    (fieldPacked : List Bool)
  | unionType (name : List UInt8) (variants : List UInt32) (fieldBitWidths : List (Option UInt64))

def CompositeCall.run (mix : List UInt64 → K) (h : Host K) :
    CompositeCall → Except ReinternFatal (ℕ × Host K)
  | .structType name fields widths offsets aligns explicitAlign maxFieldAlign packed =>
    h.structType mix name fields widths offsets aligns explicitAlign maxFieldAlign packed
  | .unionType name variants widths => h.unionType mix name variants widths

namespace CompositeCall

def kind : CompositeCall → TypeKind
  | .structType .. => .struct
  | .unionType .. => .union

def name : CompositeCall → List UInt8
  | .structType name .. => name
  | .unionType name .. => name

def fields : CompositeCall → List UInt32
  | .structType _ fields .. => fields
  | .unionType _ variants _ => variants

def bitWidthScalars : CompositeCall → List UInt64
  | .structType _ fields widths .. => encodeFieldBitWidths fields.length widths
  | .unionType _ variants widths => encodeFieldBitWidths variants.length widths

def fieldOffsets : CompositeCall → List UInt64
  | .structType _ _ _ offsets .. => offsets
  | .unionType .. => []

def fieldAligns : CompositeCall → List UInt32
  | .structType _ _ _ _ aligns .. => aligns
  | .unionType .. => []

def explicitAlign : CompositeCall → UInt32
  | .structType _ _ _ _ _ align .. => align
  | .unionType .. => 0

def maxFieldAlign : CompositeCall → UInt32
  | .structType _ _ _ _ _ _ cap _ => cap
  | .unionType .. => 0

def fieldPacked : CompositeCall → List Bool
  | .structType _ _ _ _ _ _ _ packed => packed
  | .unionType .. => []

def shape : CompositeCall → CompositeShape
  | .structType _ fields widths offsets aligns explicitAlign maxFieldAlign packed =>
    ⟨fields.map UInt32.toNat, false, widths, offsets, aligns, explicitAlign, maxFieldAlign, packed⟩
  | .unionType _ variants widths =>
    ⟨variants.map UInt32.toNat, false, widths, [], [], 0, 0, []⟩

def words (c : CompositeCall) : List UInt64 :=
  contentDeclSiteKey id c.fields c.bitWidthScalars c.fieldOffsets c.fieldAligns false
    c.explicitAlign c.maxFieldAlign c.fieldPacked

def Admissible (c : CompositeCall) : Prop := c.shape.Admissible ∧ c.fields.length < 2 ^ 64

def SameFields (c d : CompositeCall) : Prop :=
  c.kind = d.kind ∧ c.name = d.name ∧ c.fields = d.fields ∧ c.bitWidthScalars = d.bitWidthScalars

def Same (c d : CompositeCall) : Prop :=
  c.SameFields d ∧ c.fieldOffsets = d.fieldOffsets ∧ c.fieldAligns = d.fieldAligns ∧
    c.explicitAlign = d.explicitAlign ∧ c.maxFieldAlign = d.maxFieldAlign ∧
    c.fieldPacked = d.fieldPacked

def SameChannels (c d : CompositeCall) : Prop :=
  (c.fieldOffsets = [] ↔ d.fieldOffsets = []) ∧ (c.fieldAligns = [] ↔ d.fieldAligns = []) ∧
    (c.explicitAlign = 0 ↔ d.explicitAlign = 0) ∧ (c.maxFieldAlign = 0 ↔ d.maxFieldAlign = 0) ∧
    (c.fieldPacked = [] ↔ d.fieldPacked = [])

/-- The numbers a call states, in the three groups the key keeps in their order: offsets or
alignments of the members, then the alignment and the cap of the whole, then the packed flags. -/
structure ChannelGroups where
  front : List UInt64
  scalars : List UInt64
  flags : List UInt64

def groups (c : CompositeCall) : ChannelGroups where
  front := c.fieldOffsets ++ c.fieldAligns.map UInt32.toUInt64
  scalars := ([c.explicitAlign, c.maxFieldAlign].filter (· ≠ 0)).map UInt32.toUInt64
  flags := c.fieldPacked.map fun p => if p then 1 else 0

/-- The ways in which the numbers of one call over `n` fields can be read as those of another. -/
inductive ChannelGroups.Reads (n : ℕ) : ChannelGroups → ChannelGroups → Prop
  /-- Offsets as alignments of the members, or the alignment as the cap. -/
  | sameGroups (g : ChannelGroups) : Reads n g g
  /-- The packed flag of a single field, as an alignment of 1 under a cap of 1. -/
  | flagAsScalars (front : List UInt64) (hn : n = 1) :
    Reads n ⟨front, [], [1]⟩ ⟨front, [1, 1], []⟩
  /-- The offset or alignment of a single field, as the cap under an alignment of 1. -/
  | memberAsScalars (x : UInt64) (flags : List UInt64) (hn : n = 1) :
    Reads n ⟨[x], [], flags⟩ ⟨[], [1, x], flags⟩
  /-- Offsets or alignments of 0 and 1, as packed flags. -/
  | membersAsFlags (front : List UInt64) : Reads n ⟨front, [], []⟩ ⟨[], [], front⟩
  /-- Offsets or alignments and an alignment or cap of 1, as an alignment or cap that is the number
  of fields, and packed flags. -/
  | withOneScalar (front flags : List UInt64) (h : front ++ [1] = n.toUInt64 :: flags) :
    Reads n ⟨front, [1], []⟩ ⟨[], [n.toUInt64], flags⟩
  /-- The same with both of them. -/
  | withTwoScalars (front flags : List UInt64) (x : UInt64)
    (h : front ++ [1, 1] = x :: n.toUInt64 :: flags) :
    Reads n ⟨front, [1, 1], []⟩ ⟨[], [n.toUInt64, x], flags⟩

/-- Two calls over the same fields use different channels, and the numbers of one can be read as
those of the other. -/
def Mistaken (c d : CompositeCall) : Prop :=
  c.SameFields d ∧ ¬ c.SameChannels d ∧
    (ChannelGroups.Reads c.fields.length c.groups d.groups ∨
      ChannelGroups.Reads c.fields.length d.groups c.groups)

/-- The numbers that a call writes into its channels, in their order: offsets, alignments of members
and packed flags after their count, the alignment and the cap alone. -/
def numbers (c : CompositeCall) : List UInt64 :=
  channelWords c.fieldOffsets c.fieldAligns false c.explicitAlign c.maxFieldAlign c.fieldPacked

namespace ChannelGroups

/-- Groups as an interner admits them over `n` fields. -/
structure Sized (n : ℕ) (g : ChannelGroups) : Prop where
  front : g.front = [] ∨ g.front.length = n
  flags : g.flags = [] ∨ g.flags.length = n
  scalars : g.scalars.length ≤ 2
  nonzero : ∀ x ∈ g.scalars, x ≠ 0
  bits : ∀ x ∈ g.flags, x = 0 ∨ x = 1

/-- A list of numbers, one a field, after the number of fields; nothing for an empty list. -/
def countedBy (n : ℕ) (l : List UInt64) : List UInt64 := if l = [] then [] else n.toUInt64 :: l

/-- The words of the groups in the key. -/
def words (n : ℕ) (g : ChannelGroups) : List UInt64 :=
  countedBy n g.front ++ (g.scalars ++ countedBy n g.flags)

variable {n : ℕ} {g g' : ChannelGroups}

@[simp]
theorem countedBy_nil : countedBy n [] = [] := if_pos rfl

theorem countedBy_of_ne {l : List UInt64} (h : l ≠ []) :
    countedBy n l = n.toUInt64 :: l := if_neg h

theorem Reads.words_eq (h : Reads n g g') : g.words n = g'.words n := by
  cases h with
  | sameGroups => rfl
  | flagAsScalars front hn =>
    subst hn
    simp [words, countedBy]
  | memberAsScalars x flags hn =>
    subst hn
    simp [words, countedBy]
  | membersAsFlags front => simp [words]
  | withOneScalar front flags h =>
    cases front with
    | nil =>
      obtain ⟨h1, rfl⟩ := List.cons.inj h
      simp [words, h1]
    | cons y front =>
      have hflags : flags ≠ [] := by
        rintro rfl
        simp at h
      simp [words, countedBy, hflags, ← h]
  | withTwoScalars front flags x h =>
    cases front with
    | nil =>
      obtain ⟨h1, htail⟩ := List.cons.inj h
      obtain ⟨h2, rfl⟩ := List.cons.inj htail
      simp only [words, countedBy_nil, List.nil_append, List.append_nil]
      rw [← h1, ← h2]
    | cons y front =>
      have hflags : flags ≠ [] := by
        rintro rfl
        have := congrArg List.length h
        simp at this
      simp [words, countedBy, hflags, ← h]

/-- Without packed flags on the one side, the flags on the other end the alignment and the cap. -/
theorem reads_of_flags {front s p s' : List UInt64} (hp : p ≠ []) (hlen : p.length = n)
    (hs : s'.length ≤ 2) (hnz : ∀ x ∈ s', x ≠ 0) (hbits : ∀ x ∈ p, x = 0 ∨ x = 1)
    (h : s ++ countedBy n p = s') :
    Reads n ⟨front, s, p⟩ ⟨front, s', []⟩ := by
  rw [countedBy_of_ne hp] at h
  have hlen' := congrArg List.length h
  rw [List.length_append, List.length_cons, hlen] at hlen'
  have hpos := List.length_pos_of_ne_nil hp
  obtain rfl : n = 1 := by omega
  obtain rfl : s = [] := List.length_eq_zero_iff.1 (by omega)
  obtain ⟨x, rfl⟩ := List.length_eq_one_iff.1 hlen
  subst h
  obtain rfl : x = 1 := (hbits x (by simp)).resolve_left (hnz x (by simp))
  exact .flagAsScalars front rfl

/-- A list of members on one side only is a single number that ends an alignment and a cap. -/
theorem reads_of_front {f s s' p : List UInt64} (hf : f ≠ []) (hlen : f.length = n)
    (hs : s'.length ≤ 2) (h : countedBy n f ++ s = s') :
    Reads n ⟨f, s, p⟩ ⟨[], s', p⟩ := by
  rw [countedBy_of_ne hf] at h
  have hlen' := congrArg List.length h
  rw [List.length_append, List.length_cons, hlen] at hlen'
  have hpos := List.length_pos_of_ne_nil hf
  obtain rfl : n = 1 := by omega
  obtain rfl : s = [] := List.length_eq_zero_iff.1 (by omega)
  obtain ⟨x, rfl⟩ := List.length_eq_one_iff.1 hlen
  subst h
  exact .memberAsScalars x p rfl

/-- Members on one side and flags on the other: the alignments and caps overlap both. -/
theorem reads_of_front_flags {f s s' p : List UInt64} (hf : f ≠ []) (hp : p ≠ [])
    (hfn : f.length = n) (hpn : p.length = n) (hs : s.length ≤ 2) (hnz : ∀ x ∈ s, x ≠ 0)
    (hbits : ∀ x ∈ p, x = 0 ∨ x = 1) (h : countedBy n f ++ s = s' ++ countedBy n p) :
    Reads n ⟨f, s, []⟩ ⟨[], s', p⟩ := by
  rw [countedBy_of_ne hf, countedBy_of_ne hp] at h
  have hslen : s.length = s'.length := by
    have := congrArg List.length h
    simp only [List.length_append, List.length_cons] at this
    omega
  have hone : ∀ x ∈ s, x ∈ p → x = 1 := fun x hx hxp => (hbits x hxp).resolve_left (hnz x hx)
  -- the last words of the alignment and the cap are the last flags
  obtain ⟨p', q, rfl⟩ := (List.eq_nil_or_concat p).resolve_left hp
  rw [List.concat_eq_append] at *
  match s, s', hslen with
  | [], [], _ =>
    obtain rfl : f = p' ++ [q] := by simpa using h
    exact .membersAsFlags _
  | [a], [b], _ =>
    obtain ⟨rfl, htail⟩ : n.toUInt64 = b ∧ f ++ [a] = (n.toUInt64 :: p') ++ [q] := by
      simpa using h
    obtain rfl : a = q := by simpa using (List.append_inj' htail rfl).2
    obtain rfl : a = 1 := hone a (by simp) (by simp)
    exact .withOneScalar f _ htail
  | [a, a'], [b, b'], _ =>
    obtain ⟨rfl, htail⟩ : n.toUInt64 = b ∧
        (f ++ [a]) ++ [a'] = (b' :: n.toUInt64 :: p') ++ [q] := by simpa using h
    obtain ⟨hfront, hlast⟩ := List.append_inj' htail rfl
    obtain rfl : a' = q := by simpa using hlast
    obtain rfl : a' = 1 := hone a' (by simp) (by simp)
    have ha : a = 1 := by
      rcases List.eq_nil_or_concat p' with rfl | ⟨p'', q', rfl⟩
      · -- a single flag: the word before it is the number of fields
        obtain rfl : 1 = n := by simpa using hpn
        have hsplit : f ++ [a] = [b'] ++ [(1 : ℕ).toUInt64] := hfront
        simpa using (List.append_inj' hsplit rfl).2
      · rw [List.concat_eq_append] at hfront hone
        have hsplit : f ++ [a] = (b' :: n.toUInt64 :: p'') ++ [q'] := by simpa using hfront
        obtain rfl : a = q' := by simpa using (List.append_inj' hsplit rfl).2
        exact hone a (by simp) (by simp)
    subst ha
    exact .withTwoScalars f _ b' (by simpa using htail)
  | _ :: _ :: _ :: _, _, _ => simp at hs

theorem countedBy_append_inj {l l' r r' : List UInt64} (hlen : l.length = l'.length)
    (h : countedBy n l ++ r = countedBy n l' ++ r') : l = l' ∧ r = r' := by
  have hnil : l = [] ↔ l' = [] := by
    rw [← List.length_eq_zero_iff, ← List.length_eq_zero_iff, hlen]
  by_cases hl : l = []
  · rw [hl, hnil.1 hl] at h
    exact ⟨hl.trans (hnil.1 hl).symm, h⟩
  · rw [countedBy_of_ne hl, countedBy_of_ne fun hl' => hl (hnil.2 hl')] at h
    exact List.append_inj (List.cons.inj h).2 hlen

theorem append_countedBy_inj {l l' r r' : List UInt64} (hlen : r.length = r'.length)
    (h : l ++ countedBy n r = l' ++ countedBy n r') : l = l' ∧ r = r' := by
  have hnil : r = [] ↔ r' = [] := by
    rw [← List.length_eq_zero_iff, ← List.length_eq_zero_iff, hlen]
  by_cases hr : r = []
  · rw [hr, hnil.1 hr] at h
    exact ⟨by simpa using h, hr.trans (hnil.1 hr).symm⟩
  · rw [countedBy_of_ne hr, countedBy_of_ne fun hr' => hr (hnil.2 hr')] at h
    obtain ⟨h1, h2⟩ := List.append_inj' h (by simp [hlen])
    exact ⟨h1, (List.cons.inj h2).2⟩

/-- Where the first call has a list of members and the second has none. -/
theorem reads_of_front_only (hg : Sized n g) (hg' : Sized n g') (hf : g.front ≠ [])
    (hf' : g'.front = []) (h : g.words n = g'.words n) : Reads n g g' := by
  obtain ⟨f, s, p⟩ := g
  obtain ⟨f', s', p'⟩ := g'
  obtain rfl : f' = [] := hf'
  have hfn : f.length = n := hg.front.resolve_left hf
  have hpos := List.length_pos_of_ne_nil hf
  have hcap := hg'.scalars
  simp only [words, countedBy_nil, List.nil_append] at h hf hcap hpos
  by_cases hp : p = []
  · by_cases hp' : p' = []
    · subst hp hp'
      rw [countedBy_nil, List.append_nil, List.append_nil] at h
      exact reads_of_front hf hfn hcap h
    · subst hp
      rw [countedBy_nil, List.append_nil] at h
      exact reads_of_front_flags hf hp' hfn (hg'.flags.resolve_left hp') hg.scalars hg.nonzero
        hg'.bits h
  · have hpn : p.length = n := hg.flags.resolve_left hp
    by_cases hp' : p' = []
    · -- two lists with their counts do not fit into an alignment and a cap
      subst hp'
      have hlen := congrArg List.length h
      rw [countedBy_of_ne hf, countedBy_of_ne hp, countedBy_nil] at hlen
      simp only [List.length_append, List.length_cons, List.length_nil] at hlen
      omega
    · have hlen : p.length = p'.length := hpn.trans (hg'.flags.resolve_left hp').symm
      rw [← List.append_assoc] at h
      obtain ⟨hshort, rfl⟩ := append_countedBy_inj hlen h
      exact reads_of_front hf hfn hcap hshort

/-- Where both calls have a list of members, or neither has. -/
theorem reads_of_front_iff (hg : Sized n g) (hg' : Sized n g')
    (hf : g.front.length = g'.front.length) (h : g.words n = g'.words n) :
    Reads n g g' ∨ Reads n g' g := by
  obtain ⟨f, s, p⟩ := g
  obtain ⟨f', s', p'⟩ := g'
  obtain ⟨rfl, h⟩ := countedBy_append_inj hf h
  simp only at h
  by_cases hp : p = []
  · by_cases hp' : p' = []
    · subst hp hp'
      obtain rfl : s = s' := by simpa using h
      exact .inl (.sameGroups _)
    · subst hp
      rw [countedBy_nil, List.append_nil] at h
      exact .inr (reads_of_flags hp' (hg'.flags.resolve_left hp') hg.scalars hg.nonzero hg'.bits
        h.symm)
  · by_cases hp' : p' = []
    · subst hp'
      rw [countedBy_nil, List.append_nil] at h
      exact .inl (reads_of_flags hp (hg.flags.resolve_left hp) hg'.scalars hg'.nonzero hg.bits h)
    · have hlen : p.length = p'.length :=
        (hg.flags.resolve_left hp).trans (hg'.flags.resolve_left hp').symm
      obtain ⟨rfl, rfl⟩ := append_countedBy_inj hlen h
      exact .inl (.sameGroups _)

theorem words_eq_iff_reads (hg : Sized n g) (hg' : Sized n g') :
    g.words n = g'.words n ↔ Reads n g g' ∨ Reads n g' g := by
  refine ⟨fun h => ?_, fun h => h.elim Reads.words_eq fun h => h.words_eq.symm⟩
  by_cases hf : g.front = []
  · by_cases hf' : g'.front = []
    · exact reads_of_front_iff hg hg' (by rw [hf, hf']) h
    · exact .inr (reads_of_front_only hg' hg hf' hf h.symm)
  · by_cases hf' : g'.front = []
    · exact .inl (reads_of_front_only hg hg' hf hf' h)
    · exact reads_of_front_iff hg hg'
        ((hg.front.resolve_left hf).trans (hg'.front.resolve_left hf').symm) h

end ChannelGroups

section Words

variable {c d : CompositeCall} {A : Type} {word : A → UInt64} {l l' : List A} {r r' : List UInt64}

theorem toUInt64_inj {m n : ℕ} (hm : m < 2 ^ 64) (hn : n < 2 ^ 64)
    (h : m.toUInt64 = n.toUInt64) : m = n := by
  have := congrArg UInt64.toNat h
  rwa [Nat.toUInt64_eq, Nat.toUInt64_eq, UInt64.toNat_ofNat_of_lt' hm,
    UInt64.toNat_ofNat_of_lt' hn] at this

theorem countedWords_append_inj (hword : Function.Injective word) (hlen : l.length = l'.length)
    (h : countedWords word l ++ r = countedWords word l' ++ r') : l = l' ∧ r = r' := by
  have hnil : l = [] ↔ l' = [] := by
    rw [← List.length_eq_zero_iff, ← List.length_eq_zero_iff, hlen]
  unfold countedWords at h
  by_cases hl : l = []
  · rw [if_pos hl, if_pos (hnil.1 hl)] at h
    exact ⟨hl.trans (hnil.1 hl).symm, h⟩
  · rw [if_neg hl, if_neg fun hl' => hl (hnil.2 hl'), List.cons_append, List.cons_append,
      List.cons.injEq] at h
    obtain ⟨hmap, hr⟩ := List.append_inj h.2 (by simpa using hlen)
    exact ⟨hword.list_map hmap, hr⟩

theorem numberWord_append_inj {m n : UInt32} (hzero : m = 0 ↔ n = 0)
    (h : numberWord m ++ r = numberWord n ++ r') : m = n ∧ r = r' := by
  unfold numberWord at h
  by_cases hm : m = 0
  · rw [if_pos hm, if_pos (hzero.1 hm)] at h
    exact ⟨hm.trans (hzero.1 hm).symm, h⟩
  · rw [if_neg hm, if_neg fun hn => hm (hzero.2 hn), List.singleton_append, List.singleton_append,
      List.cons.injEq] at h
    exact ⟨UInt32.toUInt64_inj.1 h.1, h.2⟩

theorem encodeFieldBitWidths_length_le (n : ℕ) (widths : List (Option UInt64)) :
    (encodeFieldBitWidths n widths).length ≤ n := by
  unfold encodeFieldBitWidths
  split
  · simp
  · exact Nat.zero_le n

theorem bitWidthScalars_length_le (c : CompositeCall) :
    c.bitWidthScalars.length ≤ c.fields.length := by
  cases c with
  | structType => exact encodeFieldBitWidths_length_le _ _
  | unionType => exact encodeFieldBitWidths_length_le _ _

theorem Admissible.lengths (hc : c.Admissible) :
    (c.fieldOffsets = [] ∨ c.fieldOffsets.length = c.fields.length) ∧
    (c.fieldAligns = [] ∨ c.fieldAligns.length = c.fields.length) ∧
    (c.fieldPacked = [] ∨ c.fieldPacked.length = c.fields.length) := by
  obtain ⟨⟨hoffsets, haligns, -, -, hpacked, -⟩, -⟩ := hc
  cases c with
  | structType =>
    simp only [shape, List.length_map] at hoffsets haligns hpacked
    exact ⟨hoffsets, haligns, hpacked⟩
  | unionType => exact ⟨.inl rfl, .inl rfl, .inl rfl⟩

theorem countedWords_eq {n : ℕ} (h : l = [] ∨ l.length = n) :
    countedWords word l = ChannelGroups.countedBy n (l.map word) := by
  by_cases hl : l = []
  · simp [countedWords, hl]
  · rw [ChannelGroups.countedBy_of_ne (by simpa using hl), countedWords, if_neg hl,
      h.resolve_left hl]

theorem Admissible.sized (hc : c.Admissible) : c.groups.Sized c.fields.length where
  front := by
    obtain ⟨hoffsets, haligns, -⟩ := hc.lengths
    obtain ⟨⟨-, -, hone, -⟩, -⟩ := hc
    have hone : c.fieldAligns = [] ∨ c.fieldOffsets = [] := by
      cases c with
      | structType => exact hone
      | unionType => exact .inl rfl
    rcases hone with h | h
    · simpa [groups, h] using hoffsets
    · simpa [groups, h] using haligns
  flags := by simpa [groups] using hc.lengths.2.2
  scalars := by
    rw [groups, List.length_map]
    exact List.length_filter_le _ _
  nonzero := by
    intro x hx
    obtain ⟨y, hy, rfl⟩ := List.mem_map.1 hx
    have hne : y ≠ 0 := by simpa using (List.mem_filter.1 hy).2
    exact fun h => hne (UInt32.toUInt64_inj.1 h)
  bits := by
    intro x hx
    obtain ⟨b, -, rfl⟩ := List.mem_map.1 hx
    cases b <;> simp

theorem Admissible.numbers_eq (hc : c.Admissible) :
    c.numbers = c.groups.words c.fields.length := by
  obtain ⟨hoffsets, haligns, hpacked⟩ := hc.lengths
  have hone := hc.sized.front
  obtain ⟨⟨-, -, hsplit, -⟩, -⟩ := hc
  have hsplit : c.fieldAligns = [] ∨ c.fieldOffsets = [] := by
    cases c with
    | structType => exact hsplit
    | unionType => exact .inl rfl
  have hscalars : numberWord c.explicitAlign ++ numberWord c.maxFieldAlign = c.groups.scalars := by
    unfold groups numberWord
    by_cases ha : c.explicitAlign = 0 <;> by_cases hm : c.maxFieldAlign = 0 <;> simp [ha, hm]
  have hfront : countedWords id c.fieldOffsets ++ countedWords UInt32.toUInt64 c.fieldAligns =
      ChannelGroups.countedBy c.fields.length c.groups.front := by
    rw [countedWords_eq hoffsets, countedWords_eq haligns]
    rcases hsplit with h | h
    · simp [groups, h]
    · simp [groups, h]
  unfold numbers channelWords ChannelGroups.words
  rw [← hfront, ← hscalars, countedWords_eq hpacked]
  simp [groups]

theorem words_eq_iff (hc : c.Admissible) (hd : d.Admissible) : c.words = d.words ↔
    c.fields = d.fields ∧ c.bitWidthScalars = d.bitWidthScalars ∧ c.numbers = d.numbers := by
  constructor
  · intro h
    unfold words contentDeclSiteKey at h
    rw [id, id, List.cons.injEq] at h
    have hlen := toUInt64_inj hc.2 hd.2 h.1
    obtain ⟨hfields, hrest⟩ := List.append_inj h.2 (by simpa using hlen)
    rw [List.cons.injEq] at hrest
    have hscalars := toUInt64_inj ((bitWidthScalars_length_le c).trans_lt hc.2)
      ((bitWidthScalars_length_le d).trans_lt hd.2) hrest.1
    obtain ⟨hsc, hnumbers⟩ := List.append_inj hrest.2 hscalars
    refine ⟨?_, hsc, hnumbers⟩
    exact Function.Injective.list_map (fun _ _ => UInt32.toUInt64_inj.1) hfields
  · rintro ⟨hfields, hsc, hnumbers⟩
    unfold numbers at hnumbers
    unfold words contentDeclSiteKey
    rw [hfields, hsc, hnumbers]

theorem Same.numbers_eq (h : c.Same d) : c.numbers = d.numbers := by
  obtain ⟨-, hoffsets, haligns, halign, hcap, hpacked⟩ := h
  unfold numbers
  rw [hoffsets, haligns, halign, hcap, hpacked]

/-- Calls over the same fields write the same numbers exactly if those of one can be read as those
of the other. -/
theorem numbers_eq_iff (hc : c.Admissible) (hd : d.Admissible) (hfields : c.fields = d.fields) :
    c.numbers = d.numbers ↔ ChannelGroups.Reads c.fields.length c.groups d.groups ∨
      ChannelGroups.Reads c.fields.length d.groups c.groups := by
  have hsized := hd.sized
  rw [hc.numbers_eq, hd.numbers_eq, ← hfields]
  rw [← hfields] at hsized
  exact ChannelGroups.words_eq_iff_reads hc.sized hsized

theorem Same.sameChannels (h : c.Same d) : c.SameChannels d := by
  obtain ⟨-, hoffsets, haligns, halign, hcap, hpacked⟩ := h
  unfold SameChannels
  rw [hoffsets, haligns, halign, hcap, hpacked]
  exact ⟨Iff.rfl, Iff.rfl, Iff.rfl, Iff.rfl, Iff.rfl⟩

theorem same_of_numbers (hc : c.Admissible) (hd : d.Admissible) (hfields : c.SameFields d)
    (hchannels : c.SameChannels d) (h : c.numbers = d.numbers) : c.Same d := by
  obtain ⟨hcoff, hcal, hcpk⟩ := hc.lengths
  obtain ⟨hdoff, hdal, hdpk⟩ := hd.lengths
  obtain ⟨hoff, hal, halign, hcap, hpk⟩ := hchannels
  have hlen : ∀ {A : Type} {l l' : List A}, (l = [] ∨ l.length = c.fields.length) →
      (l' = [] ∨ l'.length = d.fields.length) → (l = [] ↔ l' = []) → l.length = l'.length := by
    intro A l l' hl hl' hnil
    by_cases h0 : l = []
    · rw [h0, hnil.1 h0]
    · rw [hl.resolve_left h0, hl'.resolve_left fun h0' => h0 (hnil.2 h0'), hfields.2.2.1]
  unfold numbers channelWords at h
  obtain ⟨h1, h⟩ := countedWords_append_inj Function.injective_id (hlen hcoff hdoff hoff) h
  obtain ⟨h2, h⟩ := countedWords_append_inj (fun _ _ => UInt32.toUInt64_inj.1)
    (hlen hcal hdal hal) h
  rw [List.append_cancel_left_eq] at h
  obtain ⟨h3, h⟩ := numberWord_append_inj halign h
  obtain ⟨h4, h⟩ := numberWord_append_inj hcap h
  have hflag : Function.Injective fun p : Bool => if p then (1 : UInt64) else 0 := by decide
  rw [← List.append_nil (countedWords _ c.fieldPacked),
    ← List.append_nil (countedWords _ d.fieldPacked)] at h
  exact ⟨hfields, h1, h2, h3, h4, (countedWords_append_inj hflag (hlen hcpk hdpk hpk) h).1⟩

end Words

def made (c : CompositeCall) : TypeRecord :=
  (contentRecord c.kind 0 [] [] c.name).completed c.shape

theorem run_eq (mix : List UInt64 → K) (h : Host K) (c : CompositeCall) : c.run mix h =
    ((h.forwardComposite c.kind c.name (mix c.words)).2.completeComposite
      (h.forwardComposite c.kind c.name (mix c.words)).1 c.shape).map fun h' =>
        ((h.forwardComposite c.kind c.name (mix c.words)).1, h') := by
  cases c with
  | structType => rfl
  | unionType => rfl

theorem stated_injective {A : Type} {l l' : List A} (h : stated l = stated l') : l = l' := by
  cases l with
  | nil =>
    cases l' with
    | nil => rfl
    | cons => cases h
  | cons =>
    cases l' with
    | nil => cases h
    | cons => exact Option.some.inj h

theorem made_eq_iff {c d : CompositeCall} : c.made = d.made ↔ c.Same d := by
  have hparts : ∀ c : CompositeCall, c.made =
      { contentRecord c.kind 0 [] [] c.name with
        operands := c.fields.map UInt32.toNat
        scalars := c.bitWidthScalars
        composite := ⟨true, false, c.explicitAlign, c.maxFieldAlign, stated c.fieldOffsets,
          stated c.fieldAligns, stated c.fieldPacked⟩ } := by
    intro c
    cases c with
    | structType =>
      simp [made, TypeRecord.completed, shape, kind, name, fields, bitWidthScalars, explicitAlign,
        maxFieldAlign, fieldOffsets, fieldAligns, fieldPacked]
    | unionType =>
      simp [made, TypeRecord.completed, shape, kind, name, fields, bitWidthScalars, explicitAlign,
        maxFieldAlign, fieldOffsets, fieldAligns, fieldPacked]
  rw [hparts c, hparts d]
  constructor
  · intro h
    have hkind : c.kind = d.kind := congrArg TypeRecord.kind h
    have hname : c.name = d.name := congrArg TypeRecord.name h
    have hfields := congrArg TypeRecord.operands h
    have hsc : c.bitWidthScalars = d.bitWidthScalars := congrArg TypeRecord.scalars h
    have hdata := congrArg TypeRecord.composite h
    simp only [CompositeData.mk.injEq, true_and] at hdata hfields
    obtain ⟨halign, hcap, hoff, hal, hpk⟩ := hdata
    refine ⟨⟨hkind, hname, ?_, hsc⟩, stated_injective hoff, stated_injective hal, halign, hcap,
      stated_injective hpk⟩
    exact Function.Injective.list_map (fun _ _ => UInt32.toNat_inj.1) hfields
  · rintro ⟨⟨hkind, hname, hfields, hsc⟩, hoff, hal, halign, hcap, hpk⟩
    rw [hkind, hname, hfields, hsc, hoff, hal, halign, hcap, hpk]

/-- The interners that a program can have, with the calls that returned and the types they
returned.  Composites by their place of declaration have keys that no content has: their high bit is
clear. -/
inductive Reaches (mix : List UInt64 → K) : Host K → List (CompositeCall × ℕ) → Prop
  | start : Reaches mix ⟨[]⟩ []
  | content {h h' log r id} (hr : Reaches mix h log) (hok : h.internContent r = .ok (id, h')) :
    Reaches mix h' log
  | forward {h log kind name key} (hr : Reaches mix h log) (hkey : ∀ words, key ≠ mix words) :
    Reaches mix (h.forwardComposite kind name key).2 log
  | complete {h h' log id t shape} (hr : Reaches mix h log) (ht : h.get? id = some t)
    (hkey : ∀ words, t.declSiteKey ≠ some (mix words))
    (hok : h.completeComposite id shape = .ok h') : Reaches mix h' log
  | call {h h' log c id} (hr : Reaches mix h log) (hc : c.Admissible)
    (hok : CompositeCall.run mix h c = .ok (id, h')) : Reaches mix h' ((c, id) :: log)

def Canonical (log : List (CompositeCall × ℕ)) : Prop :=
  ∀ x ∈ log, ∀ y ∈ log, x.2 = y.2 ↔ x.1.Same y.1

/-- The invariant of the calls. -/
structure Inv (mix : List UInt64 → K) (h : Host K) (log : List (CompositeCall × ℕ)) : Prop where
  distinct : h.Distinct
  logged : ∀ x ∈ log, x.1.Admissible ∧ h.get? x.2 = some ⟨x.1.made, some (mix x.1.words)⟩
  keyed : ∀ id t words, h.get? id = some t → t.declSiteKey = some (mix words) →
    ∃ c, (c, id) ∈ log

section Calls

variable {mix : List UInt64 → K} {h h' : Host K} {log : List (CompositeCall × ℕ)}
  {c : CompositeCall}

theorem made_kind (c : CompositeCall) : c.made.kind = c.kind := rfl

theorem made_name (c : CompositeCall) : c.made.name = c.name := rfl

theorem made_complete (c : CompositeCall) : c.made.composite.complete = true := rfl

theorem made_isComposite (c : CompositeCall) : c.made.IsComposite := by
  cases c with
  | structType => exact .inl rfl
  | unionType => exact .inr rfl

theorem made_completed {c d : CompositeCall} (hkind : d.kind = c.kind) (hname : d.name = c.name) :
    d.made.completed c.shape = c.made := by
  unfold made TypeRecord.completed contentRecord
  rw [hkind, hname]

omit [DecidableEq K] in
theorem Inv.canonical (hinv : Inv mix h log) : Canonical log := by
  intro x hx y hy
  obtain ⟨-, hgetx⟩ := hinv.logged x hx
  obtain ⟨-, hgety⟩ := hinv.logged y hy
  constructor
  · intro hid
    rw [hid, hgety] at hgetx
    have hmade : y.1.made = x.1.made := congrArg HostType.record (Option.some.inj hgetx)
    exact made_eq_iff.1 hmade.symm
  · intro hsame
    have hwords : x.1.words = y.1.words := by
      have hnumbers := hsame.numbers_eq
      unfold words
      unfold numbers at hnumbers
      unfold contentDeclSiteKey
      rw [hsame.1.2.2.1, hsame.1.2.2.2, hnumbers]
    exact hinv.distinct.key _ _ _ _ _ hgetx hgety rfl (by rw [hwords]) hsame.1.1 hsame.1.2.1

theorem run_of_logged (hinv : Inv mix h log) (hc : c.Admissible) {x : CompositeCall × ℕ}
    (hx : x ∈ log) (hkind : x.1.kind = c.kind) (hname : x.1.name = c.name)
    (hwords : x.1.words = c.words) :
    c.run mix h = if x.1.made = c.made then .ok (x.2, h) else .error .conflictingFields := by
  obtain ⟨-, hget⟩ := hinv.logged x hx
  have hfwd : h.forwardComposite c.kind c.name (mix c.words) = (x.2, h) := by
    unfold Host.forwardComposite
    cases hi : h.types.findIdx? fun t => decide (t.record.kind = c.kind ∧ t.record.name = c.name ∧
        t.declSiteKey = some (mix c.words)) with
    | none =>
      have hno := Host.not_of_findIdx?_eq_none hi hget
      rw [made_kind, made_name, hkind, hname, hwords] at hno
      simp at hno
    | some i =>
      obtain ⟨t, ht, hp⟩ := Host.get?_findIdx? hi
      obtain ⟨htkind, htname, htkey⟩ := of_decide_eq_true hp
      have hid := hinv.distinct.key _ _ _ _ _ ht hget htkey (by rw [hwords])
        (htkind.trans hkind.symm) (htname.trans hname.symm)
      simp only [hid]
  rw [run_eq, hfwd]
  simp only
  rw [Host.completeComposite_of_complete hget (made_isComposite _) rfl hc.1 (made_complete _)]
  rw [made_completed hkind hname]
  split_ifs
  · rfl
  · rfl

theorem run_of_new (hinv : Inv mix h log) (hmix : Function.Injective mix) (hc : c.Admissible)
    (hnew : ∀ x ∈ log, x.1.kind = c.kind → x.1.name = c.name → x.1.words ≠ c.words) :
    ∃ id h', c.run mix h = .ok (id, h') ∧ Inv mix h' ((c, id) :: log) := by
  have hno : ∀ id t, h.get? id = some t → t.declSiteKey = some (mix c.words) →
      t.record.kind = c.kind → t.record.name ≠ c.name := by
    intro id t ht htkey htkind htname
    obtain ⟨d, hd⟩ := hinv.keyed id t c.words ht htkey
    obtain ⟨-, hget⟩ := hinv.logged _ hd
    rw [ht] at hget
    obtain rfl := Option.some.inj hget
    exact hnew _ hd htkind htname (hmix (Option.some.inj htkey))
  have hnone : (h.types.findIdx? fun t => decide (t.record.kind = c.kind ∧
      t.record.name = c.name ∧ t.declSiteKey = some (mix c.words))) = none := by
    cases hi : h.types.findIdx? fun t => decide (t.record.kind = c.kind ∧ t.record.name = c.name ∧
        t.declSiteKey = some (mix c.words)) with
    | none => rfl
    | some i =>
      obtain ⟨t, ht, hp⟩ := Host.get?_findIdx? hi
      obtain ⟨htkind, htname, htkey⟩ := of_decide_eq_true hp
      exact absurd htname (hno _ _ ht htkey htkind)
  have hfwd : h.forwardComposite c.kind c.name (mix c.words) = (h.types.length + 1,
      ⟨h.types ++ [⟨contentRecord c.kind 0 [] [] c.name, some (mix c.words)⟩]⟩) := by
    unfold Host.forwardComposite
    rw [hnone]
  obtain ⟨hd, -⟩ := Host.forwardComposite_spec hinv.distinct c.kind c.name (mix c.words)
  rw [run_eq, hfwd]
  rw [hfwd] at hd
  simp only at hd ⊢
  have hget : (⟨h.types ++ [⟨contentRecord c.kind 0 [] [] c.name, some (mix c.words)⟩]⟩ :
      Host K).get? (h.types.length + 1) =
      some ⟨contentRecord c.kind 0 [] [] c.name, some (mix c.words)⟩ := by
    rw [Host.get?_snoc, if_pos rfl]
  obtain ⟨h', hok, hd', -, hnewget, hold⟩ := Host.completeComposite_of_incomplete hget
    (made_isComposite c) rfl hc.1 hd rfl
  have hback : ∀ id, id ≠ h.types.length + 1 → h'.get? id = h.get? id := by
    intro id hid
    rw [hold id hid, Host.get?_snoc, if_neg hid]
  refine ⟨_, h', by rw [hok]; rfl, hd', ?_, ?_⟩
  · intro x hx
    rcases List.mem_cons.1 hx with rfl | hx
    · exact ⟨hc, hnewget⟩
    · obtain ⟨hadm, hgetx⟩ := hinv.logged x hx
      exact ⟨hadm, (hback _ (Host.get?_lt hgetx)).trans hgetx⟩
  · intro id t words ht hkey
    by_cases hid : id = h.types.length + 1
    · exact ⟨c, hid ▸ List.mem_cons_self⟩
    · rw [hback id hid] at ht
      obtain ⟨d, hd⟩ := hinv.keyed id t words ht hkey
      exact ⟨d, List.mem_cons_of_mem _ hd⟩

omit [DecidableEq K] in
theorem Inv.grow (hinv : Inv mix h log) (hd : h'.Distinct)
    (hold : ∀ id t words, h.get? id = some t → t.declSiteKey = some (mix words) →
      h'.get? id = some t)
    (hnew : ∀ id t words, h'.get? id = some t → t.declSiteKey = some (mix words) →
      h.get? id = some t) : Inv mix h' log where
  distinct := hd
  logged := fun x hx => ⟨(hinv.logged x hx).1, hold _ _ _ (hinv.logged x hx).2 rfl⟩
  keyed := fun id t words ht hkey => hinv.keyed id t words (hnew id t words ht hkey) hkey

omit [DecidableEq K] in
theorem Inv.snoc (hinv : Inv mix h log) {s : HostType K}
    (hd : (⟨h.types ++ [s]⟩ : Host K).Distinct) (hs : ∀ words, s.declSiteKey ≠ some (mix words)) :
    Inv mix ⟨h.types ++ [s]⟩ log := by
  refine hinv.grow hd (fun id t words ht _ => ?_) (fun id t words ht hkey => ?_)
  · rw [Host.get?_snoc, if_neg (Host.get?_lt ht), ht]
  · rw [Host.get?_snoc] at ht
    split at ht
    · obtain rfl := Option.some.inj ht
      exact absurd hkey (hs words)
    · exact ht

theorem Inv.content (hinv : Inv mix h log) {r : TypeRecord} {id : ℕ}
    (hok : h.internContent r = .ok (id, h')) : Inv mix h' log := by
  have hext : r.kind = .extension ↔ r.extensionKind ≠ 0 := by
    by_contra hno
    rw [Host.internContent, if_pos fun h => hno (decide_eq_decide.1 h)] at hok
    cases hok
  obtain ⟨i, h'', hok', hd, -⟩ := Host.internContent_spec hinv.distinct hext
  rw [hok] at hok'
  cases hok'
  rw [Host.internContent, if_neg (not_not.2 (decide_eq_decide.2 hext))] at hok
  split at hok
  · cases hok
    exact hinv
  · cases hok
    exact hinv.snoc hd fun words hkey => by cases hkey

theorem Inv.forward (hinv : Inv mix h log) (kind : TypeKind) (name : List UInt8) {key : K}
    (hkey : ∀ words, key ≠ mix words) : Inv mix (h.forwardComposite kind name key).2 log := by
  obtain ⟨hd, -⟩ := Host.forwardComposite_spec hinv.distinct kind name key
  unfold Host.forwardComposite at hd ⊢
  split
  · exact hinv
  · next hnone =>
    rw [hnone] at hd
    exact hinv.snoc hd fun words h => hkey words (Option.some.inj h)

omit [DecidableEq K] in
theorem Inv.complete (hinv : Inv mix h log) {id : ℕ} {t : HostType K} {shape : CompositeShape}
    (ht : h.get? id = some t) (hkey : ∀ words, t.declSiteKey ≠ some (mix words))
    (hok : h.completeComposite id shape = .ok h') : Inv mix h' log := by
  have hparts : t.record.IsComposite ∧ (∃ k, t.declSiteKey = some k) ∧ shape.Admissible := by
    rw [Host.completeComposite, ht] at hok
    simp only at hok
    split at hok
    · cases hok
    · next hbad =>
      obtain ⟨hcomp, hnone⟩ := not_or.1 hbad
      split at hok
      · cases hok
      · next hadm =>
        exact ⟨not_not.1 hcomp, Option.ne_none_iff_exists'.1 hnone, not_not.1 hadm⟩
  obtain ⟨hcomp, ⟨k, hk⟩, hadm⟩ := hparts
  cases hdone : t.record.composite.complete with
  | true =>
    rw [Host.completeComposite_of_complete ht hcomp hk hadm hdone] at hok
    split at hok
    · cases hok
      exact hinv
    · cases hok
  | false =>
    obtain ⟨h'', hok', hd, -, hget, hback⟩ :=
      Host.completeComposite_of_incomplete ht hcomp hk hadm hinv.distinct hdone
    rw [hok] at hok'
    cases hok'
    refine hinv.grow hd (fun i s words hs hskey => ?_) (fun i s words hs hskey => ?_)
    · by_cases hi : i = id
      · rw [hi, ht] at hs
        obtain rfl := Option.some.inj hs
        exact absurd hskey (hkey words)
      · rw [hback i hi, hs]
    · by_cases hi : i = id
      · rw [hi, hget] at hs
        obtain rfl := Option.some.inj hs
        exact absurd (hk.trans hskey) (hkey words)
      · rwa [hback i hi] at hs

theorem Inv.call (hinv : Inv mix h log) (hmix : Function.Injective mix) (hc : c.Admissible) {id : ℕ}
    (hok : c.run mix h = .ok (id, h')) : Inv mix h' ((c, id) :: log) := by
  by_cases hold : ∃ x ∈ log, x.1.kind = c.kind ∧ x.1.name = c.name ∧ x.1.words = c.words
  · obtain ⟨x, hx, hkind, hname, hwords⟩ := hold
    rw [run_of_logged hinv hc hx hkind hname hwords] at hok
    split at hok
    · next hmade =>
      cases hok
      refine ⟨hinv.distinct, fun y hy => ?_, fun i t words ht hkey => ?_⟩
      · rcases List.mem_cons.1 hy with rfl | hy
        · refine ⟨hc, ?_⟩
          rw [(hinv.logged x hx).2, hmade, hwords]
        · exact hinv.logged y hy
      · obtain ⟨d, hd⟩ := hinv.keyed i t words ht hkey
        exact ⟨d, List.mem_cons_of_mem _ hd⟩
    · cases hok
  · obtain ⟨i, h'', hok', hinv'⟩ := run_of_new hinv hmix hc
      fun x hx hkind hname hwords => hold ⟨x, hx, hkind, hname, hwords⟩
    rw [hok] at hok'
    cases hok'
    exact hinv'

theorem Reaches.inv (hmix : Function.Injective mix) (hr : Reaches mix h log) : Inv mix h log := by
  induction hr with
  | start =>
    have hnone : ∀ id, (⟨[]⟩ : Host K).get? id = none := by
      intro id
      unfold Host.get?
      simp
    refine ⟨⟨fun i j r hi => ?_, fun i j t t' k hi => ?_⟩, fun x hx => ?_, fun id t words ht => ?_⟩
    · rw [hnone] at hi
      cases hi
    · rw [hnone] at hi
      cases hi
    · cases hx
    · rw [hnone] at ht
      cases ht
  | content _ hok ih => exact ih.content hok
  | forward _ hkey ih => exact ih.forward _ _ hkey
  | complete _ ht hkey hok ih => exact ih.complete ht hkey hok
  | call _ hc hok ih => exact ih.call hmix hc hok

/-- **Composites by content.**  With keys that tell sequences of words apart, a call on an interner
that a program can have returns, and every two calls so far have one type if and only if they are
alike, exactly if no call before it over the same fields stated numbers for other channels that can
be read as its own. -/
theorem compositeCall_iff (mix : List UInt64 → K) (hmix : Function.Injective mix) (h : Host K)
    (log : List (CompositeCall × ℕ)) (hr : Reaches mix h log) (c : CompositeCall)
    (hc : c.Admissible) :
    (∃ id h', c.run mix h = .ok (id, h') ∧ Canonical ((c, id) :: log)) ↔
      ∀ x ∈ log, ¬ x.1.Mistaken c := by
  have hinv := hr.inv hmix
  constructor
  · rintro ⟨id, h', hok, hcanon⟩ x hx ⟨hfields, hchannels, hreads⟩
    have hnumbers := (numbers_eq_iff (hinv.logged x hx).1 hc hfields.2.2.1).2 hreads
    have hwords : x.1.words = c.words :=
      (words_eq_iff (hinv.logged x hx).1 hc).2 ⟨hfields.2.2.1, hfields.2.2.2, hnumbers⟩
    rw [run_of_logged hinv hc hx hfields.1 hfields.2.1 hwords] at hok
    split at hok
    · next hmade => exact hchannels (made_eq_iff.1 hmade).sameChannels
    · cases hok
  · intro hnone
    by_cases hold : ∃ x ∈ log, x.1.kind = c.kind ∧ x.1.name = c.name ∧ x.1.words = c.words
    · obtain ⟨x, hx, hkind, hname, hwords⟩ := hold
      have hadm := (hinv.logged x hx).1
      obtain ⟨hfields, hsc, hnumbers⟩ := (words_eq_iff hadm hc).1 hwords
      have hsame : x.1.Same c := by
        refine same_of_numbers hadm hc ⟨hkind, hname, hfields, hsc⟩ ?_ hnumbers
        by_contra hchannels
        exact hnone x hx ⟨⟨hkind, hname, hfields, hsc⟩, hchannels,
          (numbers_eq_iff hadm hc hfields).1 hnumbers⟩
      have hok := run_of_logged hinv hc hx hkind hname hwords
      rw [if_pos (made_eq_iff.2 hsame)] at hok
      exact ⟨x.2, h, hok, (hinv.call hmix hc hok).canonical⟩
    · obtain ⟨id, h', hok, hinv'⟩ := run_of_new hinv hmix hc
        fun x hx hkind hname hwords => hold ⟨x, hx, hkind, hname, hwords⟩
      exact ⟨id, h', hok, hinv'.canonical⟩

theorem compositeCall_iff_offsets :
    ∃ n h', (structType [83] [1, 1] [] [0, 4] [] 0 0 []).run (id : List UInt64 → List UInt64)
      ⟨[]⟩ = .ok (n, h') ∧ Canonical [(structType [83] [1, 1] [] [0, 4] [] 0 0 [], n)] :=
  (compositeCall_iff id Function.injective_id ⟨[]⟩ [] .start
    (structType [83] [1, 1] [] [0, 4] [] 0 0 []) ⟨by decide, by decide⟩).2 fun x hx => by cases hx

/-- A struct of alignment 8, and the same field under a cap of 8: the second call ends the
program. -/
theorem compositeCall_alignmentAndCap :
    let aligned : CompositeCall := structType [83] [1] [] [] [] 8 0 []
    let capped : CompositeCall := structType [83] [1] [] [] [] 0 8 []
    let h : Host (List UInt64) := ⟨[⟨aligned.made, some aligned.words⟩]⟩
    aligned.Admissible ∧ capped.Admissible ∧ aligned.run id ⟨[]⟩ = .ok (1, h) ∧
      ¬ aligned.Same capped ∧ capped.run id h = .error .conflictingFields := by
  intro aligned capped h
  refine ⟨⟨by decide, by decide⟩, ⟨by decide, by decide⟩, rfl, fun hsame => ?_, rfl⟩
  exact absurd hsame.2.2.2.1 (by decide)

end Calls

end CompositeCall

end DssPrime
