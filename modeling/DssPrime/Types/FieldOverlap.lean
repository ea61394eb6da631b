import DssPrime.Types.StructLayoutSound
import Mathlib

/-!
# Members that share bytes

`compositeFieldsOverlap` (`type_layout.cpp`) asks whether two members of a struct or a union occupy
a common byte. A struct with neither given offsets nor bit-fields is answered without a look; the
members of any other composite are laid out, their byte ranges sorted, and one pass compares each
range with the furthest end so far.
-/

namespace DssPrime.Layout

inductive CompositeKind where
  | struct | union
  deriving DecidableEq

/-- One member of a union; the position is the greatest size so far.  A bit-field of no width may
count for nothing, and under Microsoft's rule a bit-field does not align the union. -/
def unionMember (params : LayoutParams) (c : Composite) (st : Cursor) (f : Field) :
    Option Cursor := do
  let fl ← f.typeLayout
  let msvc := params.bitFieldStrategy == .msvcStraddle
  if f.bitWidth = some 0 ∧ msvc = false ∧ params.unnamedBitFieldAlignment = .none then none
  else if f.bitWidth = some 0 ∧ (msvc = true ∨ params.unnamedBitFieldAlignment = .ignored) then
    some ⟨st.pos, st.out.place .one { offset := 0 } false⟩
  else do
    let ea ← effectiveAlign c f fl.align
    let align := if msvc && f.bitWidth.isSome then .one else ea
    match f.bitWidth with
    | none => some ⟨max st.pos fl.size, st.out.place align { offset := 0 } false⟩
    | some w =>
      if w = 0 then some ⟨max st.pos fl.size, st.out.place align { offset := 0 } false⟩
      else if fl.size = 0 then none
      else some ⟨max st.pos fl.size, st.out.place align
        { offset := 0, unitBytes := fl.size % 2 ^ 32, bitOffset := 0, bitWidth := w } false⟩

def layoutUnion (wr : ℕ → ℕ) (params : LayoutParams) (c : Composite) : Option StructLayout := do
  let seed ← compositeSeedAlign c
  if c.anyBitfield && params.bitFieldStrategy == .none then none
  else do
    let st ← c.fields.foldlM (unionMember params c) ⟨0, { align := seed }⟩
    some { st.out with size := st.out.align.alignUp wr st.pos }

def layoutComposite (wr : ℕ → ℕ) (params : LayoutParams) (kind : CompositeKind) (c : Composite) :
    Option StructLayout :=
  match kind with
  | .struct => layoutStruct wr params c
  | .union => layoutUnion wr params c

/-- The bytes of a member. -/
structure ByteRange where
  first : ℕ
  past : ℕ

/-- The bytes of a member: of a bit-field those its bits fall in, of another one its size.  A break
and an array without a length have none.  The outer `none` is a member without a layout. -/
def memberRange (wr : ℕ → ℕ) (x : Field × FieldPlace) : Option (List ByteRange) :=
  if x.2.unitBytes ≠ 0 then
    some [⟨wr (x.2.offset + x.2.bitOffset / 8),
      wr (x.2.offset + (x.2.bitOffset + x.2.bitWidth + 7) / 8)⟩]
  else if x.1.bitWidth.isSome then some []
  else if x.1.incomplete then some []
  else
    match x.1.typeLayout with
    | none => none
    | some fl => some (if fl.size = 0 then [] else [⟨x.2.offset, wr (x.2.offset + fl.size)⟩])

def memberRanges (wr : ℕ → ℕ) : List (Field × FieldPlace) → Option (List ByteRange)
  | [] => some []
  | x :: xs => do
    let r ← memberRange wr x
    let rs ← memberRanges wr xs
    some (r ++ rs)

/-- One pass over sorted ranges: a range that begins before the furthest end so far.  Nothing begins
before `0`, where the pass starts. -/
def sweep : ℕ → List ByteRange → Bool
  | _, [] => false
  | reach, r :: rs => if r.first < reach then true else sweep (max reach r.past) rs

/-- Whether two members share a byte. -/
def compositeFieldsOverlap (params : LayoutParams) (kind : CompositeKind) (c : Composite) : Bool :=
  if kind = .struct ∧ c.hasExplicitOffsets = false ∧ c.anyBitfield = false then false
  else
    match layoutComposite u64 params kind c with
    | none => true
    | some lay =>
      if c.fields.length ≠ lay.places.length then true
      else
        match memberRanges u64 (c.fields.zip lay.places) with
        | none => true
        | some ranges => sweep 0 (ranges.mergeSort fun a b => decide (a.first ≤ b.first))

def Occupies (x : Field × FieldPlace) (b : ℕ) : Prop :=
  match x.1.bitWidth with
  | some _ => ∃ k < x.2.bitWidth, (8 * x.2.offset + x.2.bitOffset + k) / 8 = b
  | none => x.1.incomplete = false ∧ x.2.offset ≤ b ∧
      b < x.2.offset + (x.1.layout.map (·.size)).getD 0

def SharesByte (c : Composite) (lay : StructLayout) : Prop :=
  ∃ i j : ℕ, i < j ∧ ∃ x y, (c.fields.zip lay.places)[i]? = some x ∧
    (c.fields.zip lay.places)[j]? = some y ∧ ∃ b, Occupies x b ∧ Occupies y b

/-- No sum wraps: the layout is the one of unbounded arithmetic, and every member ends in 64
bits. -/
def NoSumWraps (params : LayoutParams) (kind : CompositeKind) (c : Composite)
    (lay : StructLayout) : Prop :=
  layoutComposite id params kind c = some lay ∧
    ∀ x ∈ c.fields.zip lay.places, ∀ rs, memberRange id x = some rs → ∀ r ∈ rs, r.past < 2 ^ 64

section Sweep

def Apart (r s : ByteRange) : Prop := ∀ b, ¬ ((r.first ≤ b ∧ b < r.past) ∧ s.first ≤ b ∧ b < s.past)

theorem Apart.symm {r s : ByteRange} (h : Apart r s) : Apart s r := fun b hb => h b ⟨hb.2, hb.1⟩

theorem sweep_eq_false_iff (rs : List ByteRange) (reach : ℕ)
    (hne : ∀ r ∈ rs, r.first < r.past) (hsorted : rs.Pairwise fun r s => r.first ≤ s.first) :
    sweep reach rs = false ↔ (∀ r ∈ rs, reach ≤ r.first) ∧ rs.Pairwise Apart := by
  induction rs generalizing reach with
  | nil => simp [sweep]
  | cons r rs ih =>
    obtain ⟨hr, hrest⟩ := List.pairwise_cons.1 hsorted
    obtain ⟨hrne, hrsne⟩ := List.forall_mem_cons.1 hne
    rw [sweep, List.forall_mem_cons, List.pairwise_cons]
    split_ifs with hlt
    · simp only [false_iff]
      rintro ⟨⟨hge, -⟩, -⟩
      omega
    · rw [ih _ hrsne hrest]
      constructor
      · rintro ⟨hge, hpair⟩
        refine ⟨⟨by omega, fun s hs => ?_⟩, fun s hs b hb => ?_, hpair⟩
        · have := hge s hs
          omega
        · have := hge s hs
          omega
      · rintro ⟨⟨hge, hge'⟩, hapart, hpair⟩
        refine ⟨fun s hs => ?_, hpair⟩
        -- the first byte of a later range is past this one
        have hfirst := hapart s hs s.first
        have := hge' s hs
        have := hr s hs
        have := hrsne s hs
        omega

theorem sweep_iff {rs : List ByteRange} (hne : ∀ r ∈ rs, r.first < r.past) :
    sweep 0 (rs.mergeSort fun a b => decide (a.first ≤ b.first)) = true ↔ ¬ rs.Pairwise Apart := by
  have hsorted : (rs.mergeSort fun a b => decide (a.first ≤ b.first)).Pairwise
      fun r s => r.first ≤ s.first := by
    refine (List.pairwise_mergeSort ?_ ?_ _).imp fun h => by simpa using h
    · intro a b c hab hbc
      simp only [decide_eq_true_eq] at hab hbc ⊢
      omega
    · intro a b
      simp only [Bool.or_eq_true, decide_eq_true_eq]
      omega
  have hperm := List.mergeSort_perm rs fun a b => decide (a.first ≤ b.first)
  have h := sweep_eq_false_iff _ 0 (fun r hr => hne r (hperm.mem_iff.1 hr)) hsorted
  rw [← Bool.not_eq_false, h, hperm.pairwise_iff Apart.symm]
  exact not_congr (and_iff_right fun r _ => Nat.zero_le _)

end Sweep

structure MemberPlaced (x : Field × FieldPlace) : Prop where
  ordinary : x.1.bitWidth = none → x.2.unitBytes = 0 ∧
    (x.1.incomplete = false → ∃ fl, x.1.layout = some fl)
  bitField : ∀ w, x.1.bitWidth = some w → x.2.bitWidth = w ∧ (x.2.unitBytes = 0 ↔ w = 0)

def Adds (f : Field) (out out' : StructLayout) : Prop :=
  ∃ p, out'.places = out.places ++ [p] ∧ MemberPlaced (f, p)

structure AllPlaced (done : List Field) (out : StructLayout) : Prop where
  length_eq : out.places.length = done.length
  placed : ∀ x ∈ done.zip out.places, MemberPlaced x

section Placing

variable {params : LayoutParams} {c : Composite} {f : Field} {fs done : List Field} {w : ℕ}
  {out out' : StructLayout} {st st' : Cursor}

theorem AllPlaced.nil (a : Alignment) : AllPlaced [] { align := a } := ⟨rfl, by simp⟩

theorem AllPlaced.snoc (h : AllPlaced done out) (hadd : Adds f out out') :
    AllPlaced (done ++ [f]) out' := by
  obtain ⟨p, hplaces, hp⟩ := hadd
  refine ⟨?_, fun x hx => ?_⟩
  · rw [hplaces, List.length_append, List.length_append, h.length_eq]
    rfl
  · rw [hplaces, Placed.zip_snoc h.length_eq] at hx
    rcases List.mem_append.1 hx with hx | hx
    · exact h.placed x hx
    · rw [List.mem_singleton.1 hx]
      exact hp

theorem memberPlaced_ordinary {p : FieldPlace} (hf : f.bitWidth = none) (hp : p.unitBytes = 0)
    (hlay : f.incomplete = false → ∃ fl, f.layout = some fl) : MemberPlaced (f, p) := by
  refine ⟨fun _ => ⟨hp, hlay⟩, fun w hw => ?_⟩
  rw [hf] at hw
  cases hw

theorem memberPlaced_bitField {p : FieldPlace} (hf : f.bitWidth = some w) (hw : p.bitWidth = w)
    (hp : p.unitBytes = 0 ↔ w = 0) : MemberPlaced (f, p) := by
  refine ⟨fun hnone => ?_, fun w' hw' => ?_⟩
  · rw [hf] at hnone
    cases hnone
  · obtain rfl : w = w' := Option.some.inj (hf.symm.trans hw')
    exact ⟨hw, hp⟩

theorem placeOrdinary_adds {last : Bool} {pos : ℕ} (hf : f.bitWidth = none)
    (h : placeOrdinary id c f last pos out = some st) : Adds f out st.out := by
  obtain ⟨fl, ea, hfl, -, -, rfl⟩ := placeOrdinary_eq_some h
  exact ⟨_, rfl, memberPlaced_ordinary hf rfl fun _ => ⟨fl, hfl⟩⟩

theorem unit_ne_zero {n : ℕ} (hpos : 0 < n) (hlt : n < 2 ^ 29) : n % 2 ^ 32 ≠ 0 := by
  rw [Nat.mod_eq_of_lt (by omega)]
  omega

theorem gnuStep_adds {last : Bool}
    (hint : f.bitWidth.isSome → ∀ fl, f.layout = some fl → fl.size < 2 ^ 29)
    (h : gnuStep id params c f last st = some st') : Adds f st.out st'.out := by
  rw [gnuStep] at h
  cases hf : f.bitWidth with
  | none =>
    simp only [hf] at h
    obtain ⟨next, hnext, h⟩ := Option.bind_eq_some_iff.1 h
    obtain rfl := Option.some.inj h
    have hadd := placeOrdinary_adds hf hnext
    exact hadd
  | some w =>
    simp only [hf] at h
    obtain ⟨fl, hfl, hsize, ⟨hw, -, hout⟩ | ⟨hw, pos, -, -, -, rfl⟩⟩ := gnuBitField_eq_some hf h
    · exact ⟨_, congrArg StructLayout.places hout, memberPlaced_bitField hf hw.symm (by simp [hw])⟩
    · have hunit := unit_ne_zero hsize (hint (by rw [hf]; rfl) fl hfl)
      exact ⟨_, rfl, memberPlaced_bitField hf rfl (iff_of_false hunit hw.ne')⟩

theorem msvcStep_adds {last : Bool} {st st' : MsvcState}
    (hint : f.bitWidth.isSome → ∀ fl, f.layout = some fl → fl.size < 2 ^ 29)
    (h : msvcStep id c f last st = some st') : Adds f st.out st'.out := by
  rw [msvcStep] at h
  cases hf : f.bitWidth with
  | none =>
    simp only [hf] at h
    obtain ⟨next, hnext, h⟩ := Option.bind_eq_some_iff.1 h
    obtain rfl := Option.some.inj h
    have hadd := placeOrdinary_adds hf hnext
    exact hadd
  | some w =>
    simp only [hf] at h
    obtain ⟨fl, ua, hfl, hsize, -, -, ⟨hw, -, rfl⟩ | ⟨hw, -, rfl⟩ | ⟨hw, -, start, used, -, rfl⟩⟩ :=
      msvcBitField_eq_some h
    · exact ⟨_, rfl, memberPlaced_bitField hf hw.symm (by simp [hw])⟩
    · exact ⟨_, rfl, memberPlaced_bitField hf hw.symm (by simp [hw])⟩
    · have hunit := unit_ne_zero hsize (hint (by rw [hf]; rfl) fl hfl)
      exact ⟨_, rfl, memberPlaced_bitField hf rfl (iff_of_false hunit hw.ne')⟩

theorem unionMember_adds (hint : f.bitWidth.isSome → ∀ fl, f.layout = some fl → fl.size < 2 ^ 29)
    (h : unionMember params c st f = some st') : Adds f st.out st'.out := by
  simp only [unionMember, Option.bind_eq_bind, Option.bind_eq_some_iff] at h
  obtain ⟨fl, htype, h⟩ := h
  have hfl : f.layout = some fl := by
    rw [Field.typeLayout] at htype
    split_ifs at htype
    exact htype
  rw [ite_eq_iff] at h
  obtain ⟨-, h⟩ | ⟨-, h⟩ := h
  · cases h
  rw [ite_eq_iff] at h
  obtain ⟨hskip, h⟩ | ⟨-, h⟩ := h
  · obtain rfl := Option.some.inj h
    exact ⟨_, rfl, memberPlaced_bitField hskip.1 rfl (by simp)⟩
  obtain ⟨ea, -, h⟩ := Option.bind_eq_some_iff.1 h
  cases hf : f.bitWidth with
  | none =>
    simp only [hf] at h
    obtain rfl := Option.some.inj h
    exact ⟨_, rfl, memberPlaced_ordinary hf rfl fun _ => ⟨fl, hfl⟩⟩
  | some w =>
    simp only [hf] at h
    by_cases hw : w = 0
    · rw [if_pos hw] at h
      obtain rfl := Option.some.inj h
      exact ⟨_, rfl, memberPlaced_bitField hf hw.symm (by simp [hw])⟩
    rw [if_neg hw] at h
    by_cases hsize : fl.size = 0
    · rw [if_pos hsize] at h
      cases h
    · rw [if_neg hsize] at h
      obtain rfl := Option.some.inj h
      have hunit := unit_ne_zero (Nat.pos_of_ne_zero hsize) (hint (by rw [hf]; rfl) fl hfl)
      exact ⟨_, rfl, memberPlaced_bitField hf rfl (iff_of_false hunit hw)⟩

theorem plainFields_allPlaced (hbits : ∀ f ∈ fs, f.bitWidth = none) (hp : AllPlaced done st.out)
    (h : plainFields id c fs st = some st') : AllPlaced (done ++ fs) st'.out := by
  induction fs generalizing done st with
  | nil =>
    obtain rfl := Option.some.inj h
    rwa [List.append_nil]
  | cons f fs ih =>
    obtain ⟨hf, hfs⟩ := List.forall_mem_cons.1 hbits
    obtain ⟨mid, hmid, hrest⟩ := Option.bind_eq_some_iff.1 h
    have := ih hfs (hp.snoc (placeOrdinary_adds hf hmid)) hrest
    rwa [List.append_assoc] at this

theorem gnuFields_allPlaced (hint : IntegerUnits fs) (hp : AllPlaced done st.out)
    (h : gnuFields id params c fs st = some st') : AllPlaced (done ++ fs) st'.out := by
  induction fs generalizing done st with
  | nil =>
    obtain rfl := Option.some.inj h
    rwa [List.append_nil]
  | cons f fs ih =>
    obtain ⟨hf, hfs⟩ := List.forall_mem_cons.1 hint
    obtain ⟨mid, hmid, hrest⟩ := Option.bind_eq_some_iff.1 h
    have := ih hfs (hp.snoc (gnuStep_adds hf hmid)) hrest
    rwa [List.append_assoc] at this

theorem msvcFields_allPlaced {st st' : MsvcState} (hint : IntegerUnits fs)
    (hp : AllPlaced done st.out) (h : msvcFields id c fs st = some st') :
    AllPlaced (done ++ fs) st'.out := by
  induction fs generalizing done st with
  | nil =>
    obtain rfl := Option.some.inj h
    rwa [List.append_nil]
  | cons f fs ih =>
    obtain ⟨hf, hfs⟩ := List.forall_mem_cons.1 hint
    obtain ⟨mid, hmid, hrest⟩ := Option.bind_eq_some_iff.1 h
    have := ih hfs (hp.snoc (msvcStep_adds hf hmid)) hrest
    rwa [List.append_assoc] at this

theorem foldlM_allPlaced {step : Cursor → Field → Option Cursor}
    (hstep : ∀ f ∈ fs, ∀ st st', step st f = some st' → Adds f st.out st'.out)
    (hp : AllPlaced done st.out) (h : fs.foldlM step st = some st') :
    AllPlaced (done ++ fs) st'.out := by
  induction fs generalizing done st with
  | nil =>
    obtain rfl := Option.some.inj h
    rwa [List.append_nil]
  | cons f fs ih =>
    obtain ⟨hf, hfs⟩ := List.forall_mem_cons.1 hstep
    obtain ⟨mid, hmid, hrest⟩ := Option.bind_eq_some_iff.1 h
    have := ih hfs (hp.snoc (hf _ _ hmid)) hrest
    rwa [List.append_assoc] at this

theorem forall_bitWidth_none (h : c.anyBitfield = false) : ∀ f ∈ c.fields, f.bitWidth = none := by
  simpa [Composite.anyBitfield] using h

theorem layoutComposite_allPlaced {kind : CompositeKind} {lay : StructLayout}
    (hint : IntegerUnits c.fields) (h : layoutComposite id params kind c = some lay) :
    AllPlaced c.fields lay := by
  cases kind with
  | union =>
    obtain ⟨seed, -, h⟩ := Option.bind_eq_some_iff.1 h
    split_ifs at h
    obtain ⟨st, hst, h⟩ := Option.bind_eq_some_iff.1 h
    obtain rfl := Option.some.inj h
    have hp := foldlM_allPlaced (fun f hf _ _ => unionMember_adds (hint f hf)) (.nil seed) hst
    exact ⟨hp.length_eq, hp.placed⟩
  | struct =>
    obtain ⟨seed, -, h⟩ := Option.bind_eq_some_iff.1 h
    by_cases hexp : c.hasExplicitOffsets = true
    · rw [if_pos hexp] at h
      by_cases hany : c.anyBitfield = true
      · rw [if_pos hany] at h
        cases h
      rw [if_neg hany] at h
      obtain ⟨st, hst, h⟩ := Option.bind_eq_some_iff.1 h
      obtain rfl := Option.some.inj h
      have hbits := forall_bitWidth_none (Bool.eq_false_iff.2 hany)
      have hp := foldlM_allPlaced (fun f hf st st' hstep => ?_) (.nil seed) hst
      · exact ⟨hp.length_eq, hp.placed⟩
      obtain ⟨off, -, hstep⟩ := Option.bind_eq_some_iff.1 hstep
      obtain ⟨fl, hfl, hstep⟩ := Option.bind_eq_some_iff.1 hstep
      obtain rfl := Option.some.inj hstep
      refine ⟨_, rfl, memberPlaced_ordinary (hbits f hf) rfl fun hinc => ⟨fl, ?_⟩⟩
      rwa [Field.typeLayout, hinc] at hfl
    rw [if_neg hexp] at h
    by_cases hany : c.anyBitfield = true
    · rw [if_neg (by simp [hany])] at h
      cases hk : params.bitFieldStrategy with
      | none =>
        simp only [hk] at h
        cases h
      | gnuPacked =>
        simp only [hk] at h
        obtain ⟨st, hst, h⟩ := Option.bind_eq_some_iff.1 h
        obtain rfl := Option.some.inj h
        have hp := gnuFields_allPlaced hint (.nil seed) hst
        exact ⟨hp.length_eq, hp.placed⟩
      | msvcStraddle =>
        simp only [hk] at h
        obtain ⟨st, hst, h⟩ := Option.bind_eq_some_iff.1 h
        obtain rfl := Option.some.inj h
        have hp := msvcFields_allPlaced hint (.nil seed) hst
        exact ⟨hp.length_eq, hp.placed⟩
    · rw [if_pos (by simp [hany])] at h
      obtain ⟨st, hst, h⟩ := Option.bind_eq_some_iff.1 h
      obtain rfl := Option.some.inj h
      have hp := plainFields_allPlaced (forall_bitWidth_none (Bool.eq_false_iff.2 hany))
        (.nil seed) hst
      exact ⟨hp.length_eq, hp.placed⟩

end Placing

section Bytes

variable {x : Field × FieldPlace} {rs : List ByteRange}

theorem memberRange_placed (h : MemberPlaced x) : ∃ rs, memberRange id x = some rs ∧
    rs.length ≤ 1 ∧ (∀ r ∈ rs, r.first < r.past) ∧
    ∀ b, Occupies x b ↔ ∃ r ∈ rs, r.first ≤ b ∧ b < r.past := by
  cases hbits : x.1.bitWidth with
  | some w =>
    obtain ⟨hw, hunit⟩ := h.bitField w hbits
    simp only [memberRange, Occupies, hbits]
    by_cases h0 : w = 0
    · rw [if_neg (not_not.2 (hunit.2 h0)), if_pos Option.isSome_some]
      refine ⟨_, rfl, by simp, by simp, fun b => ?_⟩
      simp [hw, h0]
    · rw [if_pos fun hu => h0 (hunit.1 hu)]
      refine ⟨_, rfl, le_rfl, ?_, fun b => ?_⟩
      · simp only [List.mem_singleton, forall_eq, id]
        omega
      · simp only [List.mem_singleton, exists_eq_left, id]
        constructor
        · rintro ⟨k, hk, rfl⟩
          omega
        · intro hb
          -- the first bit of the byte, or the first bit of the field
          refine ⟨8 * b - (8 * x.2.offset + x.2.bitOffset), ?_, ?_⟩ <;> omega
  | none =>
    obtain ⟨hunit, hlay⟩ := h.ordinary hbits
    simp only [memberRange, Occupies, hbits]
    rw [if_neg (not_not.2 hunit), if_neg (by simp)]
    by_cases hinc : x.1.incomplete = true
    · rw [if_pos hinc]
      exact ⟨_, rfl, by simp, by simp, by simp [hinc]⟩
    · rw [if_neg hinc]
      obtain ⟨fl, hfl⟩ := hlay (Bool.eq_false_iff.2 hinc)
      simp only [Field.typeLayout, if_neg hinc, hfl]
      by_cases hsize : fl.size = 0
      · rw [if_pos hsize]
        refine ⟨_, rfl, by simp, by simp, fun b => ?_⟩
        simp only [List.not_mem_nil, false_and, exists_false, iff_false, Option.map_some,
          Option.getD_some]
        omega
      · rw [if_neg hsize]
        refine ⟨_, rfl, le_rfl, ?_, fun b => ?_⟩
        · simp only [List.mem_singleton, forall_eq, id]
          omega
        · simp [hinc]

def rangesOf (x : Field × FieldPlace) : List ByteRange := (memberRange id x).getD []

theorem memberRange_u64 (h : memberRange id x = some rs) (hne : ∀ r ∈ rs, r.first < r.past)
    (hlt : ∀ r ∈ rs, r.past < 2 ^ 64) : memberRange u64 x = some rs := by
  have heq : ∀ r ∈ rs, u64 r.first = r.first ∧ u64 r.past = r.past := fun r hr =>
    ⟨u64_eq ((hne r hr).trans (hlt r hr)), u64_eq (hlt r hr)⟩
  rw [memberRange] at h ⊢
  split_ifs at h ⊢ with hunit hbits hinc
  · obtain rfl := Option.some.inj h
    simpa [ByteRange.mk.injEq] using heq
  · exact h
  · exact h
  · cases hfl : x.1.typeLayout with
    | none =>
      rw [hfl] at h
      cases h
    | some fl =>
      simp only [hfl] at h ⊢
      obtain rfl := Option.some.inj h
      split_ifs at heq ⊢ with hsize
      · rfl
      · have := (heq _ (List.mem_singleton_self _)).2
        simp only [id] at this ⊢
        rw [this]

theorem memberRanges_u64 {xs : List (Field × FieldPlace)} (hp : ∀ x ∈ xs, MemberPlaced x)
    (hlt : ∀ x ∈ xs, ∀ rs, memberRange id x = some rs → ∀ r ∈ rs, r.past < 2 ^ 64) :
    memberRanges u64 xs = some (xs.flatMap rangesOf) := by
  induction xs with
  | nil => rfl
  | cons x xs ih =>
    obtain ⟨hx, hxs⟩ := List.forall_mem_cons.1 hp
    obtain ⟨hxlt, hxslt⟩ := List.forall_mem_cons.1 hlt
    obtain ⟨rs, hrs, -, hne, -⟩ := memberRange_placed hx
    rw [memberRanges, memberRange_u64 hrs hne (hxlt rs hrs), ih hxs hxslt, List.flatMap_cons,
      rangesOf, hrs]
    rfl

theorem pairwise_apart_iff {c : Composite} {lay : StructLayout}
    (hp : ∀ x ∈ c.fields.zip lay.places, MemberPlaced x) :
    ((c.fields.zip lay.places).flatMap rangesOf).Pairwise Apart ↔ ¬ SharesByte c lay := by
  rw [List.pairwise_flatMap]
  have hone : ∀ x ∈ c.fields.zip lay.places, (rangesOf x).Pairwise Apart := by
    intro x hx
    obtain ⟨rs, hrs, hlen, -⟩ := memberRange_placed (hp x hx)
    rw [rangesOf, hrs]
    cases rs with
    | nil => exact List.Pairwise.nil
    | cons r rest =>
      obtain rfl : rest = [] := List.length_eq_zero_iff.1 (by simpa using hlen)
      exact List.pairwise_singleton _ _
  have htwo : ∀ x ∈ c.fields.zip lay.places, ∀ y ∈ c.fields.zip lay.places,
      (∀ r ∈ rangesOf x, ∀ s ∈ rangesOf y, Apart r s) ↔ ∀ b, ¬ (Occupies x b ∧ Occupies y b) := by
    intro x hx y hy
    obtain ⟨rs, hrs, -, -, hxocc⟩ := memberRange_placed (hp x hx)
    obtain ⟨ss, hss, -, -, hyocc⟩ := memberRange_placed (hp y hy)
    simp only [rangesOf, hrs, hss, Option.getD_some, hxocc, hyocc]
    constructor
    · rintro h b ⟨⟨r, hr, hrb⟩, s, hs, hsb⟩
      exact h r hr s hs b ⟨hrb, hsb⟩
    · intro h r hr s hs b hb
      exact h b ⟨⟨r, hr, hb.1⟩, s, hs, hb.2⟩
  rw [and_iff_right hone, List.pairwise_iff_getElem]
  constructor
  · rintro h ⟨i, j, hij, x, y, hx, hy, b, hb⟩
    obtain ⟨hi, rfl⟩ := List.getElem?_eq_some_iff.1 hx
    obtain ⟨hj, rfl⟩ := List.getElem?_eq_some_iff.1 hy
    exact (htwo _ (List.getElem_mem _) _ (List.getElem_mem _)).1 (h i j hi hj hij) b hb
  · intro h i j hi hj hij
    refine (htwo _ (List.getElem_mem _) _ (List.getElem_mem _)).2 fun b hb => h ?_
    exact ⟨i, j, hij, _, _, List.getElem?_eq_getElem hi, List.getElem?_eq_getElem hj, b, hb⟩

end Bytes

def AnsweredAtOnce (kind : CompositeKind) (c : Composite) : Prop :=
  kind = .struct ∧ c.hasExplicitOffsets = false ∧ c.anyBitfield = false

theorem occupies_ordinary {c : Composite} {x : Field × FieldPlace} {b : ℕ} (h : AlignedField c x)
    (hnone : x.1.bitWidth = none) (hb : Occupies x b) :
    startBit x ≤ 8 * b ∧ 8 * b < startBit x + bitLength x := by
  obtain ⟨-, -, -, -, -, hbit⟩ := h hnone
  simp only [Occupies, hnone] at hb
  simp only [startBit, bitLength, hnone, hbit, hb.1, Bool.false_eq_true, if_false]
  omega

theorem not_sharesByte_plain {params : LayoutParams} {c : Composite} {lay : StructLayout}
    (hexp : c.hasExplicitOffsets = false) (hany : c.anyBitfield = false)
    (h : layoutStruct id params c = some lay) : ¬ SharesByte c lay := by
  rintro ⟨i, j, hij, x, y, hx, hy, b, hxb, hyb⟩
  obtain ⟨seed, -, h⟩ := Option.bind_eq_some_iff.1 h
  rw [if_neg (by simp [hexp]), if_pos (by simp [hany])] at h
  obtain ⟨st, hst, h⟩ := Option.bind_eq_some_iff.1 h
  obtain rfl := Option.some.inj h
  have hbits := forall_bitWidth_none hany
  obtain ⟨hp, -⟩ := plainFields_run hbits (Placed.nil c) hst
  obtain ⟨hi, rfl⟩ := List.getElem?_eq_some_iff.1 hx
  obtain ⟨hj, rfl⟩ := List.getElem?_eq_some_iff.1 hy
  have hord := List.pairwise_iff_getElem.1 hp.ordered i j hi hj hij
  have hmem := List.getElem_mem hi
  have hmem' := List.getElem_mem hj
  have hfirst := occupies_ordinary (hp.aligned _ hmem) (hbits _ (List.of_mem_zip hmem).1) hxb
  have hsecond := occupies_ordinary (hp.aligned _ hmem') (hbits _ (List.of_mem_zip hmem').1) hyb
  exact absurd (hfirst.2.trans_le (hord.trans hsecond.1)) (lt_irrefl _)

/-- **Members that share bytes.**  A composite with a layout, in whose computation no 64-bit sum
wraps, is answered exactly; one without a layout is answered `true`, unless it is a struct that is
answered without a look. -/
theorem compositeFieldsOverlap_exact (params : LayoutParams) (kind : CompositeKind) (c : Composite)
    (hint : IntegerUnits c.fields) :
    (∀ lay, layoutComposite u64 params kind c = some lay → NoSumWraps params kind c lay →
      (compositeFieldsOverlap params kind c = true ↔ SharesByte c lay)) ∧
    (layoutComposite u64 params kind c = none →
      (compositeFieldsOverlap params kind c = true ↔ ¬ AnsweredAtOnce kind c)) := by
  constructor
  · rintro lay hlay ⟨hid, hlt⟩
    rw [compositeFieldsOverlap]
    split_ifs with hshort
    · obtain ⟨rfl, hexp, hany⟩ := hshort
      exact iff_of_false id (not_sharesByte_plain hexp hany hid)
    · have hp := layoutComposite_allPlaced hint hid
      simp only [hlay, hp.length_eq, ne_eq, not_true_eq_false, if_false,
        memberRanges_u64 hp.placed hlt]
      rw [sweep_iff, pairwise_apart_iff hp.placed, not_not]
      intro r hr
      obtain ⟨x, hx, hrx⟩ := List.mem_flatMap.1 hr
      obtain ⟨rs, hrs, -, hne, -⟩ := memberRange_placed (hp.placed x hx)
      rw [rangesOf, hrs] at hrx
      exact hne r hrx
  · intro hnone
    rw [compositeFieldsOverlap, AnsweredAtOnce]
    split_ifs with hshort
    · simp [hshort]
    · simp [hnone, hshort]

theorem compositeFieldsOverlap_exact_bits :
    SharesByte twoBitFields twoBitFieldsLayout ∧
      compositeFieldsOverlap gnuParams .struct twoBitFields = true := by
  have hint : IntegerUnits twoBitFields.fields := by
    intro f hf _ fl hfl
    fin_cases hf <;> obtain rfl : unsignedLayout = fl := Option.some.inj hfl <;> decide
  have hwrap : NoSumWraps gnuParams .struct twoBitFields twoBitFieldsLayout := by
    refine ⟨by decide, fun x hx rs hrs => ?_⟩
    fin_cases hx <;> obtain rfl := Option.some.inj hrs <;> decide
  have hshares : SharesByte twoBitFields twoBitFieldsLayout :=
    ⟨0, 1, by decide, _, _, rfl, rfl, 0, ⟨0, by decide, by decide⟩, 0, by decide, by decide⟩
  have hexact := (compositeFieldsOverlap_exact gnuParams .struct twoBitFields hint).1
    twoBitFieldsLayout (by decide) hwrap
  exact ⟨hshares, hexact.2 hshares⟩

/-- `#pragma pack(2) struct { unsigned a; unsigned long long b : 40; }` -/
def cappedStraddler : Composite where
  fields := [{ layout := some unsignedLayout },
    { layout := some ⟨8, ⟨3, by decide⟩, by decide⟩, bitWidth := some 40 }]
  packCap := 2

def wrappingStruct : Composite where
  fields := [{ layout := some ⟨2 ^ 64 - 2, ⟨1, by decide⟩, by decide⟩ },
    { layout := some unsignedLayout }]

/-- All members of the first struct have a layout and it has none, so there are no two members with
a common byte.  In the second one the sum that aligns the second member wraps. -/
theorem compositeFieldsOverlap_capped_wrapping :
    ((∀ f ∈ cappedStraddler.fields, f.typeLayout.isSome) ∧
      (¬ ∃ lay, layoutComposite u64 gnuParams .struct cappedStraddler = some lay ∧
        SharesByte cappedStraddler lay) ∧
      compositeFieldsOverlap gnuParams .struct cappedStraddler = true) ∧
    (∃ lay, layoutComposite u64 gnuParams .struct wrappingStruct = some lay ∧
      SharesByte wrappingStruct lay) ∧
    compositeFieldsOverlap gnuParams .struct wrappingStruct = false := by
  refine ⟨⟨by decide, ?_, by decide⟩, ⟨_, rfl, ?_⟩, by decide⟩
  · have hnone : layoutComposite u64 gnuParams .struct cappedStraddler = none := by decide
    rintro ⟨lay, hlay, -⟩
    rw [hnone] at hlay
    cases hlay
  · exact ⟨0, 1, by decide, _, _, rfl, rfl, 0, ⟨rfl, by decide⟩, rfl, by decide⟩

end DssPrime.Layout
