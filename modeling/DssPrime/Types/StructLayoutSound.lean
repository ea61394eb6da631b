import DssPrime.Types.StructLayout

/-!
# What a struct's layout promises

In unbounded arithmetic all three ways of placing fields keep one order: each field begins at or
after the end of the one before (`Placed`). From that follow the disjointness of the fields and that
they lie in the struct.

What the GNU packer adds is stated on the fields alone: how many bits a list of fields takes up with
its padding (`room`), and which alignment and size the struct gets (`structAlign`, `structSize`).
The packer counts in bits, so its 64-bit sums overflow from an eighth of the address space on;
`BitCountsFit` says when none does.
-/

namespace DssPrime.Layout

namespace Alignment

theorem bytes_pos (a : Alignment) : 0 < a.bytes := Nat.two_pow_pos _

theorem dvd_alignUp (wr : ℕ → ℕ) (a : Alignment) (n : ℕ) : a.bytes ∣ a.alignUp wr n :=
  Nat.dvd_mul_left _ _

end Alignment

theorem le_roundUp {n unit : ℕ} (h : 0 < unit) : n ≤ roundUp id n unit := by
  have hdiv := Nat.div_add_mod (n + unit - 1) unit
  have hmod := Nat.mod_lt (n + unit - 1) h
  rw [roundUp, id, Nat.mul_comm]
  omega

theorem Alignment.le_alignUp (a : Alignment) (n : ℕ) : n ≤ a.alignUp id n :=
  le_roundUp a.bytes_pos

theorem Alignment.alignUp_u64 {a : Alignment} {n : ℕ} (h : a.alignUp id n < 2 ^ 64) :
    a.alignUp u64 n = a.alignUp id n := by
  have hle := a.le_alignUp n
  obtain ⟨k, hk⟩ := Alignment.dvd_alignUp id a n
  obtain ⟨m, hm⟩ : a.bytes ∣ 2 ^ 64 := pow_dvd_pow 2 (a.log2_le.trans (by decide))
  have hkm : k < m := by
    rw [hk, hm] at h
    exact lt_of_mul_lt_mul_left h (Nat.zero_le _)
  have hsum : n + a.bytes - 1 < 2 ^ 64 := by
    have : a.bytes * (k + 1) ≤ a.bytes * m := Nat.mul_le_mul_left _ hkm
    rw [Nat.mul_add, Nat.mul_one, ← hk, ← hm] at this
    have := a.bytes_pos
    omega
  rw [Alignment.alignUp, u64, Nat.mod_eq_of_lt hsum]
  rfl

def startBit (x : Field × FieldPlace) : ℕ := 8 * x.2.offset + x.2.bitOffset

/-- The bits of a field: of a bit-field those it is declared with, of another field its bytes, of an
array without a length none. -/
def bitLength (x : Field × FieldPlace) : ℕ :=
  match x.1.bitWidth with
  | some _ => x.2.bitWidth
  | none => if x.1.incomplete then 0 else 8 * (x.1.layout.map (·.size)).getD 0

def AlignedField (c : Composite) (x : Field × FieldPlace) : Prop :=
  x.1.bitWidth = none → ∃ fl ea, x.1.layout = some fl ∧ effectiveAlign c x.1 fl.align = some ea ∧
    ea.bytes ∣ x.2.offset ∧ x.2.bitOffset = 0

def InUnit (x : Field × FieldPlace) : Prop :=
  ∀ w, x.1.bitWidth = some w → 0 < w → ∃ fl, x.1.layout = some fl ∧ x.2.unitBytes = fl.size ∧
    x.2.bitWidth = w ∧ x.2.bitOffset + x.2.bitWidth ≤ 8 * x.2.unitBytes

def UnitInside (size : ℕ) (x : Field × FieldPlace) : Prop :=
  ∀ w, x.1.bitWidth = some w → 0 < w → x.2.offset + x.2.unitBytes ≤ size

/-- What a layout has to keep. -/
structure Sound (c : Composite) (out : StructLayout) : Prop where
  length_eq : out.places.length = c.fields.length
  aligned : ∀ x ∈ c.fields.zip out.places, AlignedField c x
  disjoint : (c.fields.zip out.places).Pairwise fun x y => ∀ b,
    ¬ ((startBit x ≤ b ∧ b < startBit x + bitLength x) ∧
      (startBit y ≤ b ∧ b < startBit y + bitLength y))
  inside : ∀ x ∈ c.fields.zip out.places, startBit x + bitLength x ≤ 8 * out.size
  inUnit : ∀ x ∈ c.fields.zip out.places, InUnit x
  unitInside : ∀ x ∈ c.fields.zip out.places, UnitInside out.size x
  size_dvd : out.align.bytes ∣ out.size

/-- The fields done so far lie before `pos`. -/
structure Placed (c : Composite) (done : List Field) (places : List FieldPlace) (pos : ℕ) :
    Prop where
  length_eq : places.length = done.length
  aligned : ∀ x ∈ done.zip places, AlignedField c x
  ordered : (done.zip places).Pairwise fun x y => startBit x + bitLength x ≤ startBit y
  before : ∀ x ∈ done.zip places, startBit x + bitLength x ≤ pos
  inUnit : ∀ x ∈ done.zip places, InUnit x

namespace Placed

variable {c : Composite} {done : List Field} {places : List FieldPlace} {pos pos' : ℕ}

theorem nil (c : Composite) : Placed c [] [] 0 :=
  ⟨rfl, by simp, by simp, by simp, by simp⟩

theorem zip_snoc {f : Field} {p : FieldPlace} (h : places.length = done.length) :
    (done ++ [f]).zip (places ++ [p]) = done.zip places ++ [(f, p)] := by
  rw [List.zip_append h.symm]
  rfl

theorem snoc (h : Placed c done places pos) {f : Field} {p : FieldPlace}
    (hstart : pos ≤ startBit (f, p)) (hend : startBit (f, p) + bitLength (f, p) ≤ pos')
    (halign : AlignedField c (f, p)) (hunit : InUnit (f, p)) :
    Placed c (done ++ [f]) (places ++ [p]) pos' := by
  refine ⟨?_, ?_, ?_, ?_, ?_⟩
  · rw [List.length_append, List.length_append, h.length_eq]
    rfl
  all_goals rw [zip_snoc h.length_eq]
  · intro x hx
    rcases List.mem_append.mp hx with hx | hx
    · exact h.aligned x hx
    · rw [List.mem_singleton.mp hx]
      exact halign
  · refine List.pairwise_append.mpr ⟨h.ordered, List.pairwise_singleton _ _, ?_⟩
    intro x hx y hy
    rw [List.mem_singleton.mp hy]
    exact (h.before x hx).trans hstart
  · intro x hx
    rcases List.mem_append.mp hx with hx | hx
    · have := h.before x hx
      omega
    · rw [List.mem_singleton.mp hx]
      exact hend
  · intro x hx
    rcases List.mem_append.mp hx with hx | hx
    · exact h.inUnit x hx
    · rw [List.mem_singleton.mp hx]
      exact hunit

theorem sound {out : StructLayout} (h : Placed c c.fields out.places pos)
    (hsize : pos ≤ 8 * out.size) (hdvd : out.align.bytes ∣ out.size)
    (hunits : ∀ x ∈ c.fields.zip out.places, UnitInside out.size x) : Sound c out := by
  refine ⟨h.length_eq, h.aligned, h.ordered.imp ?_, fun x hx => (h.before x hx).trans hsize,
    h.inUnit, hunits, hdvd⟩
  intro x y hxy b hb
  omega

end Placed

theorem u64_eq {x : ℕ} (h : x < 2 ^ 64) : u64 x = x := Nat.mod_eq_of_lt h

section Ordinary

variable {wr : ℕ → ℕ} {c : Composite} {f : Field} {last : Bool} {pos : ℕ} {out : StructLayout}
  {st : Cursor}

theorem placeOrdinary_eq_some (h : placeOrdinary wr c f last pos out = some st) :
    ∃ fl ea, f.layout = some fl ∧ effectiveAlign c f fl.align = some ea ∧
      (f.incomplete && !last) = false ∧
      st = ⟨if f.incomplete then ea.alignUp wr pos else wr (ea.alignUp wr pos + fl.size),
        out.place ea { offset := ea.alignUp wr pos } f.incomplete⟩ := by
  simp only [placeOrdinary, Option.bind_eq_bind, Option.bind_eq_some_iff] at h
  obtain ⟨fl, hfl, h⟩ := h
  by_cases hlast : (f.incomplete && !last) = true
  · rw [if_pos hlast] at h
    cases h
  · rw [if_neg hlast] at h
    obtain ⟨ea, hea, h⟩ := Option.bind_eq_some_iff.mp h
    exact ⟨fl, ea, hfl, hea, Bool.eq_false_iff.mpr hlast, (Option.some.inj h).symm⟩

theorem Placed.ordinary {done : List Field} {e : ℕ} (hf : f.bitWidth = none)
    (hp : Placed c done out.places e) (he : e ≤ 8 * pos)
    (h : placeOrdinary id c f last pos out = some st) :
    Placed c (done ++ [f]) st.out.places (8 * st.pos) ∧ pos ≤ st.pos := by
  obtain ⟨fl, ea, hfl, hea, -, rfl⟩ := placeOrdinary_eq_some h
  have hle := ea.le_alignUp pos
  refine ⟨hp.snoc ?_ ?_ ?_ ?_, ?_⟩
  · simp only [startBit]
    omega
  · simp only [startBit, bitLength, hf, hfl, Option.map_some, Option.getD_some, id]
    split_ifs <;> omega
  · exact fun _ => ⟨fl, ea, hfl, hea, Alignment.dvd_alignUp _ _ _, rfl⟩
  · intro w hw
    rw [hf] at hw
    cases hw
  · simp only [id]
    split_ifs <;> omega

theorem placeOrdinary_u64 (h : placeOrdinary id c f last pos out = some st)
    (hlt : st.pos < 2 ^ 64) : placeOrdinary u64 c f last pos out = some st := by
  obtain ⟨fl, ea, hfl, hea, hlast, rfl⟩ := placeOrdinary_eq_some h
  have hup : ea.alignUp u64 pos = ea.alignUp id pos := by
    refine Alignment.alignUp_u64 ?_
    simp only [id] at hlt
    split_ifs at hlt <;> omega
  simp only [placeOrdinary, hfl, Option.bind_eq_bind, Option.bind_some, hea, hup]
  rw [if_neg (Bool.eq_false_iff.mp hlast)]
  by_cases hin : f.incomplete = true
  · simp [hin]
  · simp only [hin, Bool.false_eq_true, if_false, id] at hlt ⊢
    rw [u64_eq hlt]

end Ordinary

theorem plainFields_run {c : Composite} {fs done : List Field} {st st' : Cursor}
    (hbits : ∀ f ∈ fs, f.bitWidth = none) (hp : Placed c done st.out.places (8 * st.pos))
    (h : plainFields id c fs st = some st') :
    Placed c (done ++ fs) st'.out.places (8 * st'.pos) ∧ st.pos ≤ st'.pos ∧
      (st'.pos < 2 ^ 64 → plainFields u64 c fs st = some st') := by
  induction fs generalizing st done with
  | nil =>
    obtain rfl := Option.some.inj h
    rw [List.append_nil]
    exact ⟨hp, le_rfl, fun _ => rfl⟩
  | cons f fs ih =>
    obtain ⟨hf, hfs⟩ := List.forall_mem_cons.mp hbits
    obtain ⟨mid, hmid, hrest⟩ := Option.bind_eq_some_iff.mp h
    obtain ⟨hp', hle⟩ := hp.ordinary hf le_rfl hmid
    obtain ⟨hp'', hle', hu⟩ := ih hfs hp' hrest
    rw [List.append_assoc, List.singleton_append] at hp''
    refine ⟨hp'', hle.trans hle', fun hlt => ?_⟩
    rw [plainFields, placeOrdinary_u64 hmid (lt_of_le_of_lt hle' hlt)]
    exact hu hlt

/-- The declared types of bit-fields are integer types, which are small. -/
def IntegerUnits (fs : List Field) : Prop :=
  ∀ f ∈ fs, f.bitWidth.isSome → ∀ fl, f.layout = some fl → fl.size < 2 ^ 29

/-- The bit at which a bit-field of `w` bits begins behind `n` bits of fields: the next unit of its
declared type if it would cross into that one, unless it is packed or capped. -/
def bitFieldStart (c : Composite) (f : Field) (w unitBits n : ℕ) : ℕ :=
  if fieldPackedBaseline c f = true ∨ c.packCap ≠ 0 ∨ n % unitBits + w ≤ unitBits then n
  else (n / unitBits + 1) * unitBits

/-- The bits taken up when a field comes behind `n` bits of fields. -/
def roomAfter (c : Composite) (n : ℕ) (f : Field) : ℕ :=
  match f.layout, f.bitWidth with
  | none, _ => n
  | some fl, none => (((effectiveAlign c f fl.align).getD .one).alignUp id ((n + 7) / 8) +
      if f.incomplete then 0 else fl.size) * 8
  | some fl, some 0 => roundUp id n (fl.size * 8)
  | some fl, some (w + 1) => bitFieldStart c f (w + 1) (fl.size * 8) n + (w + 1)

/-- The bits a list of fields takes up: its widths and sizes, with the padding the alignments and
the units of bit-fields ask for. -/
def room (c : Composite) (fs : List Field) : ℕ := fs.foldl (roomAfter c) 0

/-- The alignment a field asks for: its own with `packed`, `pack(N)` and `alignas`, of a bit-field
the capped one of its declared type, of a break what the platform says. -/
def alignOf (params : LayoutParams) (c : Composite) (f : Field) : Alignment :=
  match f.layout, f.bitWidth with
  | none, _ => .one
  | some fl, none => (effectiveAlign c f fl.align).getD .one
  | some fl, some 0 => if params.unnamedBitFieldAlignment = .contributes then fl.align else .one
  | some fl, some (_ + 1) =>
    (clampedBaselineAlign (fieldPackedBaseline c f) c.packCap fl.align).getD .one

def structAlign (params : LayoutParams) (c : Composite) : Alignment :=
  c.fields.foldl (fun a f => a.max (alignOf params c f)) ((compositeSeedAlign c).getD .one)

def structSize (params : LayoutParams) (c : Composite) : ℕ :=
  (structAlign params c).alignUp id ((room c c.fields + 7) / 8)

/-- No bit-field begins in the rest that the size of the struct leaves over whole units of the
bit-field's declared type. -/
def UnitsWhole (params : LayoutParams) (c : Composite) : Prop :=
  ∀ (i : ℕ) (f : Field) (fl : ChildLayout) (w : ℕ), c.fields[i]? = some f → f.layout = some fl →
    f.bitWidth = some w → 0 < w →
    bitFieldStart c f w (fl.size * 8) (room c (c.fields.take i)) <
      structSize params c / fl.size * (fl.size * 8)

/-- No count of bits overflows: neither the whole struct, nor a unit beyond the bits that a
zero-width break or a bit-field that does not fit its unit goes on from. -/
structure BitCountsFit (c : Composite) : Prop where
  whole : room c c.fields + 7 < 2 ^ 64
  roundings : ∀ (i : ℕ) (f : Field) (fl : ChildLayout) (w : ℕ), c.fields[i]? = some f →
    f.layout = some fl → f.bitWidth = some w →
    w = 0 ∨ (fieldPackedBaseline c f = false ∧ c.packCap = 0 ∧
      fl.size * 8 < room c (c.fields.take i) % (fl.size * 8) + w) →
    room c (c.fields.take i) + fl.size * 8 - 1 < 2 ^ 64

theorem room_snoc (c : Composite) (fs : List Field) (f : Field) :
    room c (fs ++ [f]) = roomAfter c (room c fs) f := by
  simp [room]

section Gnu

variable {params : LayoutParams} {c : Composite} {f : Field} {w : ℕ} {st st' : Cursor}

theorem div_ne_div_iff {n unit : ℕ} (hw : 0 < w) (hle : w ≤ unit) :
    n / unit ≠ (n + w - 1) / unit ↔ unit < n % unit + w := by
  have hunit : 0 < unit := hw.trans_le hle
  have hn := Nat.div_add_mod n unit
  have hr := Nat.mod_lt n hunit
  generalize n / unit = q at hn ⊢
  generalize n % unit = r at hn hr ⊢
  have hsum : n + w - 1 = (r + w - 1) + unit * q := by omega
  rw [hsum, Nat.add_mul_div_left _ _ hunit]
  constructor
  · intro hne
    by_contra hfit
    rw [Nat.div_eq_of_lt (by omega)] at hne
    omega
  · intro hcross
    have : 0 < (r + w - 1) / unit := Nat.div_pos (by omega) hunit
    omega

/-- Where a bit-field does not fit the rest of its unit, rounding up gives the next one. -/
theorem roundUp_of_cross {n unit : ℕ} (hw : 0 < w) (hle : w ≤ unit) (hcross : unit < n % unit + w) :
    roundUp id n unit = (n / unit + 1) * unit := by
  have hunit : 0 < unit := hw.trans_le hle
  have hn := Nat.div_add_mod n unit
  have hr := Nat.mod_lt n hunit
  generalize n / unit = q at hn ⊢
  generalize n % unit = r at hn hr hcross
  have hsum : n + unit - 1 = (r - 1) + unit * (q + 1) := by
    rw [Nat.mul_add, Nat.mul_one]
    omega
  rw [roundUp, id, hsum, Nat.add_mul_div_left _ _ hunit, Nat.div_eq_of_lt (by omega), Nat.zero_add]

theorem gnuBitPos_eq {n unit : ℕ} (hw : 0 < w) (hle : w ≤ unit) :
    gnuBitPos id c f w unit n = bitFieldStart c f w unit n := by
  unfold gnuBitPos bitFieldStart
  have hiff := @div_ne_div_iff w n unit hw hle
  simp only [id]
  by_cases hfree : fieldPackedBaseline c f = true ∨ c.packCap ≠ 0
  · have hno : ¬ (!fieldPackedBaseline c f && c.packCap == 0 &&
        n / unit != (n + w - 1) / unit) = true := by
      rcases hfree with h | h <;> simp [h]
    rw [if_neg hno, if_pos (hfree.imp id Or.inl)]
  obtain ⟨hpacked, hcap⟩ := not_or.mp hfree
  rw [Bool.not_eq_true] at hpacked
  rw [not_not] at hcap
  by_cases hfit : n % unit + w ≤ unit
  · have hsame : n / unit = (n + w - 1) / unit := by
      by_contra hne
      exact absurd (hiff.mp hne) (not_lt.mpr hfit)
    have hno : ¬ (!fieldPackedBaseline c f && c.packCap == 0 &&
        n / unit != (n + w - 1) / unit) = true := by
      simp [← hsame]
    rw [if_neg hno, if_pos (Or.inr (Or.inr hfit))]
  · have hcross := not_le.mp hfit
    have hyes : (!fieldPackedBaseline c f && c.packCap == 0 &&
        n / unit != (n + w - 1) / unit) = true := by
      simp [hpacked, hcap, hiff.mpr hcross]
    have hno : ¬ (fieldPackedBaseline c f = true ∨ c.packCap ≠ 0 ∨ n % unit + w ≤ unit) := by
      simp [hpacked, hcap, hcross]
    rw [if_pos hyes, if_neg hno, roundUp_of_cross hw hle hcross]

theorem gnuBitField_eq_some (hf : f.bitWidth = some w)
    (h : gnuBitField id params c f w st = some st') :
    ∃ fl, f.layout = some fl ∧ 0 < fl.size ∧
      ((w = 0 ∧ st'.pos = roundUp id st.pos (fl.size * 8) ∧
          st'.out = st.out.place (alignOf params c f) { offset := st'.pos / 8 } false) ∨
        (0 < w ∧ ∃ pos, pos = bitFieldStart c f w (fl.size * 8) st.pos ∧
          gnuBitPos id c f w (fl.size * 8) st.pos = pos ∧
          pos % (fl.size * 8) + w ≤ fl.size * 8 ∧
          st' = ⟨pos + w, st.out.place (alignOf params c f)
            { offset := pos / (fl.size * 8) * fl.size, unitBytes := fl.size % 2 ^ 32,
              bitOffset := pos % (fl.size * 8) % 2 ^ 32, bitWidth := w } false⟩)) := by
  simp only [gnuBitField, Option.bind_eq_bind, Option.bind_eq_some_iff, id] at h
  obtain ⟨fl, hfl, h⟩ := h
  by_cases hz : f.incomplete = true ∨ fl.size = 0
  · rw [if_pos hz] at h
    cases h
  rw [if_neg hz] at h
  have hsize : 0 < fl.size := Nat.pos_of_ne_zero fun h0 => hz (Or.inr h0)
  refine ⟨fl, hfl, hsize, ?_⟩
  obtain ⟨ua, hua, h⟩ := Option.bind_eq_some_iff.mp h
  cases w with
  | zero =>
    rw [if_pos rfl] at h
    refine Or.inl ⟨rfl, ?_⟩
    cases hk : params.unnamedBitFieldAlignment with
    | none =>
      simp only [hk] at h
      cases h
    | contributes =>
      simp only [hk, Option.some.injEq] at h
      subst h
      exact ⟨rfl, by simp [alignOf, hfl, hf, hk]⟩
    | ignored =>
      simp only [hk, Option.some.injEq] at h
      subst h
      exact ⟨rfl, by simp [alignOf, hfl, hf, hk]⟩
  | succ w =>
    rw [if_neg (Nat.succ_ne_zero w)] at h
    refine Or.inr ⟨Nat.succ_pos w, ?_⟩
    by_cases hwide : w + 1 > fl.size * 8
    · rw [if_pos hwide] at h
      cases h
    rw [if_neg hwide] at h
    by_cases hcross : gnuBitPos id c f (w + 1) (fl.size * 8) st.pos % (fl.size * 8) + (w + 1) >
        fl.size * 8
    · rw [if_pos hcross] at h
      cases h
    rw [if_neg hcross] at h
    have hua' : alignOf params c f = ua := by simp [alignOf, hfl, hf, hua]
    rw [hua']
    exact ⟨_, gnuBitPos_eq (Nat.succ_pos w) (not_lt.mp hwide), rfl, not_lt.mp hcross,
      (Option.some.inj h).symm⟩

theorem le_gnuBitPos {unitBits pos : ℕ} (h : 0 < unitBits) :
    pos ≤ gnuBitPos id c f w unitBits pos := by
  rw [gnuBitPos]
  split_ifs
  · exact le_roundUp h
  · exact le_rfl

theorem roundUp_mod_eight {n k : ℕ} : roundUp id n (k * 8) % 8 = 0 := by
  rw [roundUp, ← Nat.mul_assoc, Nat.mul_mod_left]

theorem Placed.gnuBitField {done : List Field} (hf : f.bitWidth = some w)
    (hint : ∀ fl, f.layout = some fl → fl.size < 2 ^ 29)
    (hp : Placed c done st.out.places st.pos) (h : gnuBitField id params c f w st = some st') :
    Placed c (done ++ [f]) st'.out.places st'.pos ∧ st.pos ≤ st'.pos := by
  obtain ⟨fl, hfl, hsize, ⟨rfl, hpos, hout⟩ | ⟨hw, pos, -, hpos, hfit, rfl⟩⟩ :=
    gnuBitField_eq_some hf h
  · have hle : st.pos ≤ st'.pos := by
      rw [hpos]
      exact le_roundUp (by omega)
    have hmod : st'.pos % 8 = 0 := by
      rw [hpos]
      exact roundUp_mod_eight
    rw [hout]
    refine ⟨hp.snoc ?_ ?_ ?_ ?_, hle⟩
    · simp only [startBit]
      omega
    · simp only [startBit, bitLength, hf]
      omega
    · intro hnone
      rw [hf] at hnone
      cases hnone
    · intro w hw hpos
      rw [hf] at hw
      obtain rfl := Option.some.inj hw
      exact absurd hpos (lt_irrefl 0)
  · have hsmall := hint fl hfl
    have hle : st.pos ≤ pos := by
      rw [← hpos]
      exact le_gnuBitPos (by omega)
    have hmod : pos % (fl.size * 8) < fl.size * 8 := Nat.mod_lt _ (by omega)
    have h32 : fl.size % 2 ^ 32 = fl.size := Nat.mod_eq_of_lt (by omega)
    have h32' : pos % (fl.size * 8) % 2 ^ 32 = pos % (fl.size * 8) := Nat.mod_eq_of_lt (by omega)
    -- The unit of the position and the bit inside it give the position back.
    have hback : 8 * (pos / (fl.size * 8) * fl.size) + pos % (fl.size * 8) = pos := by
      have := Nat.div_add_mod pos (fl.size * 8)
      nlinarith
    rw [h32, h32']
    refine ⟨hp.snoc ?_ ?_ ?_ ?_, by simp only; omega⟩
    · simp only [startBit]
      omega
    · simp only [startBit, bitLength, hf]
      omega
    · intro hnone
      rw [hf] at hnone
      cases hnone
    · intro w' hw' _
      rw [hf] at hw'
      obtain rfl := Option.some.inj hw'
      refine ⟨fl, hfl, rfl, rfl, ?_⟩
      simp only
      omega

theorem gnuBitField_u64 (hf : f.bitWidth = some w)
    (hint : ∀ fl, f.layout = some fl → fl.size < 2 ^ 29)
    (h : gnuBitField id params c f w st = some st') (hlt : st'.pos < 2 ^ 64)
    (hsum : ∀ fl, f.layout = some fl →
      w = 0 ∨ (fieldPackedBaseline c f = false ∧ c.packCap = 0 ∧
        fl.size * 8 < st.pos % (fl.size * 8) + w) → st.pos + fl.size * 8 - 1 < 2 ^ 64) :
    gnuBitField u64 params c f w st = some st' := by
  rw [← h]
  obtain ⟨fl, hfl, hsize, hcase⟩ := gnuBitField_eq_some hf h
  have hsmall := hint fl hfl
  have hunit : u64 (fl.size * 8) = fl.size * 8 := u64_eq (by omega)
  have hround : st.pos + fl.size * 8 - 1 < 2 ^ 64 →
      roundUp u64 st.pos (fl.size * 8) = roundUp id st.pos (fl.size * 8) := by
    intro hneed
    rw [roundUp, u64_eq hneed]
    rfl
  simp only [Layout.gnuBitField, hfl, Option.bind_eq_bind, Option.bind_some, hunit, id]
  refine if_congr Iff.rfl rfl (congrArg _ (funext fun ua => ?_))
  rcases hcase with ⟨hw, -⟩ | ⟨hw, pos, -, hpos, hfit, rfl⟩
  · simp only [if_pos hw, hround (hsum fl hfl (Or.inl hw))]
  · have hpos' : gnuBitPos u64 c f w (fl.size * 8) st.pos = pos := by
      have hle : st.pos ≤ pos := hpos ▸ le_gnuBitPos (by omega)
      have hsum' : u64 (st.pos + w - 1) = st.pos + w - 1 := u64_eq (by simp only at hlt; omega)
      rw [← hpos, gnuBitPos, gnuBitPos, hsum', id]
      refine if_ctx_congr Iff.rfl (fun hneed => ?_) fun _ => rfl
      simp only [Bool.and_eq_true, Bool.not_eq_true', beq_iff_eq, bne_iff_ne] at hneed
      have hcross := (div_ne_div_iff hw (by omega)).mp hneed.2
      exact hround (hsum fl hfl (Or.inr ⟨hneed.1.1, hneed.1.2, hcross⟩))
    have hoff : pos / (fl.size * 8) * fl.size ≤ pos := by
      have hmul := Nat.div_mul_le_self pos (fl.size * 8)
      have : pos / (fl.size * 8) * fl.size ≤ pos / (fl.size * 8) * (fl.size * 8) :=
        Nat.mul_le_mul_left _ (by omega)
      omega
    simp only at hlt
    simp only [if_neg hw.ne', hpos', hpos, u64_eq hlt,
      u64_eq (show pos / (fl.size * 8) * fl.size < 2 ^ 64 by omega)]

/-- Where the packer puts the bit-fields, in terms of the fields before them. -/
def UnitsAt (c : Composite) (done : List Field) (places : List FieldPlace) : Prop :=
  ∀ (i : ℕ) (f : Field) (p : FieldPlace) (fl : ChildLayout) (w : ℕ), done[i]? = some f →
    places[i]? = some p → f.layout = some fl → f.bitWidth = some w → 0 < w →
    p.unitBytes = fl.size ∧
      p.offset = bitFieldStart c f w (fl.size * 8) (room c (done.take i)) / (fl.size * 8) * fl.size

theorem UnitsAt.snoc {done : List Field} {places : List FieldPlace} {p : FieldPlace}
    (h : UnitsAt c done places) (hlen : places.length = done.length)
    (hnew : ∀ (fl : ChildLayout) (w : ℕ), f.layout = some fl → f.bitWidth = some w → 0 < w →
      p.unitBytes = fl.size ∧ p.offset =
        bitFieldStart c f w (fl.size * 8) (room c done) / (fl.size * 8) * fl.size) :
    UnitsAt c (done ++ [f]) (places ++ [p]) := by
  intro i g q fl w hg hq hfl hbits hw
  rcases Nat.lt_trichotomy i done.length with hi | rfl | hi
  · rw [List.getElem?_append_left hi] at hg
    rw [List.getElem?_append_left (hlen ▸ hi)] at hq
    rw [List.take_append_of_le_length hi.le]
    exact h i g q fl w hg hq hfl hbits hw
  · rw [List.getElem?_concat_length] at hg
    rw [← hlen, List.getElem?_concat_length] at hq
    obtain rfl := Option.some.inj hg
    obtain rfl := Option.some.inj hq
    rw [List.take_left]
    exact hnew fl w hfl hbits hw
  · rw [List.getElem?_eq_none (by simp; omega)] at hg
    cases hg

/-- One field: its room, its alignment and, of a bit-field, its unit. -/
theorem gnuStep_spec {last : Bool} {done : List Field} (hlen : st.out.places.length = done.length)
    (hint : f.bitWidth.isSome → ∀ fl, f.layout = some fl → fl.size < 2 ^ 29)
    (hpos : st.pos = room c done) (hunits : UnitsAt c done st.out.places)
    (h : gnuStep id params c f last st = some st') :
    st'.pos = room c (done ++ [f]) ∧ st'.out.align = st.out.align.max (alignOf params c f) ∧
      UnitsAt c (done ++ [f]) st'.out.places := by
  rw [room_snoc, ← hpos]
  cases hf : f.bitWidth with
  | none =>
    simp only [gnuStep, hf] at h
    obtain ⟨next, hnext, hout⟩ := Option.bind_eq_some_iff.mp h
    obtain rfl := Option.some.inj hout
    obtain ⟨fl, ea, hfl, hea, -, rfl⟩ := placeOrdinary_eq_some hnext
    refine ⟨?_, ?_, hunits.snoc hlen fun _ w _ hw => ?_⟩
    · simp only [roomAfter, hfl, hf, hea, Option.getD_some, id]
      split_ifs <;> rfl
    · simp [StructLayout.place, alignOf, hfl, hf, hea]
    · rw [hf] at hw
      cases hw
  | some w =>
    simp only [gnuStep, hf] at h
    obtain ⟨fl, hfl, hsize, ⟨rfl, hroom, hout⟩ | ⟨hw, pos, hstart, -, -, rfl⟩⟩ :=
      gnuBitField_eq_some hf h
    · rw [hout]
      refine ⟨by simp [hroom, roomAfter, hfl, hf], rfl, hunits.snoc hlen fun _ w _ hw h0 => ?_⟩
      rw [hf] at hw
      obtain rfl := Option.some.inj hw
      exact absurd h0 (lt_irrefl 0)
    · refine ⟨?_, rfl, hunits.snoc hlen fun fl' w' hfl' hw' _ => ?_⟩
      · obtain ⟨w, rfl⟩ := Nat.exists_eq_succ_of_ne_zero hw.ne'
        simp [hstart, roomAfter, hfl, hf]
      · rw [hfl] at hfl'
        rw [hf] at hw'
        obtain rfl := Option.some.inj hfl'
        obtain rfl := Option.some.inj hw'
        have hsmall := hint (by rw [hf]; rfl) fl hfl
        rw [hpos] at hstart
        exact ⟨Nat.mod_eq_of_lt (by omega), by rw [hstart]⟩

theorem gnuStep_u64 {last : Bool}
    (hint : f.bitWidth.isSome → ∀ fl, f.layout = some fl → fl.size < 2 ^ 29)
    (h : gnuStep id params c f last st = some st') (hlt : st.pos + 7 < 2 ^ 64)
    (hlt' : st'.pos + 7 < 2 ^ 64)
    (hsum : ∀ fl w, f.layout = some fl → f.bitWidth = some w →
      w = 0 ∨ (fieldPackedBaseline c f = false ∧ c.packCap = 0 ∧
        fl.size * 8 < st.pos % (fl.size * 8) + w) → st.pos + fl.size * 8 - 1 < 2 ^ 64) :
    gnuStep u64 params c f last st = some st' := by
  cases hf : f.bitWidth with
  | none =>
    simp only [gnuStep, hf] at h ⊢
    obtain ⟨next, hnext, hout⟩ := Option.bind_eq_some_iff.mp h
    obtain rfl := Option.some.inj hout
    simp only [id] at hlt' hnext
    rw [u64_eq hlt, placeOrdinary_u64 hnext (by omega)]
    simp only [Option.bind_eq_bind, Option.bind_some]
    rw [u64_eq (by omega)]
    rfl
  | some w =>
    simp only [gnuStep, hf] at h ⊢
    exact gnuBitField_u64 hf (hint (by rw [hf]; rfl)) h (by omega) fun fl hfl => hsum fl w hfl hf

/-- The packer's run over the fields, in unbounded arithmetic and in 64 bits. -/
theorem gnuFields_run {fs done : List Field} (hsplit : c.fields = done ++ fs)
    (hint : IntegerUnits fs) (hp : Placed c done st.out.places st.pos)
    (hpos : st.pos = room c done) (hunits : UnitsAt c done st.out.places)
    (h : gnuFields id params c fs st = some st') :
    Placed c c.fields st'.out.places st'.pos ∧ st'.pos = room c c.fields ∧
      UnitsAt c c.fields st'.out.places ∧ st.pos ≤ st'.pos ∧
      st'.out.align = fs.foldl (fun a f => a.max (alignOf params c f)) st.out.align ∧
      (BitCountsFit c → gnuFields u64 params c fs st = some st') := by
  induction fs generalizing st done with
  | nil =>
    obtain rfl := Option.some.inj h
    rw [List.append_nil] at hsplit
    rw [hsplit]
    exact ⟨hp, hpos, hunits, le_rfl, rfl, fun _ => rfl⟩
  | cons f fs ih =>
    obtain ⟨mid, hmid, hrest⟩ := Option.bind_eq_some_iff.mp h
    have hintf := hint f List.mem_cons_self
    have hints : IntegerUnits fs := fun g hg => hint g (List.mem_cons_of_mem _ hg)
    have hplaced : Placed c (done ++ [f]) mid.out.places mid.pos ∧ st.pos ≤ mid.pos := by
      cases hf : f.bitWidth with
      | none =>
        simp only [gnuStep, hf] at hmid
        obtain ⟨next, hnext, hout⟩ := Option.bind_eq_some_iff.mp hmid
        obtain rfl := Option.some.inj hout
        simp only [id] at hnext ⊢
        obtain ⟨hp', hle⟩ := hp.ordinary hf (by omega) hnext
        exact ⟨by simpa only [Nat.mul_comm] using hp', by omega⟩
      | some w =>
        simp only [gnuStep, hf] at hmid
        exact hp.gnuBitField hf (hintf (by rw [hf]; rfl)) hmid
    obtain ⟨hp', hle⟩ := hplaced
    obtain ⟨hpos', halign, hunits'⟩ := gnuStep_spec hp.length_eq hintf hpos hunits hmid
    obtain ⟨hp'', hpos'', hunits'', hle', halign', hrun⟩ :=
      ih (by rw [hsplit, List.append_assoc]; rfl) hints hp' hpos' hunits' hrest
    refine ⟨hp'', hpos'', hunits'', hle.trans hle', by rw [halign', halign]; rfl, fun hfit => ?_⟩
    have hwhole := hfit.whole
    have hget : c.fields[done.length]? = some f := by simp [hsplit]
    have htake : room c (c.fields.take done.length) = st.pos := by
      rw [hsplit, List.take_left, hpos]
    rw [gnuFields, gnuStep_u64 hintf hmid (by omega) (by omega) fun fl w hfl hw hneed =>
      htake ▸ hfit.roundings done.length f fl w hget hfl hw (htake.symm ▸ hneed)]
    exact hrun hfit

theorem unit_inside_iff {b unit size : ℕ} (hunit : 0 < unit) :
    b / (unit * 8) * unit + unit ≤ size ↔ b < size / unit * (unit * 8) := by
  rw [← Nat.div_lt_iff_lt_mul (by omega), ← Nat.add_one_mul, ← Nat.le_div_iff_mul_le hunit]
  exact Iff.rfl

/-- The units of the bit-fields lie in the struct exactly if none begins in the rest of it. -/
theorem units_inside_iff {places : List FieldPlace} (hlen : places.length = c.fields.length)
    (hfields : ∀ x ∈ c.fields.zip places, InUnit x)
    (hsizes : ∀ f ∈ c.fields, f.bitWidth.isSome → ∀ fl, f.layout = some fl → 0 < fl.size)
    (hunits : UnitsAt c c.fields places) :
    (∀ x ∈ c.fields.zip places, UnitInside (structSize params c) x) ↔ UnitsWhole params c := by
  constructor
  · intro h i f fl w hf hfl hw h0
    obtain ⟨p, hp⟩ : ∃ p, places[i]? = some p := by
      have hi := (List.getElem?_eq_some_iff.mp hf).1
      exact ⟨places[i], List.getElem?_eq_getElem (hlen ▸ hi)⟩
    obtain ⟨hbytes, hoff⟩ := hunits i f p fl w hf hp hfl hw h0
    have hmem : (f, p) ∈ c.fields.zip places :=
      List.mem_of_getElem? (List.getElem?_zip_eq_some.mpr ⟨hf, hp⟩)
    have hin := h _ hmem w hw h0
    simp only [hbytes, hoff] at hin
    have hsize := hsizes f (List.mem_of_getElem? hf) (by rw [hw]; rfl) fl hfl
    exact (unit_inside_iff hsize).mp hin
  · intro h x hx w hw h0
    obtain ⟨i, hi⟩ := List.mem_iff_getElem?.mp hx
    obtain ⟨hf, hp⟩ := List.getElem?_zip_eq_some.mp hi
    obtain ⟨fl, hfl, -⟩ := hfields x hx w hw h0
    obtain ⟨hbytes, hoff⟩ := hunits i x.1 x.2 fl w hf hp hfl hw h0
    rw [hbytes, hoff]
    have hsize := hsizes x.1 (List.mem_of_getElem? hf) (by rw [hw]; rfl) fl hfl
    exact (unit_inside_iff hsize).mpr (h i x.1 fl w hf hfl hw h0)

theorem gnuFields_size_pos {fs : List Field} (h : gnuFields id params c fs st = some st') :
    ∀ f ∈ fs, f.bitWidth.isSome → ∀ fl, f.layout = some fl → 0 < fl.size := by
  induction fs generalizing st with
  | nil => simp
  | cons f fs ih =>
    obtain ⟨mid, hmid, hrest⟩ := Option.bind_eq_some_iff.mp h
    intro g hg hw fl hfl
    rcases List.mem_cons.mp hg with rfl | hg
    · obtain ⟨w, hw⟩ := Option.isSome_iff_exists.mp hw
      simp only [gnuStep, hw] at hmid
      obtain ⟨fl', hfl', hsize, -⟩ := gnuBitField_eq_some hw hmid
      rw [hfl] at hfl'
      exact Option.some.inj hfl' ▸ hsize
    · exact ih hrest g hg hw fl hfl

end Gnu

/-- The next free bit: inside the open unit, or after everything. -/
def MsvcState.frontier (st : MsvcState) : ℕ :=
  if st.unitTypeSize = 0 then 8 * st.highWaterByte else 8 * st.unitStartByte + st.unitBitsUsed

/-- What Microsoft's packer keeps: the fields are in order, and every unit it opened is inside. -/
structure MsvcPlaced (c : Composite) (done : List Field) (st : MsvcState) : Prop where
  placed : Placed c done st.out.places st.frontier
  unitOpen : st.unitTypeSize ≠ 0 → st.unitStartByte + st.unitTypeSize ≤ st.highWaterByte ∧
    st.unitBitsUsed ≤ 8 * st.unitTypeSize
  units : ∀ x ∈ done.zip st.out.places, UnitInside st.highWaterByte x

section Msvc

variable {c : Composite} {f : Field} {w : ℕ} {st st' : MsvcState} {done : List Field}

theorem MsvcPlaced.frontier_le (h : MsvcPlaced c done st) :
    st.frontier ≤ 8 * st.highWaterByte := by
  rw [MsvcState.frontier]
  split_ifs with hopen
  · exact le_rfl
  · obtain ⟨h1, h2⟩ := h.unitOpen hopen
    omega

theorem units_snoc {places : List FieldPlace} {p : FieldPlace} {size size' : ℕ}
    (hlen : places.length = done.length) (h : ∀ x ∈ done.zip places, UnitInside size x)
    (hle : size ≤ size') (hnew : UnitInside size' (f, p)) :
    ∀ x ∈ (done ++ [f]).zip (places ++ [p]), UnitInside size' x := by
  rw [Placed.zip_snoc hlen]
  intro x hx
  rcases List.mem_append.mp hx with hx | hx
  · exact fun w hw hpos => (h x hx w hw hpos).trans hle
  · rw [List.mem_singleton.mp hx]
    exact hnew

/-- What a bit-field leaves behind: a break that closes the open unit, a break that does nothing,
or bits in the open unit or in a new one. -/
theorem msvcBitField_eq_some {wr : ℕ → ℕ} (h : msvcBitField wr c f w st = some st') :
    ∃ fl ua, f.layout = some fl ∧ 0 < fl.size ∧ f.incomplete = false ∧
      clampedBaselineAlign (fieldPackedBaseline c f) c.packCap fl.align = some ua ∧
      ((w = 0 ∧ st.unitTypeSize ≠ 0 ∧
          st' = { st with highWaterByte := ua.alignUp wr st.highWaterByte, unitTypeSize := 0,
                          out := st.out.place ua
                            { offset := ua.alignUp wr st.highWaterByte } false }) ∨
        (w = 0 ∧ st.unitTypeSize = 0 ∧
          st' = { st with out := st.out.place .one { offset := st.highWaterByte } false }) ∨
        (0 < w ∧ w ≤ wr (fl.size * 8) ∧ ∃ start used,
          ((st.unitTypeSize = fl.size ∧ wr (st.unitBitsUsed + w) ≤ wr (fl.size * 8) ∧
              start = st.unitStartByte ∧ used = st.unitBitsUsed) ∨
            (¬ (st.unitTypeSize = fl.size ∧ wr (st.unitBitsUsed + w) ≤ wr (fl.size * 8)) ∧
              start = ua.alignUp wr st.highWaterByte ∧ used = 0)) ∧
          st' = { highWaterByte := max st.highWaterByte (wr (start + fl.size)),
                  unitTypeSize := fl.size, unitStartByte := start,
                  unitBitsUsed := wr (used + w),
                  out := st.out.place ua
                    { offset := start, unitBytes := fl.size % 2 ^ 32, bitOffset := used % 2 ^ 32,
                      bitWidth := w } false })) := by
  simp only [msvcBitField, Option.bind_eq_bind, Option.bind_eq_some_iff] at h
  obtain ⟨fl, hfl, h⟩ := h
  by_cases hz : f.incomplete = true ∨ fl.size = 0
  · rw [if_pos hz] at h
    cases h
  rw [if_neg hz] at h
  obtain ⟨ua, hua, h⟩ := Option.bind_eq_some_iff.mp h
  refine ⟨fl, ua, hfl, Nat.pos_of_ne_zero fun h0 => hz (Or.inr h0),
    Bool.eq_false_iff.mpr fun hi => hz (Or.inl hi), hua, ?_⟩
  by_cases hw : w = 0
  · rw [if_pos hw] at h
    by_cases hopen : st.unitTypeSize ≠ 0
    · rw [if_pos hopen] at h
      exact Or.inl ⟨hw, hopen, (Option.some.inj h).symm⟩
    · rw [if_neg hopen] at h
      exact Or.inr (Or.inl ⟨hw, not_not.mp hopen, (Option.some.inj h).symm⟩)
  · rw [if_neg hw] at h
    by_cases hwide : w > wr (fl.size * 8)
    · rw [if_pos hwide] at h
      cases h
    rw [if_neg hwide] at h
    refine Or.inr (Or.inr ⟨Nat.pos_of_ne_zero hw, not_lt.mp hwide, _, _, ?_,
      (Option.some.inj h).symm⟩)
    by_cases hcont : st.unitTypeSize = fl.size ∧ wr (st.unitBitsUsed + w) ≤ wr (fl.size * 8)
    · left
      simp [hcont.1, hcont.2]
    · right
      refine ⟨hcont, ?_, ?_⟩
      · rw [if_neg (by simpa using hcont)]
      · rw [if_neg (by simpa using hcont)]

theorem MsvcPlaced.bitField (hf : f.bitWidth = some w)
    (hint : ∀ fl, f.layout = some fl → fl.size < 2 ^ 29) (hp : MsvcPlaced c done st)
    (h : msvcBitField id c f w st = some st') :
    MsvcPlaced c (done ++ [f]) st' ∧ st.highWaterByte ≤ st'.highWaterByte := by
  have hnone : ∀ p, AlignedField c (f, p) := by
    intro p hn
    rw [hf] at hn
    cases hn
  have hfront := hp.frontier_le
  obtain ⟨fl, ua, hfl, hsize, -, -, hcase⟩ := msvcBitField_eq_some h
  have hsmall := hint fl hfl
  have hup := ua.le_alignUp st.highWaterByte
  have hzero : w = 0 → ∀ p, InUnit (f, p) ∧ ∀ size, UnitInside size (f, p) := by
    rintro rfl p
    constructor
    · intro w' hw' hpos
      rw [hf] at hw'
      obtain rfl := Option.some.inj hw'
      exact absurd hpos (lt_irrefl 0)
    · intro size w' hw' hpos
      rw [hf] at hw'
      obtain rfl := Option.some.inj hw'
      exact absurd hpos (lt_irrefl 0)
  rcases hcase with ⟨hw, -, rfl⟩ | ⟨hw, hclosed, rfl⟩ | ⟨hw, hwide, start, used, hwhere, rfl⟩
  · refine ⟨⟨hp.placed.snoc ?_ ?_ (hnone _) (hzero hw _).1, ?_, ?_⟩, hup⟩
    · simp only [startBit]
      omega
    · simp only [startBit, bitLength, hf, MsvcState.frontier, if_pos]
      omega
    · exact fun hopen => absurd rfl hopen
    · exact units_snoc hp.placed.length_eq hp.units hup ((hzero hw _).2 _)
  · refine ⟨⟨hp.placed.snoc ?_ ?_ (hnone _) (hzero hw _).1, ?_, ?_⟩, le_rfl⟩
    · simp only [startBit]
      omega
    · simp only [startBit, bitLength, hf, MsvcState.frontier, if_pos hclosed]
      omega
    · exact fun hopen => absurd hclosed hopen
    · exact units_snoc hp.placed.length_eq hp.units le_rfl ((hzero hw _).2 _)
  · simp only [id] at hwide hwhere ⊢
    -- In the open unit the field begins at the frontier; a new unit begins after everything.
    have hbits : used + w ≤ fl.size * 8 ∧ st.frontier ≤ 8 * start + used := by
      rcases hwhere with ⟨hsame, hfit, rfl, rfl⟩ | ⟨-, rfl, rfl⟩
      · refine ⟨hfit, ?_⟩
        rw [MsvcState.frontier, if_neg (by omega)]
      · exact ⟨by omega, by omega⟩
    have h32 : fl.size % 2 ^ 32 = fl.size := Nat.mod_eq_of_lt (by omega)
    have h32' : used % 2 ^ 32 = used := Nat.mod_eq_of_lt (by omega)
    rw [h32, h32']
    refine ⟨⟨hp.placed.snoc ?_ ?_ (hnone _) ?_, ?_, ?_⟩, le_max_left _ _⟩
    · simp only [startBit]
      omega
    · simp only [startBit, bitLength, hf, MsvcState.frontier, if_neg hsize.ne']
      omega
    · intro w' hw' _
      rw [hf] at hw'
      obtain rfl := Option.some.inj hw'
      refine ⟨fl, hfl, rfl, rfl, ?_⟩
      simp only
      omega
    · exact fun _ => ⟨le_max_right _ _, by simp only; omega⟩
    · refine units_snoc hp.placed.length_eq hp.units (le_max_left _ _) ?_
      intro _ _ _
      exact le_max_right _ _

theorem msvcBitField_u64 (hint : ∀ fl, f.layout = some fl → fl.size < 2 ^ 29)
    (hp : MsvcPlaced c done st) (h : msvcBitField id c f w st = some st')
    (hlt : st'.highWaterByte < 2 ^ 64) : msvcBitField u64 c f w st = some st' := by
  rw [← h]
  obtain ⟨fl, ua, hfl, hsize, hinc, hua, hcase⟩ := msvcBitField_eq_some h
  have hsmall := hint fl hfl
  have hunit : u64 (fl.size * 8) = fl.size * 8 := u64_eq (by omega)
  simp only [msvcBitField, hfl, hua, Option.bind_eq_bind, Option.bind_some, hunit, id]
  refine if_congr Iff.rfl rfl ?_
  rcases hcase with ⟨hw, hopen, rfl⟩ | ⟨hw, hclosed, rfl⟩ | ⟨hw, hwide, start, used, hwhere, rfl⟩
  · simp only [if_pos hw, if_pos hopen, Alignment.alignUp_u64 hlt]
  · simp only [if_pos hw, if_neg (not_not.mpr hclosed)]
  · simp only [id] at hwide hwhere hlt
    have hbits : st.unitTypeSize = fl.size → st.unitBitsUsed ≤ 8 * fl.size := by
      intro hsame
      have := (hp.unitOpen (by omega)).2
      omega
    have hcont : (st.unitTypeSize == fl.size && decide (u64 (st.unitBitsUsed + w) ≤ fl.size * 8)) =
        (st.unitTypeSize == fl.size && decide (st.unitBitsUsed + w ≤ fl.size * 8)) := by
      by_cases hsame : st.unitTypeSize = fl.size
      · have := hbits hsame
        rw [u64_eq (by omega)]
      · rw [beq_eq_false_iff_ne.mpr hsame, Bool.false_and, Bool.false_and]
    have hend : start + fl.size < 2 ^ 64 := lt_of_le_of_lt (le_max_right _ _) hlt
    rw [if_neg hw.ne', if_neg hw.ne', hcont]
    refine if_congr Iff.rfl rfl ?_
    rcases hwhere with ⟨hsame, hfit, rfl, rfl⟩ | ⟨hnot, rfl, rfl⟩
    · have htrue : (st.unitTypeSize == fl.size && decide (st.unitBitsUsed + w ≤ fl.size * 8)) =
          true := by simp [hsame, hfit]
      simp only [htrue, if_true, u64_eq hend, u64_eq (show st.unitBitsUsed + w < 2 ^ 64 by omega)]
    · have hfalse : (st.unitTypeSize == fl.size && decide (st.unitBitsUsed + w ≤ fl.size * 8)) =
          false := by simpa using hnot
      have hstart : ua.alignUp u64 st.highWaterByte = ua.alignUp id st.highWaterByte :=
        Alignment.alignUp_u64 (by omega)
      simp only [hfalse, Bool.false_eq_true, if_false, hstart, u64_eq hend,
        u64_eq (show 0 + w < 2 ^ 64 by omega)]

theorem msvcFields_run {fs : List Field} (hint : IntegerUnits fs) (hp : MsvcPlaced c done st)
    (h : msvcFields id c fs st = some st') :
    MsvcPlaced c (done ++ fs) st' ∧ st.highWaterByte ≤ st'.highWaterByte ∧
      (st'.highWaterByte < 2 ^ 64 → msvcFields u64 c fs st = some st') := by
  induction fs generalizing st done with
  | nil =>
    obtain rfl := Option.some.inj h
    rw [List.append_nil]
    exact ⟨hp, le_rfl, fun _ => rfl⟩
  | cons f fs ih =>
    obtain ⟨mid, hmid, hrest⟩ := Option.bind_eq_some_iff.mp h
    have hints : IntegerUnits fs := fun g hg => hint g (List.mem_cons_of_mem _ hg)
    have hstep : MsvcPlaced c (done ++ [f]) mid ∧ st.highWaterByte ≤ mid.highWaterByte ∧
        (mid.highWaterByte < 2 ^ 64 → msvcStep u64 c f fs.isEmpty st = some mid) := by
      cases hf : f.bitWidth with
      | none =>
        simp only [msvcStep, hf] at hmid ⊢
        obtain ⟨next, hnext, hout⟩ := Option.bind_eq_some_iff.mp hmid
        obtain rfl := Option.some.inj hout
        obtain ⟨hp', hle⟩ := hp.placed.ordinary hf hp.frontier_le hnext
        obtain ⟨fl, ea, -, -, -, rfl⟩ := placeOrdinary_eq_some hnext
        refine ⟨⟨hp', fun hopen => absurd rfl hopen, ?_⟩, hle, fun hlt => ?_⟩
        · refine units_snoc hp.placed.length_eq hp.units hle ?_
          intro w hw
          rw [hf] at hw
          cases hw
        · rw [placeOrdinary_u64 hnext hlt]
          rfl
      | some w =>
        simp only [msvcStep, hf] at hmid ⊢
        have hintf : ∀ fl, f.layout = some fl → fl.size < 2 ^ 29 :=
          hint f List.mem_cons_self (by rw [hf]; rfl)
        obtain ⟨hp', hle⟩ := hp.bitField hf hintf hmid
        exact ⟨hp', hle, msvcBitField_u64 hintf hp hmid⟩
    obtain ⟨hp', hle, hu⟩ := hstep
    obtain ⟨hp'', hle', hrun⟩ := ih hints hp' hrest
    rw [List.append_assoc, List.singleton_append] at hp''
    refine ⟨hp'', hle.trans hle', fun hlt => ?_⟩
    rw [msvcFields, hu (lt_of_le_of_lt hle' hlt)]
    exact hrun hlt

end Msvc

/-- The struct has bit-fields and the platform packs them by GNU's rule. -/
def GnuBitfields (params : LayoutParams) (c : Composite) : Prop :=
  c.anyBitfield = true ∧ params.bitFieldStrategy = .gnuPacked

theorem layoutStruct_run {params : LayoutParams} {c : Composite} {exact : StructLayout}
    (hexp : c.hasExplicitOffsets = false) (hint : IntegerUnits c.fields)
    (hexact : layoutStruct id params c = some exact) (hfits : exact.size < 2 ^ 64)
    (hsums : GnuBitfields params c → BitCountsFit c) :
    layoutStruct u64 params c = some exact ∧
      ∃ pos, Placed c c.fields exact.places pos ∧ pos ≤ 8 * exact.size ∧
        exact.align.bytes ∣ exact.size ∧
        ((∀ x ∈ c.fields.zip exact.places, UnitInside exact.size x) ↔
          (GnuBitfields params c → UnitsWhole params c)) := by
  obtain ⟨seed, hseed, h⟩ := Option.bind_eq_some_iff.mp hexact
  have hu : layoutStruct u64 params c = (some seed).bind _ := congrArg (Option.bind · _) hseed
  rw [hu, Option.bind_some]
  rw [if_neg (by simp [hexp])] at h ⊢
  by_cases hany : c.anyBitfield = true
  · rw [if_neg (by simp [hany])] at h ⊢
    cases hk : params.bitFieldStrategy with
    | none =>
      simp only [hk] at h
      cases h
    | gnuPacked =>
      simp only [hk] at h ⊢
      obtain ⟨st, hst, hout⟩ := Option.bind_eq_some_iff.mp h
      obtain rfl := Option.some.inj hout
      have hfit := hsums ⟨hany, hk⟩
      obtain ⟨hp, hpos, hunits, -, halign, hrun⟩ := gnuFields_run (by simp) hint (Placed.nil c) rfl
        (fun i f p fl w hf => by simp at hf) hst
      have hlt : st.pos + 7 < 2 ^ 64 := hpos ▸ hfit.whole
      have hexact : st.out.align.alignUp id ((st.pos + 7) / 8) = structSize params c := by
        rw [structSize, structAlign, hseed, halign, hpos]
        rfl
      have hsize : st.out.align.alignUp u64 ((st.pos + 7) / 8) =
          st.out.align.alignUp id ((st.pos + 7) / 8) := Alignment.alignUp_u64 hfits
      refine ⟨?_, st.pos, hp, ?_, Alignment.dvd_alignUp _ _ _, ?_⟩
      · rw [hrun hfit]
        simp only [Option.bind_eq_bind, Option.bind_some, u64_eq hlt, hsize]
        rfl
      · have := st.out.align.le_alignUp ((st.pos + 7) / 8)
        simp only [id]
        omega
      · have hiff := @units_inside_iff params c st.out.places hp.length_eq hp.inUnit
          (gnuFields_size_pos hst) hunits
        rw [← hexact] at hiff
        exact hiff.trans ⟨fun h _ => h, fun h => h ⟨hany, hk⟩⟩
    | msvcStraddle =>
      simp only [hk] at h ⊢
      obtain ⟨st, hst, hout⟩ := Option.bind_eq_some_iff.mp h
      obtain rfl := Option.some.inj hout
      have hle := st.out.align.le_alignUp st.highWaterByte
      have hstart : MsvcPlaced c [] { out := { align := seed } } := ⟨Placed.nil c, by simp, by simp⟩
      obtain ⟨hp, -, hrun⟩ := msvcFields_run hint hstart hst
      refine ⟨?_, st.frontier, hp.placed, ?_, Alignment.dvd_alignUp _ _ _,
        ⟨fun _ hg => ?_, fun _ x hx w hw h0 => ?_⟩⟩
      · rw [hrun (lt_of_le_of_lt hle hfits)]
        simp only [Option.bind_eq_bind, Option.bind_some, Alignment.alignUp_u64 hfits]
      · have := hp.frontier_le
        simp only
        omega
      · have hno := hg.2
        rw [hk] at hno
        cases hno
      · exact (hp.units x hx w hw h0).trans hle
  · rw [if_pos (by simp [hany])] at h ⊢
    obtain ⟨st, hst, hout⟩ := Option.bind_eq_some_iff.mp h
    obtain rfl := Option.some.inj hout
    have hbits : ∀ f ∈ c.fields, f.bitWidth = none := by
      simpa [Composite.anyBitfield] using hany
    have hle := st.out.align.le_alignUp st.pos
    obtain ⟨hp, -, hrun⟩ := plainFields_run hbits (Placed.nil c) hst
    refine ⟨?_, 8 * st.pos, hp, ?_, Alignment.dvd_alignUp _ _ _,
      ⟨fun _ hg => absurd hg.1 hany, fun _ x hx w hw => ?_⟩⟩
    · rw [hrun (lt_of_le_of_lt hle hfits)]
      simp only [Option.bind_eq_bind, Option.bind_some, Alignment.alignUp_u64 hfits]
    · simp only
      omega
    · rw [hbits x.1 (List.of_mem_zip hx).1] at hw
      cases hw

/-- **Struct layout is sound up to the last units.**  A struct whose layout in unbounded arithmetic
fits 64 bits is laid out so, and soundly exactly if it has no bit-fields of GNU's rule or none of
them begins in the rest that the struct's size leaves over whole units of its declared type. -/
theorem layoutStruct_sound_iff (params : LayoutParams) (c : Composite) (exact : StructLayout)
    (hexp : c.hasExplicitOffsets = false) (hint : IntegerUnits c.fields)
    (hexact : layoutStruct id params c = some exact) (hfits : exact.size < 2 ^ 64)
    (hsums : GnuBitfields params c → BitCountsFit c) :
    ∃ out, layoutStruct u64 params c = some out ∧
      (Sound c out ↔ (GnuBitfields params c → UnitsWhole params c)) := by
  obtain ⟨hu, pos, hp, hle, hdvd, hunits⟩ := layoutStruct_run hexp hint hexact hfits hsums
  exact ⟨exact, hu, fun hs => hunits.mp hs.unitInside, fun hwhole =>
    hp.sound hle hdvd (hunits.mpr hwhole)⟩

def gnuParams : LayoutParams := ⟨.gnuPacked, .contributes⟩

def unsignedLayout : ChildLayout := ⟨4, ⟨2, by decide⟩, by decide⟩

def twoBitFields : Composite where
  fields := [{ layout := some unsignedLayout, bitWidth := some 3 },
    { layout := some unsignedLayout, bitWidth := some 5 }]

def twoBitFieldsLayout : StructLayout where
  size := 4
  align := ⟨2, by decide⟩
  places := [⟨0, 4, 0, 3⟩, ⟨0, 4, 3, 5⟩]

theorem twoBitFields_get {i : ℕ} {f : Field} (h : twoBitFields.fields[i]? = some f) :
    f.layout = some unsignedLayout ∧
      (i = 0 ∧ f.bitWidth = some 3 ∨ i = 1 ∧ f.bitWidth = some 5) := by
  match i with
  | 0 =>
    obtain rfl := Option.some.inj h
    exact ⟨rfl, .inl ⟨rfl, rfl⟩⟩
  | 1 =>
    obtain rfl := Option.some.inj h
    exact ⟨rfl, .inr ⟨rfl, rfl⟩⟩
  | i + 2 => cases h

theorem twoBitFields_countsFit : BitCountsFit twoBitFields := by
  refine ⟨by decide, fun i f fl w hf hfl hw _ => ?_⟩
  obtain ⟨hlayout, hwhere⟩ := twoBitFields_get hf
  rw [hlayout] at hfl
  obtain rfl := Option.some.inj hfl
  obtain ⟨rfl, -⟩ | ⟨rfl, -⟩ := hwhere <;> decide

theorem twoBitFields_laid_out_soundly :
    layoutStruct id gnuParams twoBitFields = some twoBitFieldsLayout ∧
      ∃ out, layoutStruct u64 gnuParams twoBitFields = some out ∧ Sound twoBitFields out := by
  have hexact : layoutStruct id gnuParams twoBitFields = some twoBitFieldsLayout := by decide
  have hint : IntegerUnits twoBitFields.fields := by
    intro f hf _ fl hfl
    obtain ⟨i, hi⟩ := List.mem_iff_getElem?.mp hf
    rw [(twoBitFields_get hi).1] at hfl
    obtain rfl := Option.some.inj hfl
    decide
  have hwhole : UnitsWhole gnuParams twoBitFields := by
    intro i f fl w hf hfl hw _
    obtain ⟨hlayout, hwhere⟩ := twoBitFields_get hf
    rw [hlayout] at hfl
    obtain rfl := Option.some.inj hfl
    obtain ⟨rfl, hbits⟩ | ⟨rfl, hbits⟩ := hwhere <;> rw [hbits] at hw <;>
      obtain rfl := Option.some.inj hw <;> obtain rfl := Option.some.inj hf <;> decide
  obtain ⟨out, hout, hiff⟩ := layoutStruct_sound_iff gnuParams twoBitFields twoBitFieldsLayout rfl
    hint hexact (by decide) fun _ => twoBitFields_countsFit
  exact ⟨hexact, out, hout, hiff.mpr fun _ => hwhole⟩

def packedBit : Composite where
  fields := [{ layout := some unsignedLayout, bitWidth := some 1 }]
  packed := true

theorem packedBit_unit_overhangs :
    ∃ out, layoutStruct u64 gnuParams packedBit = some out ∧ out.size = 1 ∧
      out.places = [⟨0, 4, 0, 1⟩] ∧ ¬ Sound packedBit out := by
  refine ⟨_, rfl, rfl, rfl, fun hs => ?_⟩
  have hunit := hs.unitInside _ (List.mem_cons_self ..) 1 rfl (by decide)
  exact absurd hunit (by decide)

end DssPrime.Layout
