import DssPrime.Types.CharDecode
import DssPrime.Mir.Basic

/-!
# Encoding a string literal

`encodeWideString` walks the escape-decoded buffer in the runs between the recorded escapes. A run
is decoded as UTF-8 and encoded again in the element width; an escape is one raw code unit.

A run is accepted exactly when it is the UTF-8 encoding of some characters
(`decodeUtf8ToCodepoints_iff`), so encoding fails exactly on a run that is none and on an escape
wider than the element.
-/

namespace DssPrime.StringLiteral

inductive WideEncodeError where
  | illFormedUtf8 | codepointTooLarge | escapeValueTooWide
  deriving DecidableEq

/-- The bits of a leading byte, the length of its sequence and the least code point of that
length. -/
def leadByte (b0 : ℕ) : Option (ℕ × ℕ × ℕ) :=
  if b0 < 0x80 then some (b0, 1, 0)
  else if b0 &&& 0xE0 = 0xC0 then some (b0 &&& 0x1F, 2, 0x80)
  else if b0 &&& 0xF0 = 0xE0 then some (b0 &&& 0x0F, 3, 0x800)
  else if b0 &&& 0xF8 = 0xF0 then some (b0 &&& 0x07, 4, 0x10000)
  else none

def continuation : ℕ → List UInt8 → ℕ → Option (ℕ × List UInt8)
  | 0, s, cp => some (cp, s)
  | _ + 1, [], _ => none
  | k + 1, b :: s, cp =>
    if b.toNat &&& 0xC0 = 0x80 then continuation k s ((cp <<< 6) ||| (b.toNat &&& 0x3F)) else none

def decodeSequence (b0 : UInt8) (s : List UInt8) : Except WideEncodeError (ℕ × List UInt8) :=
  match leadByte b0.toNat with
  | none => .error .illFormedUtf8
  | some (cp, len, lo) =>
    match continuation (len - 1) s cp with
    | none => .error .illFormedUtf8
    | some r =>
      if r.1 < lo then .error .illFormedUtf8
      else if r.1 > 0x10FFFF then .error .codepointTooLarge
      else if 0xD800 ≤ r.1 ∧ r.1 ≤ 0xDFFF then .error .illFormedUtf8
      else .ok r

theorem continuation_length {k : ℕ} {s : List UInt8} {cp : ℕ} {r : ℕ × List UInt8}
    (h : continuation k s cp = some r) : r.2.length ≤ s.length := by
  induction k generalizing s cp with
  | zero =>
    obtain rfl := Option.some.inj h
    exact le_rfl
  | succ k ih =>
    cases s with
    | nil => cases h
    | cons b s =>
      rw [continuation] at h
      split_ifs at h
      exact (ih h).trans (Nat.le_succ _)

theorem decodeSequence_length {b0 : UInt8} {s : List UInt8} {r : ℕ × List UInt8}
    (h : decodeSequence b0 s = .ok r) : r.2.length ≤ s.length := by
  unfold decodeSequence at h
  split at h
  · cases h
  · split at h
    · cases h
    · rename_i hr
      split_ifs at h
      obtain rfl := Except.ok.inj h
      exact continuation_length hr

def decodeUtf8ToCodepoints (bytes : List UInt8) : Except WideEncodeError (List ℕ) :=
  match bytes with
  | [] => .ok []
  | b0 :: s =>
    match _h : decodeSequence b0 s with
    | .error e => .error e
    | .ok r =>
      match decodeUtf8ToCodepoints r.2 with
      | .error e => .error e
      | .ok cps => .ok (r.1 :: cps)
termination_by bytes.length
decreasing_by
  have := decodeSequence_length ‹_›
  simp only [List.length_cons]
  omega

def elementByteWidth : TypeKind → ℕ
  | .u16 => 2
  | .u32 | .i32 => 4
  | _ => 1

def encodeCodepoint (cp : ℕ) : TypeKind → List UInt8
  -- the formulas of the escape decoder's own `appendUtf8`
  | .u8 => appendUtf8 cp
  | .u16 =>
    if cp > 0xFFFF then
      let rest := cp - 0x10000
      let high := 0xD800 + (rest >>> 10)
      let low := 0xDC00 + (rest &&& 0x3FF)
      [lowByte (high &&& 0xFF), lowByte ((high >>> 8) &&& 0xFF), lowByte (low &&& 0xFF),
        lowByte ((low >>> 8) &&& 0xFF)]
    else [lowByte (cp &&& 0xFF), lowByte ((cp >>> 8) &&& 0xFF)]
  | .u32 | .i32 =>
    [lowByte (cp &&& 0xFF), lowByte ((cp >>> 8) &&& 0xFF), lowByte ((cp >>> 16) &&& 0xFF),
      lowByte ((cp >>> 24) &&& 0xFF)]
  -- a narrow core: one low byte
  | _ => [lowByte (cp &&& 0xFF)]

/-- The bytes and the number of units. -/
structure WideEncodeResult where
  bytes : List UInt8
  codeUnits : ℕ
  deriving DecidableEq

def appendRawCodeUnit (v width : ℕ) : List UInt8 :=
  (List.range width).map fun b => lowByte (v >>> (8 * b))

def flushRun (escaped : List UInt8) (core : TypeKind) (start stop : ℕ) (r : WideEncodeResult) :
    Except WideEncodeError WideEncodeResult :=
  if stop ≤ start then .ok r
  else match decodeUtf8ToCodepoints ((escaped.drop start).take (stop - start)) with
    | .error e => .error e
    | .ok cps => .ok (cps.foldl (fun r cp =>
        let bs := encodeCodepoint cp core
        ⟨r.bytes ++ bs, r.codeUnits + bs.length / elementByteWidth core⟩) r)

def encodeUnits (escaped : List UInt8) (core : TypeKind) :
    List EscapeValueUnit → ℕ → WideEncodeResult → Except WideEncodeError WideEncodeResult
  | [], start, r => flushRun escaped core start escaped.length r
  | u :: us, start, r =>
    match flushRun escaped core start u.byteOffset r with
    | .error e => .error e
    | .ok r =>
      if u.value > 2 ^ (8 * elementByteWidth core) - 1 then .error .escapeValueTooWide
      else encodeUnits escaped core us (u.byteOffset + 1)
        ⟨r.bytes ++ appendRawCodeUnit u.value (elementByteWidth core), r.codeUnits + 1⟩

def encodeWideString (escaped : List UInt8) (core : TypeKind)
    (esc : Option (List EscapeValueUnit)) : Except WideEncodeError WideEncodeResult :=
  encodeUnits escaped core (esc.getD []) 0 ⟨[], 0⟩

/-- The value of continuation bytes after the bits `cp` of a leading byte. -/
def tailValue (cp : ℕ) (ts : List UInt8) : ℕ := ts.foldl (fun v b => v * 64 + b.toNat % 64) cp

def IsTail (b : UInt8) : Prop := b.toNat / 64 = 2

theorem leadByte_eq : ∀ b < 256, leadByte b =
    if b < 128 then some (b, 1, 0)
    else if b / 32 = 6 then some (b % 32, 2, 0x80)
    else if b / 16 = 14 then some (b % 16, 3, 0x800)
    else if b / 8 = 30 then some (b % 8, 4, 0x10000)
    else none := by
  decide +kernel

theorem and_C0 : ∀ b < 256, b &&& 0xC0 = 0x80 ↔ b / 64 = 2 := by
  decide +kernel

theorem continuation_spec {k : ℕ} {s : List UInt8} {cp : ℕ} {r : ℕ × List UInt8} :
    continuation k s cp = some r ↔
      ∃ ts, s = ts ++ r.2 ∧ ts.length = k ∧ (∀ b ∈ ts, IsTail b) ∧ r.1 = tailValue cp ts := by
  induction k generalizing s cp with
  | zero =>
    rw [continuation, Option.some.injEq]
    constructor
    · rintro rfl
      exact ⟨[], rfl, rfl, by simp, rfl⟩
    · rintro ⟨ts, hs, hlen, -, hv⟩
      obtain rfl := List.length_eq_zero_iff.1 hlen
      exact Prod.ext hv.symm (by simpa using hs)
  | succ k ih =>
    cases s with
    | nil =>
      constructor
      · intro h
        cases h
      · rintro ⟨ts, hs, hlen, -⟩
        have := congrArg List.length hs
        simp only [List.length_nil, List.length_append] at this
        omega
    | cons b s =>
      have hbits : (cp <<< 6) ||| (b.toNat &&& 0x3F) = cp * 64 + b.toNat % 64 := by
        rw [and_63, Nat.shiftLeft_eq, Nat.mul_comm,
          or_low cp (show b.toNat % 64 < 2 ^ 6 from Nat.mod_lt _ (by norm_num))]
        omega
      rw [continuation, hbits]
      split_ifs with hb
      · rw [ih]
        constructor
        · rintro ⟨ts, hs, hlen, htail, hv⟩
          refine ⟨b :: ts, by rw [hs]; rfl, by rw [List.length_cons, hlen], ?_, hv⟩
          intro a ha
          rcases List.mem_cons.1 ha with rfl | ha
          · exact (and_C0 _ (UInt8.toNat_lt _)).1 hb
          · exact htail a ha
        · rintro ⟨ts, hs, hlen, htail, hv⟩
          obtain ⟨t, ts, rfl⟩ := List.exists_cons_of_length_eq_add_one hlen
          rw [List.cons_append, List.cons.injEq] at hs
          obtain ⟨rfl, hs⟩ := hs
          exact ⟨ts, hs, by simpa using hlen, fun a ha => htail a (by simp [ha]), hv⟩
      · constructor
        · intro h
          cases h
        · rintro ⟨ts, hs, hlen, htail, -⟩
          obtain ⟨t, ts, rfl⟩ := List.exists_cons_of_length_eq_add_one hlen
          obtain ⟨rfl, -⟩ := List.cons.inj hs
          exact absurd ((and_C0 _ b.toNat_lt).2 (htail b (by simp))) hb

theorem toNat_ofNat_lt {v : ℕ} (h : v < 256) : (UInt8.ofNat v).toNat = v := by
  rw [UInt8.toNat_ofNat']
  exact Nat.mod_eq_of_lt h

theorem eq_ofNat {v : ℕ} {b : UInt8} (h : v = b.toNat) : UInt8.ofNat v = b := by
  rw [h, UInt8.ofNat_toNat]

theorem isTail_ofNat {x : ℕ} : IsTail (UInt8.ofNat (x % 64 + 0x80)) := by
  rw [IsTail, toNat_ofNat_lt (by omega)]
  omega

theorem utf8Sequence_of_lead {b0 : UInt8} {ts : List UInt8} {cp lo : ℕ}
    (hlead : leadByte b0.toNat = some (cp, ts.length + 1, lo)) (htail : ∀ b ∈ ts, IsTail b)
    (hlo : lo ≤ tailValue cp ts) : utf8Sequence (tailValue cp ts) = b0 :: ts := by
  have hb0 := b0.toNat_lt
  rw [leadByte_eq _ hb0] at hlead
  -- one case for each length of a sequence
  split_ifs at hlead with h1 h2 h3 h4
  · obtain ⟨rfl, hlen, rfl⟩ : b0.toNat = cp ∧ 1 = ts.length + 1 ∧ 0 = lo := by simpa using hlead
    obtain rfl := List.length_eq_zero_iff.1 (by omega : ts.length = 0)
    rw [utf8Sequence, if_pos (by simpa [tailValue] using h1)]
    exact congrArg (· :: []) (eq_ofNat rfl)
  · obtain ⟨rfl, hlen, rfl⟩ : b0.toNat % 32 = cp ∧ 2 = ts.length + 1 ∧ 0x80 = lo := by
      simpa using hlead
    obtain ⟨b1, rfl⟩ := List.length_eq_one_iff.1 (by omega : ts.length = 1)
    have ht1 : b1.toNat / 64 = 2 := htail b1 (by simp)
    simp only [tailValue, List.foldl_cons, List.foldl_nil] at hlo ⊢
    rw [utf8Sequence, if_neg (by omega), if_pos (by omega), eq_ofNat (b := b0) (by omega),
      eq_ofNat (b := b1) (by omega)]
  · obtain ⟨rfl, hlen, rfl⟩ : b0.toNat % 16 = cp ∧ 3 = ts.length + 1 ∧ 0x800 = lo := by
      simpa using hlead
    obtain ⟨b1, b2, rfl⟩ := List.length_eq_two.1 (by omega : ts.length = 2)
    have ht1 : b1.toNat / 64 = 2 := htail b1 (by simp)
    have ht2 : b2.toNat / 64 = 2 := htail b2 (by simp)
    simp only [tailValue, List.foldl_cons, List.foldl_nil] at hlo ⊢
    rw [utf8Sequence, if_neg (by omega), if_neg (by omega), if_pos (by omega),
      eq_ofNat (b := b0) (by omega), eq_ofNat (b := b1) (by omega), eq_ofNat (b := b2) (by omega)]
  · obtain ⟨rfl, hlen, rfl⟩ : b0.toNat % 8 = cp ∧ 4 = ts.length + 1 ∧ 0x10000 = lo := by
      simpa using hlead
    obtain ⟨b1, b2, b3, rfl⟩ := List.length_eq_three.1 (by omega : ts.length = 3)
    have ht1 : b1.toNat / 64 = 2 := htail b1 (by simp)
    have ht2 : b2.toNat / 64 = 2 := htail b2 (by simp)
    have ht3 : b3.toNat / 64 = 2 := htail b3 (by simp)
    simp only [tailValue, List.foldl_cons, List.foldl_nil] at hlo ⊢
    rw [utf8Sequence, if_neg (by omega), if_neg (by omega), if_neg (by omega),
      eq_ofNat (b := b0) (by omega), eq_ofNat (b := b1) (by omega), eq_ofNat (b := b2) (by omega),
      eq_ofNat (b := b3) (by omega)]

theorem lead_of_utf8Sequence {v : ℕ} (hv : v < 0x110000) {b0 : UInt8} {ts : List UInt8}
    (h : utf8Sequence v = b0 :: ts) :
    ∃ cp lo, leadByte b0.toNat = some (cp, ts.length + 1, lo) ∧ (∀ b ∈ ts, IsTail b) ∧
      v = tailValue cp ts ∧ lo ≤ v := by
  unfold utf8Sequence at h
  split_ifs at h with h1 h2 h3
  · obtain ⟨rfl, rfl⟩ := List.cons.inj h
    refine ⟨v, 0, ?_, by simp, rfl, Nat.zero_le _⟩
    rw [toNat_ofNat_lt (by omega), leadByte_eq _ (by omega), if_pos h1]
    rfl
  · obtain ⟨rfl, rfl⟩ := List.cons.inj h
    refine ⟨v / 64, 0x80, ?_, ?_, ?_, by omega⟩
    · rw [toNat_ofNat_lt (by omega), leadByte_eq _ (by omega), if_neg (by omega),
        if_pos (by omega)]
      simp
      omega
    · simp only [List.forall_mem_cons, isTail_ofNat, true_and]
      exact List.forall_mem_nil _
    · simp only [tailValue, List.foldl_cons, List.foldl_nil]
      rw [toNat_ofNat_lt (by omega)]
      omega
  · obtain ⟨rfl, rfl⟩ := List.cons.inj h
    refine ⟨v / 4096, 0x800, ?_, ?_, ?_, by omega⟩
    · rw [toNat_ofNat_lt (by omega), leadByte_eq _ (by omega), if_neg (by omega),
        if_neg (by omega), if_pos (by omega)]
      simp
      omega
    · simp only [List.forall_mem_cons, isTail_ofNat, true_and]
      exact List.forall_mem_nil _
    · simp only [tailValue, List.foldl_cons, List.foldl_nil]
      rw [toNat_ofNat_lt (by omega), toNat_ofNat_lt (by omega)]
      omega
  · obtain ⟨rfl, rfl⟩ := List.cons.inj h
    refine ⟨v / 262144, 0x10000, ?_, ?_, ?_, by omega⟩
    · rw [toNat_ofNat_lt (by omega), leadByte_eq _ (by omega), if_neg (by omega),
        if_neg (by omega), if_neg (by omega), if_pos (by omega)]
      simp
      omega
    · simp only [List.forall_mem_cons, isTail_ofNat, true_and]
      exact List.forall_mem_nil _
    · simp only [tailValue, List.foldl_cons, List.foldl_nil]
      rw [toNat_ofNat_lt (by omega), toNat_ofNat_lt (by omega), toNat_ofNat_lt (by omega)]
      omega

theorem leadByte_len {b cp len lo : ℕ} (h : leadByte b = some (cp, len, lo)) : 1 ≤ len := by
  unfold leadByte at h
  split_ifs at h <;> simp at h <;> omega

theorem scalar_toNat (c : Char) : ¬(0xD800 ≤ c.toNat ∧ c.toNat ≤ 0xDFFF) := by
  rcases c.valid with h | h
  · exact fun hs => absurd h (not_lt.2 hs.1)
  · exact fun hs => absurd h.1 (not_lt.2 hs.2)

theorem decodeSequence_iff {b0 : UInt8} {s : List UInt8} {r : ℕ × List UInt8} :
    decodeSequence b0 s = .ok r ↔
      ∃ c : Char, c.toNat = r.1 ∧ b0 :: s = String.utf8EncodeChar c ++ r.2 := by
  constructor
  · intro h
    unfold decodeSequence at h
    split at h
    · cases h
    · rename_i cp len lo hlead
      split at h
      · cases h
      · rename_i r' hr
        split_ifs at h with hlo hmax hsur
        obtain rfl := Except.ok.inj h
        obtain ⟨ts, hs, hlen, htail, hv⟩ := continuation_spec.1 hr
        obtain ⟨c, hc⟩ := exists_scalar (not_or.2 ⟨hmax, hsur⟩)
        have hlead : leadByte b0.toNat = some (cp, ts.length + 1, lo) := by
          rw [hlead, hlen, Nat.sub_add_cancel (leadByte_len hlead)]
        refine ⟨c, hc, ?_⟩
        rw [utf8EncodeChar_eq, hc, hv, utf8Sequence_of_lead hlead htail (by omega), hs]
        rfl
  · rintro ⟨c, hc, hs⟩
    rw [utf8EncodeChar_eq] at hs
    cases hseq : utf8Sequence c.toNat with
    | nil =>
      unfold utf8Sequence at hseq
      split_ifs at hseq
    | cons b ts =>
      rw [hseq, List.cons_append, List.cons.injEq] at hs
      obtain ⟨rfl, rfl⟩ := hs
      obtain ⟨cp, lo, hlead, htail, hv, hlo⟩ := lead_of_utf8Sequence (toNat_lt_max c) hseq
      have hcont : continuation (ts.length + 1 - 1) (ts ++ r.2) cp = some r :=
        continuation_spec.2 ⟨ts, rfl, rfl, htail, by rw [← hc, hv]⟩
      have hmax := toNat_lt_max c
      simp only [decodeSequence, hlead, hcont]
      rw [if_neg (by omega), if_neg (by omega), if_neg (by rw [← hc]; exact scalar_toNat c)]

theorem decodeUtf8ToCodepoints_cons {b0 : UInt8} {s : List UInt8} {cps : List ℕ} :
    decodeUtf8ToCodepoints (b0 :: s) = .ok cps ↔ ∃ r rest, decodeSequence b0 s = .ok r ∧
      decodeUtf8ToCodepoints r.2 = .ok rest ∧ cps = r.1 :: rest := by
  rw [decodeUtf8ToCodepoints]
  split
  · rename_i e he
    simp [he]
  · rename_i r hr
    cases hrest : decodeUtf8ToCodepoints r.2 with
    | error e =>
      constructor
      · intro h
        cases h
      · rintro ⟨r', rest, h, h', -⟩
        rw [hr] at h
        obtain rfl := Except.ok.inj h
        rw [hrest] at h'
        cases h'
    | ok rest =>
      constructor
      · intro h
        exact ⟨r, rest, hr, hrest, (Except.ok.inj h).symm⟩
      · rintro ⟨r', rest', h, h', rfl⟩
        rw [hr] at h
        obtain rfl := Except.ok.inj h
        rw [hrest] at h'
        obtain rfl := Except.ok.inj h'
        rfl

theorem decodeUtf8ToCodepoints_iff {bytes : List UInt8} {cps : List ℕ} :
    decodeUtf8ToCodepoints bytes = .ok cps ↔
      ∃ cs : List Char, cs.map Char.toNat = cps ∧ cs.flatMap String.utf8EncodeChar = bytes := by
  constructor
  · intro h
    induction cps generalizing bytes with
    | nil =>
      cases bytes with
      | nil => exact ⟨[], rfl, rfl⟩
      | cons b0 s =>
        obtain ⟨r, rest, -, -, hcps⟩ := decodeUtf8ToCodepoints_cons.1 h
        cases hcps
    | cons cp cps ih =>
      cases bytes with
      | nil =>
        rw [decodeUtf8ToCodepoints] at h
        cases h
      | cons b0 s =>
        obtain ⟨r, rest, hr, hrest, hcps⟩ := decodeUtf8ToCodepoints_cons.1 h
        obtain ⟨rfl, rfl⟩ := List.cons.inj hcps
        obtain ⟨c, hc, hs⟩ := decodeSequence_iff.1 hr
        obtain ⟨cs, hcs, hbytes⟩ := ih hrest
        exact ⟨c :: cs, by simp [hc, hcs], by rw [List.flatMap_cons, hbytes, hs]⟩
  · rintro ⟨cs, rfl, rfl⟩
    induction cs with
    | nil => simp [decodeUtf8ToCodepoints]
    | cons c cs ih =>
      rw [List.flatMap_cons]
      cases hseq : String.utf8EncodeChar c with
      | nil => exact absurd hseq String.utf8EncodeChar_ne_nil
      | cons b0 ts =>
        refine decodeUtf8ToCodepoints_cons.2 ⟨(c.toNat, _), _, ?_, ih, rfl⟩
        exact decodeSequence_iff.2 ⟨c, rfl, by rw [hseq]; rfl⟩

/-- What a body denotes: characters, and the code units its byte escapes name. -/
inductive Element where
  | scalar (c : Char)
  | codeUnit (v : ℕ)

/-- The run before the first code-unit escape, then each escape with the run after it. -/
def runs : List Piece → List UInt8 × List (ℕ × List UInt8)
  | [] => ([], [])
  | .text bs :: ps => (bs ++ (runs ps).1, (runs ps).2)
  | .codeUnit v _ :: ps => ([], (v, (runs ps).1) :: (runs ps).2)

def WellFormed (run : List UInt8) : Prop :=
  ∃ cs : List Char, cs.flatMap String.utf8EncodeChar = run

def Elements : List UInt8 → List (ℕ × List UInt8) → List Element → Prop
  | run, [], es =>
    ∃ cs : List Char, cs.flatMap String.utf8EncodeChar = run ∧ es = cs.map .scalar
  | run, (v, next) :: rest, es =>
    ∃ (cs : List Char) (es' : List Element), cs.flatMap String.utf8EncodeChar = run ∧
      Elements next rest es' ∧ es = cs.map .scalar ++ .codeUnit v :: es'

def Fits (core : TypeKind) (rest : List (ℕ × List UInt8)) : Prop :=
  ∀ p ∈ rest, p.1 < 2 ^ (8 * elementByteWidth core)

def encodeElement (core : TypeKind) : Element → List UInt8
  | .scalar c => encodeCodepoint c.toNat core
  | .codeUnit v => appendRawCodeUnit v (elementByteWidth core)

def WideEncodeResult.push (r : WideEncodeResult) (core : TypeKind) (es : List Element) :
    WideEncodeResult where
  bytes := r.bytes ++ es.flatMap (encodeElement core)
  codeUnits := r.codeUnits +
    (es.map fun e => (encodeElement core e).length / elementByteWidth core).sum

variable {core : TypeKind} {r r' : WideEncodeResult} {es es' : List Element}

@[simp]
theorem push_nil : r.push core [] = r := by simp [WideEncodeResult.push]

theorem push_append : (r.push core es).push core es' = r.push core (es ++ es') := by
  simp [WideEncodeResult.push, Nat.add_assoc]

theorem elementByteWidth_pos (core : TypeKind) : 0 < elementByteWidth core := by
  unfold elementByteWidth
  split <;> norm_num

theorem push_codeUnit (v : ℕ) :
    r.push core [.codeUnit v] =
      ⟨r.bytes ++ appendRawCodeUnit v (elementByteWidth core), r.codeUnits + 1⟩ := by
  simp [WideEncodeResult.push, encodeElement, appendRawCodeUnit,
    Nat.div_self (elementByteWidth_pos core)]

theorem foldl_encodeCodepoint (cs : List Char) (r : WideEncodeResult) :
    (cs.map Char.toNat).foldl (fun r cp =>
      let bs := encodeCodepoint cp core
      ⟨r.bytes ++ bs, r.codeUnits + bs.length / elementByteWidth core⟩) r =
      r.push core (cs.map .scalar) := by
  induction cs generalizing r with
  | nil => simp
  | cons c cs ih =>
    rw [List.map_cons, List.foldl_cons, ih, List.map_cons,
      show Element.scalar c :: cs.map .scalar = [.scalar c] ++ cs.map .scalar from rfl,
      ← push_append]
    simp [WideEncodeResult.push, encodeElement]

theorem flushRun_iff {escaped : List UInt8} {start stop : ℕ} :
    flushRun escaped core start stop r = .ok r' ↔ ∃ cs : List Char,
      cs.flatMap String.utf8EncodeChar = (escaped.drop start).take (stop - start) ∧
      r' = r.push core (cs.map .scalar) := by
  unfold flushRun
  split_ifs with h
  · rw [Nat.sub_eq_zero_of_le h, List.take_zero]
    constructor
    · intro hr
      exact ⟨[], rfl, by simpa using (Except.ok.inj hr).symm⟩
    · rintro ⟨cs, hcs, rfl⟩
      cases cs with
      | nil => simp
      | cons c cs =>
        rw [List.flatMap_cons, List.append_eq_nil_iff] at hcs
        exact absurd hcs.1 String.utf8EncodeChar_ne_nil
  · split
    · rename_i e he
      constructor
      · intro hr
        cases hr
      · rintro ⟨cs, hcs, -⟩
        rw [decodeUtf8ToCodepoints_iff.2 ⟨cs, rfl, hcs⟩] at he
        cases he
    · rename_i cps hcps
      obtain ⟨cs, rfl, hcs⟩ := decodeUtf8ToCodepoints_iff.1 hcps
      constructor
      · intro hr
        exact ⟨cs, hcs, by rw [← foldl_encodeCodepoint]; exact (Except.ok.inj hr).symm⟩
      · rintro ⟨cs', hcs', rfl⟩
        have hdec := decodeUtf8ToCodepoints_iff.2 ⟨cs', rfl, hcs'⟩
        rw [hcps] at hdec
        rw [← foldl_encodeCodepoint, ← Except.ok.inj hdec]

theorem encodeUnits_cons {escaped : List UInt8} {u : EscapeValueUnit} {us : List EscapeValueUnit}
    {start : ℕ} : encodeUnits escaped core (u :: us) start r = .ok r' ↔
      ∃ r₁, flushRun escaped core start u.byteOffset r = .ok r₁ ∧
        u.value < 2 ^ (8 * elementByteWidth core) ∧
        encodeUnits escaped core us (u.byteOffset + 1) (r₁.push core [.codeUnit u.value]) =
          .ok r' := by
  have hpos : 0 < 2 ^ (8 * elementByteWidth core) := by positivity
  rw [encodeUnits]
  constructor
  · intro h
    split at h
    · cases h
    · rename_i r₁ hr₁
      split_ifs at h with hv
      exact ⟨r₁, hr₁, by omega, by rw [push_codeUnit]; exact h⟩
  · rintro ⟨r₁, hr₁, hv, h⟩
    rw [push_codeUnit] at h
    rw [hr₁]
    simp only [if_neg (show ¬ u.value > 2 ^ (8 * elementByteWidth core) - 1 by omega)]
    exact h

theorem encodeUnits_iff (ps : List Piece) (pre acc : List UInt8) (r r' : WideEncodeResult) :
    encodeUnits (pre ++ acc ++ buffer ps) core (offsets (pre.length + acc.length) ps) pre.length r
        = .ok r' ↔
      ∃ es, Elements (acc ++ (runs ps).1) (runs ps).2 es ∧ Fits core (runs ps).2 ∧
        r' = r.push core es := by
  induction ps generalizing pre acc r with
  | nil =>
    simp only [offsets, encodeUnits, buffer, runs, List.append_nil, flushRun_iff, Elements]
    rw [List.drop_left, List.length_append, Nat.add_sub_cancel_left, List.take_length]
    constructor
    · rintro ⟨cs, hcs, rfl⟩
      exact ⟨cs.map .scalar, ⟨cs, hcs, rfl⟩, by simp [Fits], rfl⟩
    · rintro ⟨_, ⟨cs, hcs, rfl⟩, -, rfl⟩
      exact ⟨cs, hcs, rfl⟩
  | cons p ps ih =>
    cases p with
    | text bs =>
      have := ih pre (acc ++ bs) r
      simpa only [offsets, buffer, runs, List.append_assoc, List.length_append, Nat.add_assoc]
        using this
    | codeUnit v hex =>
      -- the open run ends at the placeholder, and the next one starts empty behind it
      have hrun : ((pre ++ acc ++ buffer (.codeUnit v hex :: ps)).drop pre.length).take
          (pre.length + acc.length - pre.length) = acc := by
        simp
      have hnext (r : WideEncodeResult) := ih (pre ++ acc ++ [lowByte v]) [] r
      simp only [List.append_nil, List.append_assoc, List.length_append, List.length_cons,
        List.length_nil, List.nil_append, List.cons_append, Nat.zero_add, Nat.add_zero] at hnext
      rw [offsets, encodeUnits_cons]
      simp only [flushRun_iff, hrun]
      simp only [buffer, List.append_assoc, Nat.add_assoc, hnext, runs, List.append_nil, Elements]
      constructor
      · rintro ⟨_, ⟨cs, hcs, rfl⟩, hv, es, hes, hfit, rfl⟩
        refine ⟨_, ⟨cs, es, hcs, hes, rfl⟩, ?_, ?_⟩
        · intro p hp
          rcases List.mem_cons.1 hp with rfl | hp
          · exact hv
          · exact hfit p hp
        · rw [push_append, push_append]
          rfl
      · rintro ⟨_, ⟨cs, es, hcs, hes, rfl⟩, hfit, rfl⟩
        refine ⟨_, ⟨cs, hcs, rfl⟩, hfit (v, (runs ps).1) (by simp), es, hes,
          fun p hp => hfit p (by simp [hp]), ?_⟩
        rw [push_append, push_append]
        rfl

theorem exists_elements_iff (run : List UInt8) (rest : List (ℕ × List UInt8)) :
    (∃ es, Elements run rest es) ↔ WellFormed run ∧ ∀ p ∈ rest, WellFormed p.2 := by
  induction rest generalizing run with
  | nil =>
    constructor
    · rintro ⟨_, cs, hcs, -⟩
      exact ⟨⟨cs, hcs⟩, by simp⟩
    · rintro ⟨⟨cs, hcs⟩, -⟩
      exact ⟨_, cs, hcs, rfl⟩
  | cons p rest ih =>
    constructor
    · rintro ⟨_, cs, es, hcs, hes, -⟩
      obtain ⟨hnext, hrest⟩ := (ih p.2).1 ⟨es, hes⟩
      refine ⟨⟨cs, hcs⟩, ?_⟩
      intro q hq
      rcases List.mem_cons.1 hq with rfl | hq
      · exact hnext
      · exact hrest q hq
    · rintro ⟨⟨cs, hcs⟩, hrest⟩
      obtain ⟨es, hes⟩ := (ih p.2).2
        ⟨hrest p (by simp), fun q hq => hrest q (by simp [hq])⟩
      exact ⟨_, cs, es, hcs, hes, rfl⟩

def readUnits (width : ℕ) : ℕ → List UInt8 → List ℕ
  | 0, _ => []
  | n + 1, bs =>
    Nat.ofDigits 256 ((bs.take width).map UInt8.toNat) :: readUnits width n (bs.drop width)

/-- The units a source element stands for: an escape is one unit, a character is its UTF-8
sequence, one UTF-16 unit or a surrogate pair, or the scalar value itself. -/
def UnitsOf (core : TypeKind) (us : List ℕ) : Element → Prop
  | .codeUnit v => us = [v]
  | .scalar c =>
    if core = .u8 then us = (String.utf8EncodeChar c).map UInt8.toNat
    else if core = .u16 then us = [c.toNat] ∨ ∃ hi lo, us = [hi, lo] ∧
      0xD800 ≤ hi ∧ hi < 0xDC00 ∧ 0xDC00 ≤ lo ∧ lo < 0xE000 ∧
      c.toNat = 0x10000 + (hi - 0xD800) * 0x400 + (lo - 0xDC00)
    else us = [c.toNat]

/-- What a narrow core keeps: an escape is one unit, a character its low byte. -/
def LowByteUnits (us : List ℕ) : Element → Prop
  | .codeUnit v => us = [v]
  | .scalar c => us = [c.toNat % 256]

/-- The units read back as the elements. -/
structure ReadsBack (R : List ℕ → Element → Prop) (core : TypeKind) (es : List Element)
    (r : WideEncodeResult) : Prop where
  size : r.bytes.length = r.codeUnits * elementByteWidth core
  units : ∃ groups, List.Forall₂ R groups es ∧
    readUnits (elementByteWidth core) r.codeUnits r.bytes = groups.flatten

def IsWide (core : TypeKind) : Prop :=
  core = .u8 ∨ core = .u16 ∨ core = .u32 ∨ core = .i32

variable {width v : ℕ} {us : List ℕ} {R : List ℕ → Element → Prop}

@[simp]
theorem length_appendRawCodeUnit : (appendRawCodeUnit v width).length = width := by
  simp [appendRawCodeUnit]

theorem appendRawCodeUnit_succ :
    appendRawCodeUnit v (width + 1) = lowByte v :: appendRawCodeUnit (v >>> 8) width := by
  simp only [appendRawCodeUnit, List.range_succ_eq_map, List.map_cons, List.map_map, mul_zero,
    Nat.shiftRight_zero, List.cons.injEq, true_and]
  refine List.map_congr_left fun b _ => ?_
  rw [Function.comp_apply, ← Nat.shiftRight_add, Nat.succ_eq_add_one, mul_add, mul_one,
    Nat.add_comm]

theorem toNat_lowByte : (lowByte v).toNat = v % 256 := by
  rw [lowByte_eq, UInt8.toNat_ofNat']

theorem ofDigits_appendRawCodeUnit (h : v < 2 ^ (8 * width)) :
    Nat.ofDigits 256 ((appendRawCodeUnit v width).map UInt8.toNat) = v := by
  induction width generalizing v with
  | zero =>
    obtain rfl : v = 0 := by simpa using h
    rfl
  | succ width ih =>
    have hshift : v >>> 8 = v / 256 := Nat.shiftRight_eq_div_pow v 8
    have hlt : v / 256 < 2 ^ (8 * width) := by
      rw [Nat.div_lt_iff_lt_mul (by norm_num), show 256 = 2 ^ 8 by norm_num, ← pow_add]
      exact h
    rw [appendRawCodeUnit_succ, List.map_cons, Nat.ofDigits_cons, hshift, ih hlt, toNat_lowByte]
    exact Nat.mod_add_div v 256

theorem readUnits_flatMap (h : ∀ u ∈ us, u < 2 ^ (8 * width)) :
    readUnits width us.length (us.flatMap (appendRawCodeUnit · width)) = us := by
  induction us with
  | nil => rfl
  | cons u us ih =>
    rw [List.length_cons, readUnits, List.flatMap_cons, List.take_left' length_appendRawCodeUnit,
      List.drop_left' length_appendRawCodeUnit, ofDigits_appendRawCodeUnit (h u (by simp)),
      ih fun u' hu' => h u' (by simp [hu'])]

theorem length_flatMap_raw :
    (us.flatMap (appendRawCodeUnit · width)).length = us.length * width := by
  induction us with
  | nil => simp
  | cons u us ih =>
    rw [List.flatMap_cons, List.length_append, ih, length_appendRawCodeUnit, List.length_cons]
    ring

def WritesUnits (R : List ℕ → Element → Prop) (core : TypeKind) (e : Element) : Prop :=
  ∃ us, R us e ∧ encodeElement core e = us.flatMap (appendRawCodeUnit · (elementByteWidth core)) ∧
    ∀ u ∈ us, u < 2 ^ (8 * elementByteWidth core)

theorem readsBack_push (h : ∀ e ∈ es, WritesUnits R core e) :
    ReadsBack R core es (WideEncodeResult.push ⟨[], 0⟩ core es) := by
  have hw := elementByteWidth_pos core
  have key : ∃ groups, List.Forall₂ R groups es ∧
      es.flatMap (encodeElement core) =
        groups.flatten.flatMap (appendRawCodeUnit · (elementByteWidth core)) ∧
      (es.map fun e => (encodeElement core e).length / elementByteWidth core).sum =
        groups.flatten.length ∧
      ∀ u ∈ groups.flatten, u < 2 ^ (8 * elementByteWidth core) := by
    induction es with
    | nil => exact ⟨[], .nil, rfl, rfl, by simp⟩
    | cons e es ih =>
      obtain ⟨groups, hR, hbytes, hcount, hlt⟩ := ih fun e' he' => h e' (by simp [he'])
      obtain ⟨us, hus, henc, hfit⟩ := h e (by simp)
      refine ⟨us :: groups, .cons hus hR, ?_, ?_, ?_⟩
      · rw [List.flatMap_cons, henc, hbytes, List.flatten_cons, List.flatMap_append]
      · rw [List.map_cons, List.sum_cons, hcount, henc, length_flatMap_raw,
          Nat.mul_div_cancel _ hw, List.flatten_cons, List.length_append]
      · intro u hu
        rw [List.flatten_cons, List.mem_append] at hu
        rcases hu with hu | hu
        · exact hfit u hu
        · exact hlt u hu
  obtain ⟨groups, hR, hbytes, hcount, hlt⟩ := key
  constructor
  · simp only [WideEncodeResult.push, List.nil_append, Nat.zero_add, hbytes, hcount,
      length_flatMap_raw]
  · refine ⟨groups, hR, ?_⟩
    simp only [WideEncodeResult.push, List.nil_append, Nat.zero_add, hbytes, hcount,
      readUnits_flatMap hlt]

theorem lowByte_and : lowByte (v &&& 0xFF) = lowByte v := by
  rw [lowByte, lowByte, Nat.and_assoc, Nat.and_self]

theorem appendRawCodeUnit_two (v : ℕ) :
    appendRawCodeUnit v 2 = [lowByte v, lowByte (v >>> 8)] := rfl

theorem appendRawCodeUnit_four (v : ℕ) : appendRawCodeUnit v 4 =
    [lowByte v, lowByte (v >>> 8), lowByte (v >>> 16), lowByte (v >>> 24)] := rfl

theorem flatMap_bytes (bs : List UInt8) :
    (bs.map UInt8.toNat).flatMap (appendRawCodeUnit · 1) = bs := by
  induction bs with
  | nil => rfl
  | cons b bs ih =>
    rw [List.map_cons, List.flatMap_cons, ih, appendRawCodeUnit_succ, lowByte_eq,
      UInt8.ofNat_toNat]
    rfl

theorem writesUnits_pair {c : Char} (h : c.toNat > 0xFFFF) :
    WritesUnits (UnitsOf .u16) .u16 (.scalar c) := by
  have hmax := toNat_lt_max c
  have hhigh : (c.toNat - 0x10000) >>> 10 = (c.toNat - 0x10000) / 1024 :=
    Nat.shiftRight_eq_div_pow _ 10
  have hlow : (c.toNat - 0x10000) &&& 0x3FF = (c.toNat - 0x10000) % 1024 :=
    Nat.and_two_pow_sub_one_eq_mod _ 10
  refine ⟨[0xD800 + (c.toNat - 0x10000) / 1024, 0xDC00 + (c.toNat - 0x10000) % 1024], ?_, ?_, ?_⟩
  · simp only [UnitsOf, reduceCtorEq, if_false, if_true]
    exact .inr ⟨_, _, rfl, by omega, by omega, by omega, by omega, by omega⟩
  · simp only [encodeElement, encodeCodepoint, if_pos h, hhigh, hlow, lowByte_and,
      elementByteWidth, List.flatMap_cons, List.flatMap_nil, appendRawCodeUnit_two]
    rfl
  · intro u hu
    simp only [List.mem_cons, List.not_mem_nil, or_false] at hu
    simp only [elementByteWidth]
    omega

theorem writesUnits_wide (hcore : IsWide core) {e : Element}
    (hfit : ∀ v, e = .codeUnit v → v < 2 ^ (8 * elementByteWidth core)) :
    WritesUnits (UnitsOf core) core e := by
  cases e with
  | codeUnit v => exact ⟨[v], rfl, by simp [encodeElement], by simpa using hfit v rfl⟩
  | scalar c =>
    have hmax := toNat_lt_max c
    rcases hcore with rfl | rfl | rfl | rfl
    · refine ⟨(String.utf8EncodeChar c).map UInt8.toNat, rfl, ?_, ?_⟩
      · simp only [encodeElement, encodeCodepoint, elementByteWidth, appendUtf8_eq, flatMap_bytes]
      · intro u hu
        obtain ⟨b, -, rfl⟩ := List.mem_map.1 hu
        exact b.toNat_lt
    · by_cases h : c.toNat > 0xFFFF
      · exact writesUnits_pair h
      · refine ⟨[c.toNat], .inl rfl, ?_, ?_⟩
        · simp only [encodeElement, encodeCodepoint, if_neg h, lowByte_and, elementByteWidth,
            List.flatMap_cons, List.flatMap_nil, appendRawCodeUnit_two]
          rfl
        · simp only [List.mem_singleton, forall_eq, elementByteWidth]
          omega
    all_goals
      refine ⟨[c.toNat], rfl, ?_, ?_⟩
      · simp only [encodeElement, encodeCodepoint, lowByte_and, elementByteWidth,
          List.flatMap_cons, List.flatMap_nil, appendRawCodeUnit_four]
        rfl
      · simp only [List.mem_singleton, forall_eq, elementByteWidth]
        omega

theorem narrow_core (h : ¬ IsWide core) : elementByteWidth core = 1 ∧
    ∀ cp, encodeCodepoint cp core = [lowByte (cp &&& 0xFF)] := by
  cases core
  case u8 | u16 | u32 | i32 => simp [IsWide] at h
  all_goals exact ⟨rfl, fun _ => rfl⟩

theorem writesUnits_narrow (hcore : ¬ IsWide core) {e : Element}
    (hfit : ∀ v, e = .codeUnit v → v < 2 ^ (8 * elementByteWidth core)) :
    WritesUnits LowByteUnits core e := by
  obtain ⟨hwidth, henc⟩ := narrow_core hcore
  cases e with
  | codeUnit v => exact ⟨[v], rfl, by simp [encodeElement], by simpa using hfit v rfl⟩
  | scalar c =>
    refine ⟨[c.toNat % 256], rfl, ?_, ?_⟩
    · rw [encodeElement, henc, hwidth, lowByte_and]
      exact congrArg (· :: []) (UInt8.toNat_inj.1 (by rw [toNat_lowByte, toNat_lowByte]; simp))
    · rw [hwidth]
      simp only [List.mem_singleton, forall_eq]
      omega

/-- Encoding what the escape decoder left of a body: a result reads back by `R` as the elements
of the body, and there is none exactly when some run is not UTF-8 or some escape does not fit. -/
def EncodedBy (R : List ℕ → Element → Prop) (body : List UInt8) (core : TypeKind) (d : Decoded) :
    Prop :=
  ∃ ps, Body body ps ∧
    (∀ r, encodeWideString d.out core (some d.escapeUnits) = .ok r →
      ∃ es, Elements (runs ps).1 (runs ps).2 es ∧ ReadsBack R core es r) ∧
    ((∃ e, encodeWideString d.out core (some d.escapeUnits) = .error e) ↔
      ¬ WellFormed (runs ps).1 ∨
        ∃ p ∈ (runs ps).2, ¬ WellFormed p.2 ∨ 2 ^ (8 * elementByteWidth core) ≤ p.1)

theorem Elements.exists_of_codeUnit {run : List UInt8} {rest : List (ℕ × List UInt8)}
    (h : Elements run rest es) (hv : .codeUnit v ∈ es) : ∃ p ∈ rest, p.1 = v := by
  induction rest generalizing run es with
  | nil =>
    obtain ⟨cs, -, rfl⟩ := h
    simp at hv
  | cons p rest ih =>
    obtain ⟨cs, es', -, hes, rfl⟩ := h
    simp only [List.mem_append, List.mem_map, reduceCtorEq, and_false, exists_false, false_or,
      List.mem_cons, Element.codeUnit.injEq] at hv
    rcases hv with hv | hv
    · exact ⟨p, by simp, hv.symm⟩
    · obtain ⟨q, hq, hqv⟩ := ih hes hv
      exact ⟨q, by simp [hq], hqv⟩

theorem error_iff_not_ok {ε α : Type*} {x : Except ε α} :
    (∃ e, x = .error e) ↔ ¬ ∃ a, x = .ok a := by
  cases x <;> simp

theorem encodedBy_of {body : List UInt8} {d : Decoded} (hd : decodeEscapedBytes body = .ok d)
    (hR : ∀ e : Element, (∀ v, e = .codeUnit v → v < 2 ^ (8 * elementByteWidth core)) →
      WritesUnits R core e) : EncodedBy R body core d := by
  obtain ⟨ps, hbody, hout, hunits⟩ := decodeEscapedBytes_body hd
  have hiff (r : WideEncodeResult) := @encodeUnits_iff core ps [] [] ⟨[], 0⟩ r
  simp only [List.nil_append, List.append_nil, List.length_nil, Nat.add_zero, ← hout, ← hunits]
    at hiff
  refine ⟨ps, hbody, ?_, ?_⟩
  · intro r hr
    obtain ⟨es, hes, hfit, rfl⟩ := (hiff r).1 hr
    refine ⟨es, hes, readsBack_push fun e he => hR e ?_⟩
    rintro v rfl
    obtain ⟨p, hp, rfl⟩ := hes.exists_of_codeUnit he
    exact hfit p hp
  · have hall : (∃ r, encodeWideString d.out core (some d.escapeUnits) = .ok r) ↔
        (WellFormed (runs ps).1 ∧ ∀ p ∈ (runs ps).2, WellFormed p.2) ∧ Fits core (runs ps).2 := by
      rw [← exists_elements_iff]
      constructor
      · rintro ⟨r, hr⟩
        obtain ⟨es, hes, hfit, -⟩ := (hiff r).1 hr
        exact ⟨⟨es, hes⟩, hfit⟩
      · rintro ⟨⟨es, hes⟩, hfit⟩
        exact ⟨_, (hiff _).2 ⟨es, hes, hfit, rfl⟩⟩
    rw [error_iff_not_ok, hall, Fits]
    push Not
    constructor
    · intro h
      by_contra hno
      push Not at hno
      obtain ⟨p, hp, hle⟩ := h ⟨hno.1, fun p hp => (hno.2 p hp).1⟩
      exact absurd hle (not_le.2 (hno.2 p hp).2)
    · rintro (h | ⟨p, hp, h | h⟩) hwf
      · exact absurd hwf.1 h
      · exact absurd (hwf.2 p hp) h
      · exact ⟨p, hp, h⟩

/-- **A string literal is encoded without loss** for the wide cores, a narrow core keeps low
bytes, and encoding fails only on a run that is not UTF-8 or an escape that does not fit. -/
theorem stringLiteral_encoded (body : List UInt8) (core : TypeKind) {d : Decoded}
    (hd : decodeEscapedBytes body = .ok d) :
    (IsWide core → EncodedBy (UnitsOf core) body core d) ∧
      (¬ IsWide core → EncodedBy LowByteUnits body core d) :=
  ⟨fun h => encodedBy_of hd fun _ he => writesUnits_wide h he,
    fun h => encodedBy_of hd fun _ he => writesUnits_narrow h he⟩

theorem decodeEscapedBytes_euro :
    decodeEscapedBytes [0xE2, 0x82, 0xAC] = .ok ⟨[0xE2, 0x82, 0xAC], [], false⟩ := by
  simp [decodeEscapedBytes, decodeFrom, Decoded.push]

/-- The euro sign and then `\x41`. -/
theorem decodeEscapedBytes_euroHex :
    decodeEscapedBytes [0xE2, 0x82, 0xAC, 92, 120, 52, 49] =
      .ok ⟨[0xE2, 0x82, 0xAC, 0x41], [⟨3, 0x41, true⟩], true⟩ := by
  have hescape : decodeEscape 120 [52, 49] ⟨[0xE2, 0x82, 0xAC], [], false⟩ =
      .ok (⟨[0xE2, 0x82, 0xAC, 0x41], [⟨3, 0x41, true⟩], true⟩, []) := rfl
  simp [decodeEscapedBytes, decodeFrom, Decoded.push]
  split
  · simp_all
  · rename_i r hr
    rw [hescape] at hr
    obtain rfl := Except.ok.inj hr
    rw [decodeFrom]

theorem stringLiteral_encoded_euro :
    EncodedBy (UnitsOf .u16) [0xE2, 0x82, 0xAC, 92, 120, 52, 49] .u16
      ⟨[0xE2, 0x82, 0xAC, 0x41], [⟨3, 0x41, true⟩], true⟩ :=
  (stringLiteral_encoded _ .u16 decodeEscapedBytes_euroHex).1 (.inr (.inl rfl))

theorem runs_of_no_escape {body : List UInt8} {ps : List Piece} (h : Body body ps)
    (hne : ∀ c ∈ body, c ≠ 92) : runs ps = (body, []) := by
  induction h with
  | nil => rfl
  | plain _ _ ih => simp [runs, ih fun c hc => hne c (by simp [hc])]
  | named | octal | hex | universal => exact absurd rfl (hne 92 (by simp))

/-- The euro sign under a narrow core leaves one unit, `0xAC`. -/
theorem stringLiteral_narrow_loses : ¬ ∀ (body : List UInt8) (core : TypeKind) (d : Decoded),
    decodeEscapedBytes body = .ok d → EncodedBy (UnitsOf core) body core d := by
  intro h
  have hdec : decodeUtf8ToCodepoints [0xE2, 0x82, 0xAC] = .ok [0x20AC] := by
    simp [decodeUtf8ToCodepoints, decodeSequence, leadByte, continuation]
  have hencode : encodeWideString [0xE2, 0x82, 0xAC] .char (some []) = .ok ⟨[0xAC], 1⟩ := by
    simp [encodeWideString, encodeUnits, flushRun, hdec, encodeCodepoint, elementByteWidth, lowByte]
    rfl
  obtain ⟨ps, hps, hok, -⟩ := h _ .char _ decodeEscapedBytes_euro
  obtain ⟨es, hes, hread⟩ := hok _ hencode
  rw [runs_of_no_escape hps (by simp)] at hes
  obtain ⟨cs, hcs, rfl⟩ := hes
  have hmap := decodeUtf8ToCodepoints_iff.2 ⟨cs, rfl, hcs⟩
  rw [hdec] at hmap
  obtain ⟨c, rfl⟩ : ∃ c, cs = [c] := by
    apply List.length_eq_one_iff.1
    simpa using (congrArg List.length (Except.ok.inj hmap)).symm
  have hc : c.toNat = 0x20AC := by simpa using (Except.ok.inj hmap).symm
  obtain ⟨groups, hR, hunits⟩ := hread.units
  cases hR with
  | cons hu hrest =>
    cases hrest
    rename_i us
    have hus : us = [c.toNat] := hu
    rw [hus, hc] at hunits
    simp [readUnits, elementByteWidth] at hunits

end DssPrime.StringLiteral
