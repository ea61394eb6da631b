import Mathlib

/-!
# Escapes in a string-literal body

`decodeEscapedBytes` resolves the escapes of a literal body into a byte buffer.  A universal
character name becomes the UTF-8 sequence of its character; a hexadecimal or octal escape names a
code unit, so the buffer gets one placeholder byte and the value is recorded beside its offset.

`Body` is the grammar of C 6.4.4.4 and 6.4.3 with the longest match.  What the decoder leaves is
the buffer of the pieces it read and the offsets of their code-unit escapes
(`decodeEscapedBytes_body`).
-/

namespace DssPrime.StringLiteral

inductive EscapeDecodeError where
  | malformed | invalidUniversalName | escapeValueTooLarge
  deriving DecidableEq

/-- One consumed `\x` or octal escape: where its placeholder byte stands and what it names. -/
structure EscapeValueUnit where
  byteOffset : ℕ
  value : ℕ
  hex : Bool
  deriving DecidableEq

/-- The bytes, and the units that escapes stated. -/
structure Decoded where
  out : List UInt8
  escapeUnits : List EscapeValueUnit
  usedByteEscape : Bool
  deriving DecidableEq

def lowByte (v : ℕ) : UInt8 := UInt8.ofNat (v &&& 0xFF)

def hexVal (h : UInt8) : Option ℕ :=
  if '0'.toNat ≤ h.toNat ∧ h.toNat ≤ '9'.toNat then some (h.toNat - '0'.toNat)
  else if 'a'.toNat ≤ h.toNat ∧ h.toNat ≤ 'f'.toNat then some (10 + (h.toNat - 'a'.toNat))
  else if 'A'.toNat ≤ h.toNat ∧ h.toNat ≤ 'F'.toNat then some (10 + (h.toNat - 'A'.toNat))
  else none

def octalVal (e : UInt8) : Option ℕ :=
  if '0'.toNat ≤ e.toNat ∧ e.toNat ≤ '7'.toNat then some (e.toNat - '0'.toNat) else none

def appendUtf8 (cp : ℕ) : List UInt8 :=
  if cp < 0x80 then [lowByte cp]
  else if cp < 0x800 then [lowByte (0xC0 ||| (cp >>> 6)), lowByte (0x80 ||| (cp &&& 0x3F))]
  else if cp < 0x10000 then
    [lowByte (0xE0 ||| (cp >>> 12)), lowByte (0x80 ||| ((cp >>> 6) &&& 0x3F)),
      lowByte (0x80 ||| (cp &&& 0x3F))]
  else
    [lowByte (0xF0 ||| (cp >>> 18)), lowByte (0x80 ||| ((cp >>> 12) &&& 0x3F)),
      lowByte (0x80 ||| ((cp >>> 6) &&& 0x3F)), lowByte (0x80 ||| (cp &&& 0x3F))]

def namedEscape (e : UInt8) : Option UInt8 :=
  match Char.ofNat e.toNat with
  | 'n' => some 10
  | 't' => some 9
  | 'r' => some 13
  | '\\' => some 92
  | '\'' => some 39
  | '"' => some 34
  | 'a' => some 7
  | 'b' => some 8
  | 'f' => some 12
  | 'v' => some 11
  | _ => none

def octalRun : ℕ → List UInt8 → ℕ → ℕ × List UInt8
  | 0, s, v => (v, s)
  | _ + 1, [], v => (v, [])
  | d + 1, c :: s, v =>
    match octalVal c with
    | some x => octalRun d s (v * 8 + x)
    | none => (v, c :: s)

/-- Every following hexadecimal digit.  Leading zeros are free; a seventeenth significant digit
is refused. -/
def hexRun : List UInt8 → ℕ → ℕ → Option (ℕ × List UInt8)
  | [], v, _ => some (v, [])
  | c :: s, v, digits =>
    match hexVal c with
    | none => some (v, c :: s)
    | some x =>
      if 16 ≤ digits then none
      else hexRun s (v * 16 + x) (if v * 16 + x ≠ 0 then digits + 1 else digits)

/-- Exactly `want` hexadecimal digits. -/
def ucnRun : ℕ → List UInt8 → ℕ → Option (ℕ × List UInt8)
  | 0, s, cp => some (cp, s)
  | _ + 1, [], _ => none
  | want + 1, c :: s, cp =>
    match hexVal c with
    | none => none
    | some hv => ucnRun want s (cp * 16 + hv)

def Decoded.push (d : Decoded) (bs : List UInt8) : Decoded := { d with out := d.out ++ bs }

def Decoded.recordEscape (d : Decoded) (v : ℕ) (hex : Bool) : Decoded where
  out := d.out ++ [lowByte v]
  escapeUnits := d.escapeUnits ++ [⟨d.out.length, v, hex⟩]
  usedByteEscape := true

/-- One escape, read after its backslash; what is left of the body comes with the new state. -/
def decodeEscape (e : UInt8) (s : List UInt8) (d : Decoded) :
    Except EscapeDecodeError (Decoded × List UInt8) :=
  match octalVal e with
  | some x =>
    let r := octalRun 2 s x
    .ok (d.recordEscape r.1 false, r.2)
  | none =>
    match namedEscape e with
    | some b => .ok (d.push [b], s)
    | none =>
      if e.toNat = 'x'.toNat then
        if (s.head?.bind hexVal).isNone then .error .malformed
        else match hexRun s 0 0 with
          | none => .error .escapeValueTooLarge
          | some r => .ok (d.recordEscape r.1 true, r.2)
      else if e.toNat = 'u'.toNat ∨ e.toNat = 'U'.toNat then
        match ucnRun (if e.toNat = 'u'.toNat then 4 else 8) s 0 with
        | none => .error .invalidUniversalName
        | some r =>
          if r.1 > 0x10FFFF ∨ (0xD800 ≤ r.1 ∧ r.1 ≤ 0xDFFF) then .error .invalidUniversalName
          else .ok (d.push (appendUtf8 r.1), r.2)
      else .error .malformed

def digitsValue (base : ℕ) (val : UInt8 → Option ℕ) (v : ℕ) (ds : List UInt8) : ℕ :=
  ds.foldl (fun v c => v * base + (val c).getD 0) v

structure DigitRun (base : ℕ) (val : UInt8 → Option ℕ) (s : List UInt8) (v : ℕ)
    (ds : List UInt8) (r : ℕ × List UInt8) : Prop where
  text : s = ds ++ r.2
  digits : ∀ c ∈ ds, (val c).isSome
  value : r.1 = digitsValue base val v ds

variable {base v x n d want : ℕ} {val : UInt8 → Option ℕ} {c e : UInt8} {s ds : List UInt8}
  {r : ℕ × List UInt8}

theorem DigitRun.nil : DigitRun base val s v [] (v, s) := ⟨rfl, by simp, rfl⟩

theorem DigitRun.cons (hc : val c = some x) (h : DigitRun base val s (v * base + x) ds r) :
    DigitRun base val (c :: s) v (c :: ds) r where
  text := by rw [h.text]; rfl
  digits := by
    intro a ha
    rcases List.mem_cons.1 ha with rfl | ha
    · simp [hc]
    · exact h.digits a ha
  value := by rw [h.value]; simp [digitsValue, hc]

theorem DigitRun.length_le (h : DigitRun base val s v ds r) : r.2.length ≤ s.length := by
  rw [h.text, List.length_append]
  omega

theorem octalRun_spec (d : ℕ) (s : List UInt8) (v : ℕ) :
    ∃ ds, DigitRun 8 octalVal s v ds (octalRun d s v) ∧ ds.length ≤ d ∧
      (ds.length = d ∨ (octalRun d s v).2.head?.bind octalVal = none) := by
  induction d generalizing s v with
  | zero => exact ⟨[], .nil, le_rfl, .inl rfl⟩
  | succ d ih =>
    cases s with
    | nil => exact ⟨[], .nil, by simp, .inr rfl⟩
    | cons c s =>
      rw [octalRun]
      split
      · rename_i x hx
        obtain ⟨ds, hds, hlen, hmax⟩ := ih s (v * 8 + x)
        refine ⟨c :: ds, .cons hx hds, by simpa using hlen, ?_⟩
        rcases hmax with hmax | hmax
        · exact .inl (by simp [hmax])
        · exact .inr hmax
      · rename_i hx
        exact ⟨[], .nil, by simp, .inr (by simp [hx])⟩

theorem hexRun_spec (h : hexRun s v n = some r) :
    ∃ ds, DigitRun 16 hexVal s v ds r ∧ r.2.head?.bind hexVal = none := by
  induction s generalizing v n with
  | nil =>
    obtain rfl := Option.some.inj h
    exact ⟨[], .nil, rfl⟩
  | cons c s ih =>
    rw [hexRun] at h
    split at h
    · rename_i hc
      obtain rfl := Option.some.inj h
      exact ⟨[], .nil, by simp [hc]⟩
    · rename_i x hx
      split_ifs at h
      all_goals
        obtain ⟨ds, hds, hmax⟩ := ih h
        exact ⟨c :: ds, .cons hx hds, hmax⟩

theorem ucnRun_spec (h : ucnRun want s v = some r) :
    ∃ ds, DigitRun 16 hexVal s v ds r ∧ ds.length = want := by
  induction want generalizing s v with
  | zero =>
    obtain rfl := Option.some.inj h
    exact ⟨[], .nil, rfl⟩
  | succ want ih =>
    cases s with
    | nil => cases h
    | cons c s =>
      rw [ucnRun] at h
      split at h
      · cases h
      · rename_i x hx
        obtain ⟨ds, hds, hlen⟩ := ih h
        exact ⟨c :: ds, .cons hx hds, by simp [hlen]⟩

/-- A piece of a literal. -/
inductive Piece where
  | text (bytes : List UInt8)
  | codeUnit (v : ℕ) (hex : Bool)

/-- The pieces that a body is made of. -/
inductive Body : List UInt8 → List Piece → Prop
  | nil : Body [] []
  | plain {c s ps} : c ≠ 92 → Body s ps → Body (c :: s) (.text [c] :: ps)
  | named {e b s ps} : namedEscape e = some b → Body s ps →
      Body (92 :: e :: s) (.text [b] :: ps)
  | octal {ds s ps} : ds ≠ [] → ds.length ≤ 3 → (∀ c ∈ ds, (octalVal c).isSome) →
      (ds.length = 3 ∨ s.head?.bind octalVal = none) → Body s ps →
      Body (92 :: (ds ++ s)) (.codeUnit (digitsValue 8 octalVal 0 ds) false :: ps)
  | hex {ds s ps} : ds ≠ [] → (∀ c ∈ ds, (hexVal c).isSome) → s.head?.bind hexVal = none →
      Body s ps → Body (92 :: 120 :: (ds ++ s)) (.codeUnit (digitsValue 16 hexVal 0 ds) true :: ps)
  | universal {e : UInt8} {ds s ps} (c : Char) :
      (e = 117 ∧ ds.length = 4 ∨ e = 85 ∧ ds.length = 8) → (∀ d ∈ ds, (hexVal d).isSome) →
      c.toNat = digitsValue 16 hexVal 0 ds → Body s ps →
      Body (92 :: e :: (ds ++ s)) (.text (String.utf8EncodeChar c) :: ps)

def Decoded.piece (d : Decoded) : Piece → Decoded
  | .text bs => d.push bs
  | .codeUnit v hex => d.recordEscape v hex

/-- The bytes of a buffer: those of the text, and a placeholder for every code-unit escape. -/
def buffer : List Piece → List UInt8
  | [] => []
  | .text bs :: ps => bs ++ buffer ps
  | .codeUnit v _ :: ps => lowByte v :: buffer ps

def offsets : ℕ → List Piece → List EscapeValueUnit
  | _, [] => []
  | n, .text bs :: ps => offsets (n + bs.length) ps
  | n, .codeUnit v hex :: ps => ⟨n, v, hex⟩ :: offsets (n + 1) ps

theorem or_low {k y : ℕ} (a : ℕ) (h : y < 2 ^ k) : 2 ^ k * a ||| y = y + 2 ^ k * a := by
  rw [← Nat.two_pow_add_eq_or_of_lt h, Nat.add_comm]

theorem and_63 (x : ℕ) : x &&& 0x3F = x % 64 := Nat.and_two_pow_sub_one_eq_mod x 6

theorem lowByte_eq (v : ℕ) : lowByte v = UInt8.ofNat v := by
  rw [lowByte, show v &&& 0xFF = v % 2 ^ 8 from Nat.and_two_pow_sub_one_eq_mod v 8]
  exact UInt8.toNat_inj.1 (by simp)

theorem lowByte_tail (x : ℕ) : lowByte (0x80 ||| (x &&& 0x3F)) = UInt8.ofNat (x % 64 + 0x80) := by
  rw [lowByte_eq, and_63]
  exact congrArg UInt8.ofNat (or_low (k := 6) 2 (Nat.mod_lt _ (by norm_num)))

theorem toNat_lt_max (c : Char) : c.toNat < 0x110000 := by
  rcases c.valid with h | h
  · exact lt_trans h (by norm_num)
  · exact h.2

def utf8Sequence (v : ℕ) : List UInt8 :=
  if v < 0x80 then [UInt8.ofNat v]
  else if v < 0x800 then [UInt8.ofNat (v / 64 + 0xC0), UInt8.ofNat (v % 64 + 0x80)]
  else if v < 0x10000 then
    [UInt8.ofNat (v / 4096 + 0xE0), UInt8.ofNat (v / 64 % 64 + 0x80), UInt8.ofNat (v % 64 + 0x80)]
  else
    [UInt8.ofNat (v / 262144 + 0xF0), UInt8.ofNat (v / 4096 % 64 + 0x80),
      UInt8.ofNat (v / 64 % 64 + 0x80), UInt8.ofNat (v % 64 + 0x80)]

theorem utf8EncodeChar_eq (c : Char) : String.utf8EncodeChar c = utf8Sequence c.toNat := by
  have hmax := toNat_lt_max c
  have htop {a n : ℕ} (h : a < n) : a % n = a := Nat.mod_eq_of_lt h
  unfold String.utf8EncodeChar utf8Sequence
  simp only [Char.toNat_val]
  by_cases h1 : c.toNat < 0x80
  · rw [if_pos h1, if_pos (by omega)]
  rw [if_neg h1, if_neg (by omega)]
  by_cases h2 : c.toNat < 0x800
  · rw [if_pos h2, if_pos (by omega), htop (by omega)]
  rw [if_neg h2, if_neg (by omega)]
  by_cases h3 : c.toNat < 0x10000
  · rw [if_pos h3, if_pos (by omega), htop (a := _ / 4096) (by omega)]
  · rw [if_neg h3, if_neg (by omega), htop (a := _ / 262144) (by omega)]

theorem appendUtf8_eq (c : Char) : appendUtf8 c.toNat = String.utf8EncodeChar c := by
  have hmax := toNat_lt_max c
  rw [utf8EncodeChar_eq]
  unfold appendUtf8 utf8Sequence
  simp only [lowByte_tail]
  simp only [lowByte_eq, Nat.shiftRight_eq_div_pow]
  by_cases h1 : c.toNat < 0x80
  · rw [if_pos h1, if_pos h1]
  rw [if_neg h1, if_neg h1]
  by_cases h2 : c.toNat < 0x800
  · rw [if_pos h2, if_pos h2]
    rw [show 0xC0 ||| c.toNat / 2 ^ 6 = c.toNat / 64 + 0xC0 from or_low (k := 5) 6 (by omega)]
  rw [if_neg h2, if_neg h2]
  by_cases h3 : c.toNat < 0x10000
  · rw [if_pos h3, if_pos h3]
    rw [show 0xE0 ||| c.toNat / 2 ^ 12 = c.toNat / 4096 + 0xE0 from or_low (k := 4) 14 (by omega)]
  · rw [if_neg h3, if_neg h3]
    rw [show 0xF0 ||| c.toNat / 2 ^ 18 = c.toNat / 262144 + 0xF0 from or_low (k := 3) 30 (by omega)]

theorem exists_scalar {v : ℕ} (h : ¬(v > 0x10FFFF ∨ (0xD800 ≤ v ∧ v ≤ 0xDFFF))) :
    ∃ c : Char, c.toNat = v := by
  have hv : v.isValidChar := by
    unfold Nat.isValidChar
    omega
  exact ⟨Char.ofNat v, by rw [Char.toNat_ofNat, if_pos hv]⟩

theorem out_foldl_piece (ps : List Piece) (d : Decoded) :
    (ps.foldl Decoded.piece d).out = d.out ++ buffer ps := by
  induction ps generalizing d with
  | nil => simp [buffer]
  | cons p ps ih =>
    rw [List.foldl_cons, ih]
    cases p <;> simp [Decoded.piece, Decoded.push, Decoded.recordEscape, buffer]

theorem escapeUnits_foldl_piece (ps : List Piece) (d : Decoded) :
    (ps.foldl Decoded.piece d).escapeUnits = d.escapeUnits ++ offsets d.out.length ps := by
  induction ps generalizing d with
  | nil => simp [offsets]
  | cons p ps ih =>
    rw [List.foldl_cons, ih]
    cases p <;> simp [Decoded.piece, Decoded.push, Decoded.recordEscape, offsets]

theorem decodeEscape_piece {d : Decoded} {r : Decoded × List UInt8}
    (h : decodeEscape e s d = .ok r) :
    ∃ p, r.1 = d.piece p ∧ r.2.length ≤ s.length ∧
      ∀ ps, Body r.2 ps → Body (92 :: e :: s) (p :: ps) := by
  unfold decodeEscape at h
  split at h
  · rename_i x hx
    obtain rfl := Except.ok.inj h
    obtain ⟨ds, hds, hlen, hmax⟩ := octalRun_spec 2 s x
    have hfirst : DigitRun 8 octalVal (e :: s) 0 (e :: ds) (octalRun 2 s x) :=
      .cons hx (by simpa using hds)
    refine ⟨.codeUnit (digitsValue 8 octalVal 0 (e :: ds)) false, ?_, hds.length_le, ?_⟩
    · rw [← hfirst.value]
      rfl
    · intro ps hps
      rw [hfirst.text]
      refine .octal (by simp) (by simpa [Nat.lt_succ_iff] using hlen) hfirst.digits ?_ hps
      rcases hmax with hmax | hmax
      · exact .inl (by simp [hmax])
      · exact .inr hmax
  · split at h
    · rename_i b hb
      obtain rfl := Except.ok.inj h
      exact ⟨.text [b], rfl, le_rfl, fun ps hps => .named hb hps⟩
    · split_ifs at h with hx hdigit hu hwant
      · split at h
        · cases h
        · rename_i r' hr
          obtain rfl := Except.ok.inj h
          obtain ⟨ds, hds, hmax⟩ := hexRun_spec hr
          have he : e = 120 := UInt8.toNat_inj.1 hx
          refine ⟨.codeUnit r'.1 true, rfl, hds.length_le, ?_⟩
          intro ps hps
          rw [he, hds.text, hds.value]
          refine .hex ?_ hds.digits hmax hps
          rintro rfl
          simp [hds.text, hmax] at hdigit
      all_goals
        split at h
        · cases h
        · rename_i r' hr
          split_ifs at h with hscalar
          obtain rfl := Except.ok.inj h
          obtain ⟨ds, hds, hlen⟩ := ucnRun_spec hr
          obtain ⟨c, hc⟩ := exists_scalar hscalar
          refine ⟨.text (String.utf8EncodeChar c), ?_, hds.length_le, ?_⟩
          · rw [← hc, appendUtf8_eq]
            rfl
          · intro ps hps
            rw [hds.text]
            refine .universal c ?_ hds.digits (hc.trans hds.value) hps
            first
            | exact .inl ⟨UInt8.toNat_inj.1 hwant, hlen⟩
            | exact .inr ⟨UInt8.toNat_inj.1 (hu.resolve_left hwant), hlen⟩

def decodeFrom (body : List UInt8) (d : Decoded) : Except EscapeDecodeError Decoded :=
  match body with
  | [] => .ok d
  | c :: s =>
    if c.toNat ≠ '\\'.toNat then decodeFrom s (d.push [c])
    else match s with
      | [] => .error .malformed
      | e :: t =>
        match _h : decodeEscape e t d with
        | .error err => .error err
        | .ok r => decodeFrom r.2 r.1
termination_by body.length
decreasing_by
  · simp
  · obtain ⟨_, _, hlen, _⟩ := decodeEscape_piece ‹_›
    simp only [List.length_cons]
    omega

def decodeEscapedBytes (body : List UInt8) : Except EscapeDecodeError Decoded :=
  decodeFrom body ⟨[], [], false⟩

theorem decodeFrom_piece {body : List UInt8} {d d' : Decoded} (h : decodeFrom body d = .ok d') :
    ∃ ps, Body body ps ∧ d' = ps.foldl Decoded.piece d := by
  -- on the length: a turn takes one byte, or a whole escape
  induction hn : body.length using Nat.strong_induction_on generalizing body d with
  | _ n ih =>
    rw [decodeFrom.eq_def] at h
    split at h
    · obtain rfl := Except.ok.inj h
      exact ⟨[], .nil, rfl⟩
    · rename_i c s
      split_ifs at h with hc
      · obtain ⟨ps, hps, rfl⟩ := ih s.length (by simp [← hn]) h rfl
        refine ⟨.text [c] :: ps, .plain ?_ hps, rfl⟩
        rintro rfl
        exact hc rfl
      · have hc : c = 92 := UInt8.toNat_inj.1 (not_not.1 hc)
        split at h
        · cases h
        · rename_i e t
          split at h
          · cases h
          · rename_i r hr
            obtain ⟨p, hp, hlen, hbody⟩ := decodeEscape_piece hr
            have hlt : r.2.length < n := by
              simp only [← hn, List.length_cons]
              omega
            obtain ⟨ps, hps, rfl⟩ := ih r.2.length hlt h rfl
            refine ⟨p :: ps, ?_, by rw [hp]; rfl⟩
            rw [hc]
            exact hbody ps hps

theorem decodeEscapedBytes_body {body : List UInt8} {d : Decoded}
    (h : decodeEscapedBytes body = .ok d) :
    ∃ ps, Body body ps ∧ d.out = buffer ps ∧ d.escapeUnits = offsets 0 ps := by
  obtain ⟨ps, hps, rfl⟩ := decodeFrom_piece h
  refine ⟨ps, hps, ?_, ?_⟩
  · simpa using out_foldl_piece ps ⟨[], [], false⟩
  · simpa using escapeUnits_foldl_piece ps ⟨[], [], false⟩

end DssPrime.StringLiteral
