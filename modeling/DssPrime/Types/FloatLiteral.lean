import Mathlib
import DssPrime.Types.FloatMag

/-!
# The text of a floating literal

`parseFloatLiteralBody` splits a literal, with its suffix and digit separators already removed by
`floatLiteralBody`, into a sign, a digit string, the number of digits after the point and an
exponent that stops growing at a billion.

What a text denotes is said apart from the parser: the mantissa ends at the exponent marker, the
point splits it into whole and fractional digits, and `literalMagnitude` is their number scaled by
the exponent.  `parseFloatLiteralBody_spec` reads the parts of an accepted text that way.
-/

namespace DssPrime.NumberDecode

open Limbs (val)

structure NumberStyle where
  floatSuffixes : List (List Char)
  digitSeparator : Option Char

def matchTrailingSuffix (text : List Char) (suffixes : List (List Char)) : ℕ :=
  suffixes.foldl
    (fun best sfx => if best < sfx.length ∧ sfx.length ≤ text.length ∧
        text.drop (text.length - sfx.length) = sfx then sfx.length else best) 0

def stripTrailingSuffix (text : List Char) (suffixes : List (List Char)) : List Char :=
  text.take (text.length - matchTrailingSuffix text suffixes)

def floatLiteralBody (text : List Char) (ns : Option NumberStyle) : List Char :=
  let body := match ns with
    | some ns => stripTrailingSuffix text ns.floatSuffixes
    | none => text
  -- the NUL character stands for "no separator"
  let sep := (ns.bind (·.digitSeparator)).getD (Char.ofNat 0)
  body.filter (fun c => !(decide (sep ≠ Char.ofNat 0) && c == sep))

structure FloatLiteralParts where
  sign : Bool
  hex : Bool
  digits : List Char
  pointShift : ℕ
  exponent : ℤ
  deriving DecidableEq

def isDec (c : Char) : Bool := decide ('0' ≤ c ∧ c ≤ '9')

def isHex (c : Char) : Bool :=
  decide (('0' ≤ c ∧ c ≤ '9') ∨ ('a' ≤ c ∧ c ≤ 'f') ∨ ('A' ≤ c ∧ c ≤ 'F'))

def isDigit (hex : Bool) (c : Char) : Bool := if hex then isHex c else isDec c

def isMarker (hex : Bool) (c : Char) : Bool :=
  if hex then c == 'p' || c == 'P' else c == 'e' || c == 'E'

/-- The mantissa loop: the digits, how many of them follow the point, and the unread rest. -/
def scanMantissa (hex : Bool) : List Char → List Char → ℕ → Bool →
    Option (List Char × ℕ × List Char)
  | [], digits, shift, _ => some (digits, shift, [])
  | c :: s, digits, shift, seenPoint =>
    if c = '.' then
      if seenPoint then none else scanMantissa hex s digits shift true
    else if isDigit hex c then
      scanMantissa hex s (digits ++ [c]) (if seenPoint then shift + 1 else shift) seenPoint
    else some (digits, shift, c :: s)

/-- The exponent loop; the accumulator stops growing at a billion. -/
def scanExponent : List Char → ℕ → ℕ × List Char
  | [], acc => (acc, [])
  | c :: s, acc =>
    if isDec c then
      scanExponent s (if acc < 1000000000 then acc * 10 + (c.toNat - '0'.toNat) else acc)
    else (acc, c :: s)

def takeSign : List Char → Bool × List Char
  | [] => (false, [])
  | c :: s => if c = '+' ∨ c = '-' then (c == '-', s) else (false, c :: s)

def parseExponent (s : List Char) : Option ℤ :=
  let t := takeSign s
  if t.2.head?.any isDec = false then none
  else
    let r := scanExponent t.2 0
    if r.2 = [] then some (if t.1 then -(r.1 : ℤ) else r.1) else none

def takeHexPrefix (s : List Char) : Bool × List Char :=
  if s.take 2 = ['0', 'x'] ∨ s.take 2 = ['0', 'X'] then (true, s.drop 2) else (false, s)

def parseFloatLiteralBody (s : List Char) : Option FloatLiteralParts :=
  let t := takeSign s
  let h := takeHexPrefix t.2
  match scanMantissa h.1 h.2 [] 0 false with
  | none => none
  | some (digits, shift, rest) =>
    if digits = [] then none
    else match rest with
      | [] => some ⟨t.1, h.1, digits, shift, 0⟩
      | e :: rest =>
        if isMarker h.1 e then
          (parseExponent rest).map (fun x => ⟨t.1, h.1, digits, shift, x⟩)
        else none

def digitNat (c : Char) : ℕ :=
  if c ≤ '9' then c.toNat - '0'.toNat
  else if c ≤ 'Z' then 10 + (c.toNat - 'A'.toNat)
  else 10 + (c.toNat - 'a'.toNat)

def numeral (base : ℕ) (ds : List Char) : ℕ := ds.foldl (fun n c => n * base + digitNat c) 0

def unsignedBody (s : List Char) : Bool × List Char := takeHexPrefix (takeSign s).2

def literalBase (s : List Char) : ℕ := if (unsignedBody s).1 then 16 else 10

def mantissaText (s : List Char) : List Char :=
  (unsignedBody s).2.takeWhile (fun c => !isMarker (unsignedBody s).1 c)

def wholeDigits (s : List Char) : List Char := (mantissaText s).takeWhile (· != '.')

def fractionDigits (s : List Char) : List Char := ((mantissaText s).dropWhile (· != '.')).tail

def exponentText (s : List Char) : List Char :=
  ((unsignedBody s).2.dropWhile (fun c => !isMarker (unsignedBody s).1 c)).tail

def literalExponent (s : List Char) : ℤ :=
  (if (takeSign (exponentText s)).1 then -1 else 1) * numeral 10 (takeSign (exponentText s)).2

def literalNegative (s : List Char) : Bool := (takeSign s).1

/-- The rational a literal denotes, without its sign: the digits as a number with the point put
back, times a power of two after a hexadecimal mantissa and of ten after a decimal one. -/
def literalMagnitude (s : List Char) : ℚ :=
  numeral (literalBase s) (wholeDigits s ++ fractionDigits s) /
      literalBase s ^ (fractionDigits s).length *
    (if (unsignedBody s).1 then 2 else 10) ^ literalExponent s

theorem foldl_numeral (base : ℕ) (ds : List Char) (n : ℕ) :
    ds.foldl (fun n c => n * base + digitNat c) n = n * base ^ ds.length + numeral base ds := by
  induction ds generalizing n with
  | nil => simp [numeral]
  | cons c ds ih =>
    rw [numeral, List.foldl_cons, List.foldl_cons, ih, ih (0 * base + digitNat c),
      List.length_cons, pow_succ]
    ring

theorem numeral_append (base : ℕ) (xs ys : List Char) :
    numeral base (xs ++ ys) = numeral base xs * base ^ ys.length + numeral base ys := by
  rw [numeral, List.foldl_append, foldl_numeral]
  rfl

theorem numeral_cons (base : ℕ) (c : Char) (ds : List Char) :
    numeral base (c :: ds) = digitNat c * base ^ ds.length + numeral base ds := by
  rw [← List.singleton_append, numeral_append]
  simp [numeral]

@[simp] theorem numeral_nil (base : ℕ) : numeral base [] = 0 := rfl

def digitBase (hex : Bool) : ℕ := if hex then 16 else 10

theorem digitNat_lt {hex : Bool} {c : Char} (h : isDigit hex c = true) :
    digitNat c < digitBase hex := by
  cases hex
  · simp only [isDigit, isDec, Bool.false_eq_true, if_false, decide_eq_true_eq] at h
    obtain ⟨h0, h9⟩ := h
    rw [digitNat, if_pos h9, digitBase, if_neg (by decide)]
    have h9' : c.toNat ≤ 57 := h9
    have : '0'.toNat = 48 := rfl
    omega
  · simp only [isDigit, isHex, if_true, decide_eq_true_eq] at h
    rw [digitNat, digitBase, if_pos rfl]
    have e0 : '0'.toNat = 48 := rfl
    have eA : 'A'.toNat = 65 := rfl
    have ea : 'a'.toNat = 97 := rfl
    split_ifs with h9 hZ
    · have h9' : c.toNat ≤ 57 := h9
      omega
    · have h9' : ¬ c.toNat ≤ 57 := h9
      have hZ' : c.toNat ≤ 90 := hZ
      rcases h with ⟨-, h⟩ | ⟨h, -⟩ | ⟨-, h⟩
      · exact absurd h h9
      · have h' : 97 ≤ c.toNat := h
        omega
      · have h' : c.toNat ≤ 70 := h
        omega
    · have hZ' : ¬ c.toNat ≤ 90 := hZ
      rcases h with ⟨-, h⟩ | ⟨-, h⟩ | ⟨-, h⟩
      · exact absurd h h9
      · have h' : c.toNat ≤ 102 := h
        omega
      · have h' : c.toNat ≤ 70 := h
        omega

theorem digitValue_eq {hex : Bool} {c : Char} (h : isDigit hex c = true) :
    ((digitValue c).getD 0#64).toNat = digitNat c := by
  have hlt := digitNat_lt h
  have hsmall : digitNat c % 2 ^ 64 = digitNat c := by
    apply Nat.mod_eq_of_lt
    have : digitBase hex ≤ 16 := by cases hex <;> decide
    omega
  have hchar : isHex c = true := by
    cases hex
    · simp only [isDigit, isDec, Bool.false_eq_true, if_false, decide_eq_true_eq] at h
      simp [isHex, h]
    · exact h
  simp only [isHex, decide_eq_true_eq] at hchar
  rw [← hsmall]
  rw [digitValue, digitNat]
  have e9 : ∀ x : Char, x ≤ '9' ↔ x.toNat ≤ 57 := fun x => Iff.rfl
  have e0 : ∀ x : Char, '0' ≤ x ↔ 48 ≤ x.toNat := fun x => Iff.rfl
  have ea : ∀ x : Char, 'a' ≤ x ↔ 97 ≤ x.toNat := fun x => Iff.rfl
  have ez : ∀ x : Char, x ≤ 'z' ↔ x.toNat ≤ 122 := fun x => Iff.rfl
  have ef : ∀ x : Char, x ≤ 'f' ↔ x.toNat ≤ 102 := fun x => Iff.rfl
  have eA : ∀ x : Char, 'A' ≤ x ↔ 65 ≤ x.toNat := fun x => Iff.rfl
  have eZ : ∀ x : Char, x ≤ 'Z' ↔ x.toNat ≤ 90 := fun x => Iff.rfl
  have eF : ∀ x : Char, x ≤ 'F' ↔ x.toNat ≤ 70 := fun x => Iff.rfl
  simp only [e9, e0, ea, ez, ef, eA, eZ, eF] at hchar ⊢
  generalize c.toNat = n at hchar ⊢
  rcases hchar with h | h | h
  · rw [if_pos h, if_pos h.2]
    simp
  · rw [if_neg (by omega), if_pos ⟨h.1, by omega⟩, if_neg (by omega), if_neg (by omega)]
    simp
  · rw [if_neg (by omega), if_neg (by omega), if_pos ⟨h.1, by omega⟩, if_neg (by omega),
      if_pos (by omega)]
    simp

theorem numeral_lt {hex : Bool} {ds : List Char} (h : ∀ c ∈ ds, isDigit hex c = true) :
    numeral (digitBase hex) ds < digitBase hex ^ ds.length := by
  induction ds with
  | nil => simp
  | cons c ds ih =>
    have hc := digitNat_lt (h c (List.mem_cons_self ..))
    have hds := ih (fun d hd => h d (List.mem_cons_of_mem _ hd))
    rw [numeral_cons, List.length_cons, pow_succ]
    have hmul : (digitNat c + 1) * digitBase hex ^ ds.length ≤
        digitBase hex * digitBase hex ^ ds.length := Nat.mul_le_mul_right _ hc
    rw [Nat.add_mul, Nat.one_mul] at hmul
    rw [mul_comm (digitBase hex ^ ds.length)]
    omega

def baseWord (hex : Bool) : BitVec 64 := if hex then 16#64 else 10#64

theorem baseWord_toNat (hex : Bool) : (baseWord hex).toNat = digitBase hex := by
  cases hex <;> rfl

theorem chunkValue_eq {hex : Bool} {ds : List Char} (h : ∀ c ∈ ds, isDigit hex c = true)
    (hlen : digitBase hex ^ ds.length ≤ 2 ^ 64) :
    (chunkValue (baseWord hex) ds).toNat = numeral (digitBase hex) ds := by
  induction ds using List.reverseRecOn with
  | nil => rfl
  | append_singleton ds c ih =>
    have hpos : 0 < digitBase hex := by cases hex <;> decide
    have hle : digitBase hex ^ ds.length ≤ digitBase hex ^ (ds ++ [c]).length :=
      Nat.pow_le_pow_right hpos (by simp)
    have ih' := ih (fun d hd => h d (List.mem_append_left _ hd)) (hle.trans hlen)
    have hc := digitValue_eq (h c (List.mem_append_right _ (List.mem_singleton.2 rfl)))
    have hlt := (numeral_lt h).trans_le hlen
    have hval : numeral (digitBase hex) (ds ++ [c]) =
        numeral (digitBase hex) ds * digitBase hex + digitNat c := by
      rw [numeral_append]
      simp [numeral]
    rw [hval] at hlt ⊢
    rw [chunkValue, List.foldl_append, List.foldl_cons, List.foldl_nil]
    have ih'' : (ds.foldl (fun acc c => acc * baseWord hex + (digitValue c).getD 0#64)
        0#64).toNat = numeral (digitBase hex) ds := ih'
    rw [BitVec.toNat_add, BitVec.toNat_mul, ih'', hc, baseWord_toNat, Nat.mod_add_mod]
    exact Nat.mod_eq_of_lt hlt

theorem val_digitsToMagFrom {hex : Bool} (m : FloatMag) {ds : List Char}
    (h : ∀ c ∈ ds, isDigit hex c = true) :
    val (digitsToMagFrom (baseWord hex) m ds) =
      val m * digitBase hex ^ ds.length + numeral (digitBase hex) ds := by
  induction hn : ds.length using Nat.strong_induction_on generalizing m ds with
  | _ n ih =>
    rw [digitsToMagFrom]
    by_cases hnil : ds = []
    · subst hnil
      simp at hn
      simp [← hn]
    · rw [if_neg hnil]
      have hpos : 0 < ds.length := List.length_pos_of_ne_nil hnil
      obtain ⟨t, ht⟩ : ∃ t, t = min (if baseWord hex = 16#64 then 15 else 19) ds.length :=
        ⟨_, rfl⟩
      rw [← ht]
      have ht1 : 1 ≤ t ∧ t ≤ ds.length := by
        rw [ht]
        split_ifs <;> omega
      -- the multiplier of the chunk, and that the chunk fits a word
      have hmul : (if baseWord hex = 16#64 then kPow16.getD t 0#64
          else kPow10.getD t 0#64).toNat = digitBase hex ^ t ∧ digitBase hex ^ t ≤ 2 ^ 64 := by
        cases hex
        · have ht19 : t ≤ 19 := by
            rw [ht]
            exact min_le_left _ _
          refine ⟨kPow10_eq t (by omega), ?_⟩
          calc digitBase false ^ t ≤ 10 ^ 19 := Nat.pow_le_pow_right (by decide) ht19
            _ ≤ 2 ^ 64 := by norm_num
        · have ht15 : t ≤ 15 := by
            rw [ht]
            exact min_le_left _ _
          refine ⟨kPow16_eq t (by omega), ?_⟩
          calc digitBase true ^ t ≤ 16 ^ 15 := Nat.pow_le_pow_right (by decide) ht15
            _ ≤ 2 ^ 64 := by norm_num
      have hlen : (ds.take t).length = t := by rw [List.length_take]; omega
      have hchunk := chunkValue_eq (fun c hc => h c (List.mem_of_mem_take hc))
        (by rw [hlen]; exact hmul.2)
      rw [ih (ds.drop t).length (by rw [List.length_drop]; omega) _
        (fun c hc => h c (List.mem_of_mem_drop hc)) rfl, val_magMulAddSmall, hmul.1, hchunk]
      have hsplit : numeral (digitBase hex) ds = numeral (digitBase hex) (ds.take t) *
          digitBase hex ^ (ds.drop t).length + numeral (digitBase hex) (ds.drop t) := by
        rw [← numeral_append, List.take_append_drop]
      have hpow : digitBase hex ^ n = digitBase hex ^ t * digitBase hex ^ (ds.drop t).length := by
        rw [← pow_add, List.length_drop]
        congr 1
        omega
      rw [hsplit, hpow]
      ring

/-- **The digit string**, accumulated in chunks, is its number. -/
theorem val_digitsToMag {hex : Bool} {ds : List Char} (h : ∀ c ∈ ds, isDigit hex c = true) :
    val (digitsToMag ds (baseWord hex)) = numeral (digitBase hex) ds := by
  rw [digitsToMag, val_digitsToMagFrom _ h]
  simp

theorem isDigit_not_marker {hex : Bool} {c : Char} (h : isDigit hex c = true) :
    isMarker hex c = false ∧ c ≠ '.' := by
  have hno : ∀ d : Char, isDigit hex d = false → c ≠ d := by
    intro d hd he
    rw [he, hd] at h
    cases h
  have hdot : c ≠ '.' := hno '.' (by cases hex <;> decide)
  refine ⟨?_, hdot⟩
  cases hex
  · have h1 := hno 'e' (by decide)
    have h2 := hno 'E' (by decide)
    simp [isMarker, h1, h2]
  · have h1 := hno 'p' (by decide)
    have h2 := hno 'P' (by decide)
    simp [isMarker, h1, h2]

theorem scanMantissa_seen {hex : Bool} {s ds : List Char} {n : ℕ}
    {out : List Char × ℕ × List Char} (h : scanMantissa hex s ds n true = some out) :
    ∃ mant, s = mant ++ out.2.2 ∧ (∀ c ∈ mant, isDigit hex c = true) ∧
      out.1 = ds ++ mant ∧ out.2.1 = n + mant.length := by
  induction s generalizing ds n with
  | nil =>
    rw [scanMantissa, Option.some.injEq] at h
    subst h
    exact ⟨[], by simp⟩
  | cons c s ih =>
    simp only [scanMantissa, ↓reduceIte] at h
    split_ifs at h with hdot hdig
    · obtain ⟨mant, hs, hall, hds, hn⟩ := ih h
      refine ⟨c :: mant, by rw [hs]; rfl, ?_, ?_, ?_⟩
      · intro d hd
        rcases List.mem_cons.1 hd with rfl | hd
        · exact hdig
        · exact hall d hd
      · rw [hds]
        simp
      · rw [hn, List.length_cons]
        omega
    · rw [Option.some.injEq] at h
      subst h
      exact ⟨[], by simp⟩

theorem scanMantissa_spec {hex : Bool} {s ds : List Char} {n : ℕ}
    {out : List Char × ℕ × List Char} (h : scanMantissa hex s ds n false = some out) :
    ∃ whole dot frac, s = whole ++ dot ++ frac ++ out.2.2 ∧
      (∀ c ∈ whole ++ frac, isDigit hex c = true) ∧
      ((dot = [] ∧ frac = []) ∨ dot = ['.']) ∧ out.1 = ds ++ whole ++ frac ∧
      out.2.1 = n + frac.length := by
  induction s generalizing ds n with
  | nil =>
    rw [scanMantissa, Option.some.injEq] at h
    subst h
    exact ⟨[], [], [], by simp⟩
  | cons c s ih =>
    simp only [scanMantissa, Bool.false_eq_true, ↓reduceIte] at h
    split_ifs at h with hdot hdig
    · obtain ⟨mant, hs, hall, hds, hn⟩ := scanMantissa_seen h
      refine ⟨[], ['.'], mant, ?_, by simpa using hall, .inr rfl, by simp [hds], hn⟩
      rw [hdot, hs]
      simp
    · obtain ⟨whole, dot, frac, hs, hall, hshape, hds, hn⟩ := ih h
      refine ⟨c :: whole, dot, frac, by rw [hs]; simp, ?_, hshape, by simp [hds], hn⟩
      intro d hd
      rw [List.cons_append, List.mem_cons] at hd
      rcases hd with rfl | hd
      · exact hdig
      · exact hall d hd
    · rw [Option.some.injEq] at h
      subst h
      exact ⟨[], [], [], by simp⟩

/-- An exponent read by the saturating accumulator: exact, or a billion and more on both sides. -/
def Saturates (x e : ℤ) : Prop :=
  x = e ∨ (1000000000 ≤ x ∧ 1000000000 ≤ e) ∨ (x ≤ -1000000000 ∧ e ≤ -1000000000)

theorem scanExponent_full {s : List Char} {acc : ℕ} (h : 1000000000 ≤ acc) :
    (scanExponent s acc).1 = acc := by
  induction s with
  | nil => rfl
  | cons c s ih =>
    rw [scanExponent, if_neg (not_lt.2 h)]
    split_ifs
    · exact ih
    · rfl

theorem scanExponent_spec {s : List Char} {acc : ℕ} (h : (scanExponent s acc).2 = []) :
    (scanExponent s acc).1 = acc * 10 ^ s.length + numeral 10 s ∨
      (1000000000 ≤ (scanExponent s acc).1 ∧
        1000000000 ≤ acc * 10 ^ s.length + numeral 10 s) := by
  by_cases hfull : 1000000000 ≤ acc
  · refine .inr ⟨by rw [scanExponent_full hfull]; exact hfull, ?_⟩
    calc 1000000000 ≤ acc * 1 := by omega
      _ ≤ acc * 10 ^ s.length := Nat.mul_le_mul_left _ (Nat.one_le_pow _ _ (by decide))
      _ ≤ _ := Nat.le_add_right _ _
  induction s generalizing acc with
  | nil =>
    left
    simp [scanExponent]
  | cons c s ih =>
    rw [scanExponent] at h ⊢
    by_cases hdec : isDec c = true
    · rw [if_pos hdec, if_pos (not_le.1 hfull)] at h ⊢
      have hc : c.toNat - '0'.toNat = digitNat c := by
        rw [isDec, decide_eq_true_eq] at hdec
        rw [digitNat, if_pos hdec.2]
      rw [hc] at h ⊢
      have hval : acc * 10 ^ (c :: s).length + numeral 10 (c :: s) =
          (acc * 10 + digitNat c) * 10 ^ s.length + numeral 10 s := by
        rw [numeral_cons, List.length_cons, pow_succ]
        ring
      rw [hval]
      by_cases hnext : 1000000000 ≤ acc * 10 + digitNat c
      · refine .inr ⟨by rw [scanExponent_full hnext]; exact hnext, ?_⟩
        calc 1000000000 ≤ (acc * 10 + digitNat c) * 1 := by omega
          _ ≤ (acc * 10 + digitNat c) * 10 ^ s.length :=
            Nat.mul_le_mul_left _ (Nat.one_le_pow _ _ (by decide))
          _ ≤ _ := Nat.le_add_right _ _
      · exact ih h hnext
    · rw [if_neg hdec] at h
      cases h

theorem parseExponent_spec {s : List Char} {x : ℤ} (h : parseExponent s = some x) :
    Saturates x ((if (takeSign s).1 then -1 else 1) * numeral 10 (takeSign s).2) := by
  rw [parseExponent] at h
  simp only at h
  split_ifs at h with hhead hrest hneg
  · rw [Option.some.injEq] at h
    have hs := scanExponent_spec hrest
    rw [Nat.zero_mul, Nat.zero_add] at hs
    rw [if_pos hneg, ← h, Saturates]
    rcases hs with hs | hs
    · left
      rw [hs]
      ring
    · right
      right
      omega
  · rw [Option.some.injEq] at h
    have hs := scanExponent_spec hrest
    rw [Nat.zero_mul, Nat.zero_add] at hs
    rw [if_neg hneg, ← h, Saturates]
    rcases hs with hs | hs
    · left
      rw [hs]
      ring
    · right
      left
      omega

/-- The parts are those of the text. -/
structure ParsedAs (s : List Char) (p : FloatLiteralParts) : Prop where
  sign : p.sign = literalNegative s
  hex : p.hex = (unsignedBody s).1
  digits : p.digits = wholeDigits s ++ fractionDigits s
  pointShift : p.pointShift = (fractionDigits s).length
  exponent : Saturates p.exponent (literalExponent s)
  isDigit : ∀ c ∈ p.digits, isDigit p.hex c = true
  length_le : p.digits.length ≤ s.length

theorem takeSign_length (s : List Char) : (takeSign s).2.length ≤ s.length := by
  cases s with
  | nil => rfl
  | cons c s =>
    rw [takeSign]
    split_ifs <;> simp

theorem takeHexPrefix_length (s : List Char) : (takeHexPrefix s).2.length ≤ s.length := by
  rw [takeHexPrefix]
  split_ifs <;> simp

theorem mantissa_split {hex : Bool} {whole dot frac rest : List Char}
    (hall : ∀ c ∈ whole ++ frac, isDigit hex c = true)
    (hshape : (dot = [] ∧ frac = []) ∨ dot = ['.'])
    (hrest : ∀ c ∈ rest.head?, isMarker hex c = true) :
    (whole ++ dot ++ frac ++ rest).takeWhile (fun c => !isMarker hex c) = whole ++ dot ++ frac ∧
      (whole ++ dot ++ frac ++ rest).dropWhile (fun c => !isMarker hex c) = rest ∧
      (whole ++ dot ++ frac).takeWhile (· != '.') = whole ∧
      ((whole ++ dot ++ frac).dropWhile (· != '.')).tail = frac := by
  have hmark : ∀ c ∈ whole ++ dot ++ frac, (!isMarker hex c) = true := by
    intro c hc
    rw [Bool.not_eq_true']
    rw [List.append_assoc, List.mem_append, List.mem_append] at hc
    rcases hc with hc | hc | hc
    · exact (isDigit_not_marker (hall c (List.mem_append_left _ hc))).1
    · rcases hshape with ⟨hd, -⟩ | hd
      · rw [hd] at hc
        cases hc
      · rw [hd, List.mem_singleton] at hc
        rw [hc]
        cases hex <;> decide
    · exact (isDigit_not_marker (hall c (List.mem_append_right _ hc))).1
  have hpoint : ∀ c ∈ whole, (c != '.') = true := by
    intro c hc
    rw [bne_iff_ne]
    exact (isDigit_not_marker (hall c (List.mem_append_left _ hc))).2
  have hstop : rest.takeWhile (fun c => !isMarker hex c) = [] ∧
      rest.dropWhile (fun c => !isMarker hex c) = rest := by
    cases rest with
    | nil => exact ⟨rfl, rfl⟩
    | cons c rest =>
      have hc := hrest c rfl
      simp [hc]
  refine ⟨?_, ?_, ?_, ?_⟩
  · rw [List.takeWhile_append_of_pos hmark, hstop.1, List.append_nil]
  · rw [List.dropWhile_append_of_pos hmark, hstop.2]
  · rw [List.append_assoc, List.takeWhile_append_of_pos hpoint]
    rcases hshape with ⟨rfl, rfl⟩ | rfl
    · simp
    · simp
  · rw [List.append_assoc, List.dropWhile_append_of_pos hpoint]
    rcases hshape with ⟨rfl, rfl⟩ | rfl
    · simp
    · simp

/-- **The parser reads what the text denotes**, but for the exponents it cuts off. -/
theorem parseFloatLiteralBody_spec {s : List Char} {p : FloatLiteralParts}
    (h : parseFloatLiteralBody s = some p) : ParsedAs s p := by
  rw [parseFloatLiteralBody] at h
  cases hscan : scanMantissa (takeHexPrefix (takeSign s).2).1 (takeHexPrefix (takeSign s).2).2
      [] 0 false with
  | none =>
    rw [hscan] at h
    cases h
  | some out =>
    obtain ⟨digits, shift, rest⟩ := out
    rw [hscan] at h
    simp only at h
    obtain ⟨whole, dot, frac, hs, hall, hshape, hdigits, hshift⟩ := scanMantissa_spec hscan
    simp only [List.nil_append, Nat.zero_add] at hs hdigits hshift
    -- a rest that is accepted starts with the marker
    have hparts : ∃ x,
        p = ⟨(takeSign s).1, (takeHexPrefix (takeSign s).2).1, digits, shift, x⟩ ∧
        (∀ c ∈ rest.head?, isMarker (takeHexPrefix (takeSign s).2).1 c = true) ∧
        Saturates x ((if (takeSign rest.tail).1 then -1 else 1) *
          numeral 10 (takeSign rest.tail).2) := by
      split_ifs at h with hnil
      cases rest with
      | nil =>
        simp only [Option.some.injEq] at h
        refine ⟨0, h.symm, by simp, .inl ?_⟩
        simp [takeSign]
      | cons e rest =>
        simp only at h
        split_ifs at h with hmark
        obtain ⟨x, hx, hp⟩ := Option.map_eq_some_iff.1 h
        refine ⟨x, hp.symm, ?_, parseExponent_spec hx⟩
        intro c hc
        rw [List.head?_cons, Option.mem_def, Option.some.injEq] at hc
        rw [← hc]
        exact hmark
    obtain ⟨x, rfl, hmark, hexp⟩ := hparts
    obtain ⟨hmant, htail, hwhole, hfrac⟩ := mantissa_split hall hshape hmark
    rw [← hs] at hmant htail
    have hmantissa : mantissaText s = whole ++ dot ++ frac := hmant
    have hwholeDigits : wholeDigits s = whole := by
      rw [wholeDigits, hmantissa, hwhole]
    have hfractionDigits : fractionDigits s = frac := by
      rw [fractionDigits, hmantissa, hfrac]
    have hexponentText : exponentText s = rest.tail := by
      rw [exponentText, unsignedBody, htail]
    refine ⟨rfl, rfl, ?_, ?_, ?_, ?_, ?_⟩
    · rw [hwholeDigits, hfractionDigits]
      exact hdigits
    · rw [hfractionDigits]
      exact hshift
    · rw [literalExponent, hexponentText]
      exact hexp
    · rw [hdigits]
      exact hall
    · have hlen := congrArg List.length hs
      simp only [List.length_append] at hlen
      have h1 := takeHexPrefix_length (takeSign s).2
      have h2 := takeSign_length s
      simp only
      rw [hdigits, List.length_append]
      omega

example : parseFloatLiteralBody "-1.25e2".toList = some ⟨true, false, "125".toList, 2, 2⟩ := by
  decide

end DssPrime.NumberDecode
