import Mathlib
import DssPrime.Bits.Limbs
import DssPrime.Mir.Basic

/-!
# Wide floating-point constants

The host value type that folds `F80` and `F128` constants at their own precision.  A normal
value is `± sig · 2 ^ exponent` with a left-justified 128-bit significand whose integer bit
is bit 127.  Arithmetic runs in a 256-bit register of four limbs with the integer bit at
bit 255, and one rounding step, `roundNormal`, ends every operation.  Bits that an
alignment shifts out of the register collapse into one sticky flag.

Exponents are the source's `int32_t`, written as integers: they stay within a few multiples
of the format's range, far from the ends of the type.
-/

namespace DssPrime

inductive WideFloatClass where
  | zero
  | normal
  | infinity
  | nan
  deriving DecidableEq

/-- An extended or quadruple value. -/
structure WideFloatValue where
  sign : Bool
  cls : WideFloatClass
  exponent : ℤ
  /-- Upper half of the significand, integer bit at bit 63. -/
  sigHi : BitVec 64
  sigLo : BitVec 64
  kind : TypeKind
  deriving DecidableEq

namespace WideFloatValue

def isSupportedKind (k : TypeKind) : Bool := k == .f80 || k == .f128

def significandBits (k : TypeKind) : ℕ := if k = .f128 then 113 else 64

def kMaxExp : ℤ := 16383

def kMinExp : ℤ := -16382

def zero (k : TypeKind) (sign : Bool) : WideFloatValue := ⟨sign, .zero, 0, 0#64, 0#64, k⟩

def infinity (k : TypeKind) (sign : Bool) : WideFloatValue := ⟨sign, .infinity, 0, 0#64, 0#64, k⟩

def nan (k : TypeKind) : WideFloatValue := ⟨false, .nan, 0, 0#64, 0#64, k⟩

def countlZero (w : BitVec 64) : ℕ := 64 - w.toNat.size

def fromDouble (bits : BitVec 64) (k : TypeKind) : WideFloatValue :=
  let sign := ((bits >>> 63) &&& 1#64) != 0#64
  let exp11 := ((bits >>> 52) &&& 0x7FF#64).toNat
  let frac52 := bits &&& 0x000FFFFFFFFFFFFF#64
  if exp11 = 0x7FF then
    if frac52 = 0#64 then ⟨sign, .infinity, 0, 0#64, 0#64, k⟩ else ⟨sign, .nan, 0, 0#64, 0#64, k⟩
  else if exp11 = 0 then
    if frac52 = 0#64 then ⟨sign, .zero, 0, 0#64, 0#64, k⟩
    else
      -- a subnormal double is renormalised into the wider exponent range
      let shift := countlZero frac52
      ⟨sign, .normal, (63 - shift : ℤ) - 1074, frac52 <<< shift, 0#64, k⟩
  else
    ⟨sign, .normal, (exp11 : ℤ) - 1023, (1#64 <<< 63) ||| (frac52 <<< 11), 0#64, k⟩

def fromUint64 (mag : BitVec 64) (sign : Bool) (k : TypeKind) : WideFloatValue :=
  if mag = 0#64 then ⟨sign, .zero, 0, 0#64, 0#64, k⟩
  else
    let highBit : ℕ := 63 - countlZero mag
    ⟨sign, .normal, highBit, mag <<< (63 - highBit), 0#64, k⟩

def fromInt64 (v : BitVec 64) (k : TypeKind) : WideFloatValue :=
  fromUint64 (if v.msb then ~~~v + 1#64 else v) v.msb k

def negate (v : WideFloatValue) : WideFloatValue := { v with sign := !v.sign }

def mul128 (aHi aLo bHi bLo : BitVec 64) : List (BitVec 64) :=
  let ll := Limbs.mul64 aLo bLo
  let lh := Limbs.mul64 aLo bHi
  let hl := Limbs.mul64 aHi bLo
  let hh := Limbs.mul64 aHi bHi
  let s1 := ll.2 + lh.1
  let c1 := if s1 < ll.2 then 1#64 else 0#64
  let p1 := s1 + hl.1
  let carry1 := c1 + if p1 < s1 then 1#64 else 0#64
  let s2 := lh.2 + hl.2
  let c2 := if s2 < lh.2 then 1#64 else 0#64
  let s3 := s2 + hh.1
  let c3 := c2 + if s3 < s2 then 1#64 else 0#64
  let p2 := s3 + carry1
  let c4 := c3 + if p2 < s3 then 1#64 else 0#64
  [ll.1, p1, p2, hh.2 + c4]

def getBit (W : List (BitVec 64)) (bit : ℕ) : Bool :=
  ((W.getD (bit / 64) 0#64 >>> (bit % 64)) &&& 1#64) != 0#64

def setBit (W : List (BitVec 64)) (bit : ℕ) : List (BitVec 64) :=
  W.modify (bit / 64) (· ||| (1#64 <<< (bit % 64)))

def isZeroReg (W : List (BitVec 64)) : Bool := W.all (· == 0#64)

def highestSetBitBelow (W : List (BitVec 64)) : ℕ → ℤ
  | 0 => -1
  | i + 1 =>
    if W.getD i 0#64 ≠ 0#64 then (i : ℤ) * 64 + 63 - countlZero (W.getD i 0#64)
    else highestSetBitBelow W i

def highestSetBit (W : List (BitVec 64)) : ℤ := highestSetBitBelow W 4

def geq (a b : List (BitVec 64)) : Bool := Limbs.cmpBelow a b 4 != .lt

def subFrom (a b : List (BitVec 64)) : List (BitVec 64) := (Limbs.subBorrow a b 0#64).1

/-- Decrements, borrowing through zero limbs. -/
def subOne : List (BitVec 64) → List (BitVec 64)
  | [] => []
  | w :: ws => if w ≠ 0#64 then (w - 1#64) :: ws else (w - 1#64) :: subOne ws

def anyBitsBelow (W : List (BitVec 64)) (pos : ℕ) : Bool := (List.range pos).any (getBit W)

/-- Shifts right by `d`; the flag says whether a set bit was shifted out. -/
def shr (W : List (BitVec 64)) (d : ℤ) : List (BitVec 64) × Bool :=
  if d ≤ 0 then (W, false)
  else if 256 ≤ d then ([0#64, 0#64, 0#64, 0#64], !isZeroReg W)
  else
    ((List.range 4).map (Limbs.shrLimb (fun i => if i < 4 then W.getD i 0#64 else 0#64) d.toNat),
      anyBitsBelow W d.toNat)

def shl (W : List (BitVec 64)) (k : ℤ) : List (BitVec 64) :=
  if k ≤ 0 then W
  else if 256 ≤ k then [0#64, 0#64, 0#64, 0#64]
  else (List.range 4).map (Limbs.shlLimb (fun i => W.getD i 0#64) k.toNat)

def clearBitsBelow (W : List (BitVec 64)) (pos : ℕ) : List (BitVec 64) :=
  (List.range pos).foldl (fun W bit => W.modify (bit / 64) (· &&& ~~~(1#64 <<< (bit % 64)))) W

def addAtFrom : List (BitVec 64) → BitVec 64 → List (BitVec 64) × Bool
  | [], carry => ([], carry != 0#64)
  | w :: ws, carry =>
    if carry = 0#64 then (w :: ws, false)
    else
      let r := addAtFrom ws (if w + carry < w then 1#64 else 0#64)
      ((w + carry) :: r.1, r.2)

def addAt (W : List (BitVec 64)) (pos : ℕ) : List (BitVec 64) × Bool :=
  let r := addAtFrom (W.drop (pos / 64)) (1#64 <<< (pos % 64))
  (W.take (pos / 64) ++ r.1, r.2)

def load (v : WideFloatValue) : List (BitVec 64) := [0#64, 0#64, v.sigLo, v.sigHi]

/-- The round-to-nearest-even step: `W` is normalised, `extSticky` says that more nonzero
bits follow below it. -/
def roundNormal (k : TypeKind) (sign : Bool) (exp : ℤ) (W : List (BitVec 64)) (extSticky : Bool) :
    Option WideFloatValue :=
  let keptLSB := 256 - significandBits k
  let roundPos := keptLSB - 1
  let lsb := getBit W keptLSB
  let roundBit := getBit W roundPos
  let sticky := extSticky || anyBitsBelow W roundPos
  let kept := clearBitsBelow W keptLSB
  let rounded := if roundBit && (sticky || lsb) then addAt kept keptLSB else (kept, false)
  -- a carry out of the register renormalises
  let W := if rounded.2 then [0#64, 0#64, 0#64, 1#64 <<< 63] else rounded.1
  let exp := if rounded.2 then exp + 1 else exp
  if kMaxExp < exp then some (infinity k sign)
  else if exp < kMinExp then none
  else some ⟨sign, .normal, exp, W.getD 3 0#64, W.getD 2 0#64, k⟩

def fromExactBinary (k : TypeKind) (sign : Bool) (exp2 : ℤ) (reg : List (BitVec 64))
    (residualBelowRegister : Bool) : Option WideFloatValue :=
  if isSupportedKind k = false then none
  else if getBit reg 255 = false then none
  else roundNormal k sign exp2 reg residualBelowRegister

def compareMagnitude (a b : WideFloatValue) : Ordering :=
  if a.exponent ≠ b.exponent then (if a.exponent < b.exponent then .lt else .gt)
  else if a.sigHi ≠ b.sigHi then (if a.sigHi < b.sigHi then .lt else .gt)
  else if a.sigLo ≠ b.sigLo then (if a.sigLo < b.sigLo then .lt else .gt)
  else .eq

def addAligned (k : TypeKind) (sign : Bool) (exp : ℤ) (Wa Wb : List (BitVec 64)) (sticky : Bool) :
    Option WideFloatValue :=
  let s := Limbs.addCarry Wa Wb 0#64
  if s.2 ≠ 0#64 then
    let sh := shr s.1 1
    roundNormal k sign (exp + 1) (setBit sh.1 255) (sticky || sh.2)
  else roundNormal k sign exp s.1 sticky

def addMagnitudes (k : TypeKind) (sign : Bool) (a b : WideFloatValue) : Option WideFloatValue :=
  if b.exponent ≤ a.exponent then
    let sh := shr (load b) (a.exponent - b.exponent)
    addAligned k sign a.exponent (load a) sh.1 sh.2
  else
    let sh := shr (load a) (b.exponent - a.exponent)
    addAligned k sign b.exponent sh.1 (load b) sh.2

/-- The difference of two magnitudes, the first the larger one. -/
def subOrdered (k : TypeKind) (big small : WideFloatValue) : Option WideFloatValue :=
  let sh := shr (load small) (big.exponent - small.exponent)
  let diff := subFrom (load big) sh.1
  -- what was shifted out is borrowed from the register and stays as the sticky flag
  let W := if sh.2 then subOne diff else diff
  let h := highestSetBit W
  if h < 0 then some (zero k false)
  else
    let shiftLeft := 255 - h
    if 0 < shiftLeft then
      roundNormal k big.sign (big.exponent - shiftLeft) (shl W shiftLeft) sh.2
    else roundNormal k big.sign big.exponent W sh.2

def subMagnitudes (k : TypeKind) (a b : WideFloatValue) : Option WideFloatValue :=
  if compareMagnitude a b = .eq then some (zero k false)
  else if compareMagnitude a b = .gt then subOrdered k a b
  else subOrdered k b a

def addSub (a bIn : WideFloatValue) (subtract : Bool) : Option WideFloatValue :=
  if a.kind ≠ bIn.kind ∨ isSupportedKind a.kind = false then none
  else
    let k := a.kind
    let b := if subtract then { bIn with sign := !bIn.sign } else bIn
    if a.cls = .nan ∨ b.cls = .nan then some (nan k)
    else if a.cls = .infinity ∨ b.cls = .infinity then
      if a.cls = .infinity ∧ b.cls = .infinity then
        if a.sign ≠ b.sign then some (nan k) else some (infinity k a.sign)
      else if a.cls = .infinity then some (infinity k a.sign) else some (infinity k b.sign)
    else if a.cls = .zero ∧ b.cls = .zero then some (zero k (a.sign && b.sign))
    else if a.cls = .zero then some b
    else if b.cls = .zero then some a
    else if a.sign = b.sign then addMagnitudes k a.sign a b
    else subMagnitudes k a b

def add (a b : WideFloatValue) : Option WideFloatValue := addSub a b false

def sub (a b : WideFloatValue) : Option WideFloatValue := addSub a b true

def mul (a b : WideFloatValue) : Option WideFloatValue :=
  if a.kind ≠ b.kind ∨ isSupportedKind a.kind = false then none
  else
    let k := a.kind
    let sign := a.sign ^^ b.sign
    if a.cls = .nan ∨ b.cls = .nan then some (nan k)
    else if a.cls = .infinity ∨ b.cls = .infinity then
      if a.cls = .zero ∨ b.cls = .zero then some (nan k) else some (infinity k sign)
    else if a.cls = .zero ∨ b.cls = .zero then some (zero k sign)
    else
      let P := mul128 a.sigHi a.sigLo b.sigHi b.sigLo
      let exp := a.exponent + b.exponent
      if getBit P 255 then roundNormal k sign (exp + 1) P false
      else roundNormal k sign exp (shl P 1) false

/-- One bit of the long division, from the quotient and remainder so far. -/
def divStep (N D : List (BitVec 64)) (i : ℕ) (Q R : List (BitVec 64)) :
    List (BitVec 64) × List (BitVec 64) :=
  let R := Limbs.shl1 R 0#64
  let R := if getBit N i then R.modify 0 (· ||| 1#64) else R
  if geq R D then (setBit Q i, subFrom R D) else (Q, R)

def divLoop (N D : List (BitVec 64)) : ℕ → List (BitVec 64) → List (BitVec 64) →
    List (BitVec 64) × List (BitVec 64)
  | 0, Q, R => (Q, R)
  | i + 1, Q, R => divLoop N D i (divStep N D i Q R).1 (divStep N D i Q R).2

def div (a b : WideFloatValue) : Option WideFloatValue :=
  if a.kind ≠ b.kind ∨ isSupportedKind a.kind = false then none
  else
    let k := a.kind
    let sign := a.sign ^^ b.sign
    if a.cls = .nan ∨ b.cls = .nan then some (nan k)
    else if a.cls = .infinity then
      if b.cls = .infinity then some (nan k) else some (infinity k sign)
    else if b.cls = .infinity then some (zero k sign)
    else if b.cls = .zero then
      if a.cls = .zero then some (nan k) else some (infinity k sign)
    else if a.cls = .zero then some (zero k sign)
    else
      let QR := divLoop [0#64, 0#64, a.sigLo, a.sigHi] [b.sigLo, b.sigHi, 0#64, 0#64] 256
        [0#64, 0#64, 0#64, 0#64] [0#64, 0#64, 0#64, 0#64]
      let sticky := !isZeroReg QR.2
      let shiftLeft := 255 - highestSetBit QR.1
      roundNormal k sign (a.exponent - b.exponent + 127 - shiftLeft) (shl QR.1 shiftLeft) sticky

end WideFloatValue

end DssPrime
