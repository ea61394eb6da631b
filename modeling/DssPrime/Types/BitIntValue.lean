import Mathlib
import DssPrime.Bits.Limbs

/-!
# `_BitInt` values

The host value type of a `_BitInt(N)` constant: little-endian 64-bit limbs with a declared
width and signedness.  Every operation converts its operands to the result type `(W, S)`
first, works on the limbs, and ends in the wrap that masks or sign-extends the top limb.

Widths are the source's `uint32_t`, written as naturals; the one place where their
arithmetic can wrap is the rounding up to whole limbs (`limbsFor`).
-/

namespace DssPrime

inductive BitIntPadding where
  | zeros
  | ones
  deriving DecidableEq

def bitIntPadding (isSigned signBitSet : Bool) : BitIntPadding :=
  if isSigned && signBitSet then .ones else .zeros

/-- A value of a bit-precise type. -/
structure BitIntValue where
  limbs : List (BitVec 64)
  width : ℕ
  isSigned : Bool

namespace BitIntValue

def limbsFor (width : ℕ) : ℕ :=
  let n := (width + 63) % 2 ^ 32 / 64
  if n = 0 then 1 else n

def declared (width : ℕ) : ℕ := if width = 0 then 1 else width

/-- Bit `bit` of a limb list; a missing limb reads as zero. -/
def getBit (v : List (BitVec 64)) (bit : ℕ) : Bool :=
  if v.length ≤ bit / 64 then false
  else ((v.getD (bit / 64) 0#64 >>> (bit % 64)) &&& 1#64) != 0#64

def setBit (v : List (BitVec 64)) (bit : ℕ) : List (BitVec 64) :=
  if bit / 64 < v.length then v.modify (bit / 64) (· ||| (1#64 <<< (bit % 64))) else v

def signBitSet (v : BitIntValue) : Bool :=
  if v.width = 0 then false else getBit v.limbs (v.width - 1)

def isNegative (v : BitIntValue) : Bool := v.isSigned && v.signBitSet

def isZero (v : BitIntValue) : Bool := v.limbs.all (· == 0#64)

def signFill (v : BitIntValue) : BitVec 64 :=
  if v.isSigned && v.isNegative then BitVec.allOnes 64 else 0#64

def maskTopLimb (limbs : List (BitVec 64)) (width : ℕ) (isSigned : Bool) : List (BitVec 64) :=
  if limbs = [] then limbs
  else
    let hb := (width - 1) % 64 + 1
    if hb = 64 then limbs
    else
      let mask := (1#64 <<< hb) - 1#64
      let top := limbs.getD (limbs.length - 1) 0#64
      let topBit := ((top >>> (hb - 1)) &&& 1#64) != 0#64
      limbs.set (limbs.length - 1)
        (if bitIntPadding isSigned topBit = .ones then top ||| ~~~mask else top &&& mask)

def extendedLimbs (v : BitIntValue) (nOut : ℕ) : List (BitVec 64) :=
  (List.range nOut).map fun i => if i < v.limbs.length then v.limbs.getD i 0#64 else v.signFill

/-- `std::vector::resize`: cuts the tail off or appends copies of `fill`. -/
def resize (limbs : List (BitVec 64)) (n : ℕ) (fill : BitVec 64) : List (BitVec 64) :=
  limbs.take n ++ List.replicate (n - limbs.length) fill

/-- Re-establishes the representation at a width and signedness: the limbs are resized,
growing with the current sign, and the top one is masked. -/
def wrapTo (v : BitIntValue) (width : ℕ) (isSigned : Bool) : BitIntValue :=
  { limbs := maskTopLimb (resize v.limbs (limbsFor width) v.signFill) (declared width) isSigned
    width := declared width
    isSigned := isSigned }

/-- The conversion to a type: extended under the current signedness, then masked under the
new one. -/
def convertTo (v : BitIntValue) (newWidth : ℕ) (newSigned : Bool) : BitIntValue :=
  { limbs := maskTopLimb (v.extendedLimbs (limbsFor newWidth)) (declared newWidth) newSigned
    width := declared newWidth
    isSigned := newSigned }

def withType (v : BitIntValue) (newWidth : ℕ) (newSigned : Bool) : BitIntValue :=
  v.convertTo newWidth newSigned

def empty : BitIntValue := ⟨[0#64], 1, false⟩

def ofLimbs (limbs : List (BitVec 64)) (width : ℕ) (isSigned : Bool) : BitIntValue :=
  wrapTo ⟨limbs, declared width, isSigned⟩ (declared width) isSigned

def fromI64 (v : BitVec 64) (width : ℕ) (isSigned : Bool) : BitIntValue :=
  convertTo ⟨[v], 64, true⟩ width isSigned

def fromU64 (v : BitVec 64) (width : ℕ) (isSigned : Bool) : BitIntValue :=
  convertTo ⟨[v], 64, false⟩ width isSigned

/-- The shifts it takes to clear a limb; 64 of them always do. -/
def topBits : ℕ → BitVec 64 → ℕ
  | 0, _ => 0
  | fuel + 1, v => if v = 0#64 then 0 else topBits fuel (v >>> 1) + 1

def bitLengthBelow (m : List (BitVec 64)) : ℕ → ℕ
  | 0 => 0
  | i + 1 =>
    if m.getD i 0#64 ≠ 0#64 then (i * 64 + topBits 64 (m.getD i 0#64)) % 2 ^ 32
    else bitLengthBelow m i

def bitLengthOf (m : List (BitVec 64)) : ℕ := bitLengthBelow m m.length

def literalWidth (magnitude : List (BitVec 64)) (isSigned : Bool) : ℕ :=
  let bits := bitLengthOf magnitude
  declared (if isSigned then (bits + 1) % 2 ^ 32 else declared bits)

def fromLiteralMagnitude (magnitude : List (BitVec 64)) (isSigned : Bool) : BitIntValue :=
  ofLimbs magnitude (literalWidth magnitude isSigned) isSigned

def putByte (bytes : List (BitVec 8)) (limbs : List (BitVec 64)) (i : ℕ) : List (BitVec 64) :=
  limbs.modify (i / 8) (· ||| ((bytes.getD i 0#8).setWidth 64 <<< (8 * (i % 8))))

def fromLimbBytes (bytes : List (BitVec 8)) (width : ℕ) (isSigned : Bool) : BitIntValue :=
  ofLimbs ((List.range bytes.length).foldl (putByte bytes)
    (List.replicate ((bytes.length + 7) / 8) 0#64)) width isSigned

def add (a b : BitIntValue) (W : ℕ) (S : Bool) : BitIntValue :=
  ofLimbs (Limbs.addCarry (a.withType W S).limbs (b.withType W S).limbs 0#64).1 W S

def sub (a b : BitIntValue) (W : ℕ) (S : Bool) : BitIntValue :=
  ofLimbs (Limbs.subBorrow (a.withType W S).limbs (b.withType W S).limbs 0#64).1 W S

/-- The schoolbook product over twice the limbs, cut to the low half. -/
def mul (a b : BitIntValue) (W : ℕ) (S : Bool) : BitIntValue :=
  let ca := a.withType W S
  let cb := b.withType W S
  let n := ca.limbs.length
  ofLimbs (resize (Limbs.mulRows ca.limbs cb.limbs (List.replicate (2 * n) 0#64)) n 0#64) W S

def bitwiseLimb (which : ℕ) (x y : BitVec 64) : BitVec 64 :=
  if which = 0 then x &&& y else if which = 1 then x ||| y else x ^^^ y

def bitwise (a b : BitIntValue) (W : ℕ) (S : Bool) (which : ℕ) : BitIntValue :=
  ofLimbs (List.zipWith (bitwiseLimb which) (a.withType W S).limbs (b.withType W S).limbs) W S

def bitAnd (a b : BitIntValue) (W : ℕ) (S : Bool) : BitIntValue := bitwise a b W S 0

def bitOr (a b : BitIntValue) (W : ℕ) (S : Bool) : BitIntValue := bitwise a b W S 1

def bitXor (a b : BitIntValue) (W : ℕ) (S : Bool) : BitIntValue := bitwise a b W S 2

/-- One turn of the left-shift loop: limb `i` goes to `i + limbShift`, and its overflow one
limb further. -/
def shlStep (limbs : List (BitVec 64)) (limbShift bitShift n : ℕ) (out : List (BitVec 64))
    (i : ℕ) : List (BitVec 64) :=
  let l := limbs.getD i 0#64
  let dst := i + limbShift
  if dst < n then
    let placed := out.modify dst (· ||| if bitShift = 0 then l else l <<< bitShift)
    if bitShift ≠ 0 ∧ dst + 1 < n then placed.modify (dst + 1) (· ||| l >>> (64 - bitShift))
    else placed
  else out

def shlBits (limbs : List (BitVec 64)) (c : ℕ) : List (BitVec 64) :=
  if c = 0 then limbs
  else
    let n := limbs.length
    (List.range n).foldl (shlStep limbs (c / 64) (c % 64) n) (List.replicate n 0#64)

def shrStep (limbs : List (BitVec 64)) (fill : BitVec 64) (limbShift bitShift n : ℕ)
    (out : List (BitVec 64)) (i : ℕ) : List (BitVec 64) :=
  if i < limbShift then out
  else
    let v := limbs.getD i 0#64
    let hi := if i + 1 < n then limbs.getD (i + 1) 0#64 else fill
    out.set (i - limbShift)
      (if bitShift ≠ 0 then (v >>> bitShift) ||| (hi <<< (64 - bitShift)) else v)

def shrBits (v : BitIntValue) (c : ℕ) (arith : Bool) : List (BitVec 64) :=
  if c = 0 then v.limbs
  else
    let fill := if arith && v.isNegative then BitVec.allOnes 64 else 0#64
    let n := v.limbs.length
    (List.range n).foldl (shrStep v.limbs fill (c / 64) (c % 64) n) (List.replicate n fill)

def shiftLeft (a : BitIntValue) (count W : ℕ) (S : Bool) : BitIntValue :=
  let r := a.withType W S
  if W ≤ count then wrapTo { r with limbs := List.replicate r.limbs.length 0#64 } W S
  else wrapTo { r with limbs := shlBits r.limbs count } W S

def shiftRight (a : BitIntValue) (count W : ℕ) (S : Bool) : BitIntValue :=
  let r := a.withType W S
  let c := if W ≤ count then (if W = 0 then 0 else W - 1) else count
  wrapTo { r with limbs := shrBits r c S } W S

def neg (a : BitIntValue) (W : ℕ) (S : Bool) : BitIntValue := sub (fromU64 0#64 W S) a W S

def bitNot (a : BitIntValue) (W : ℕ) (S : Bool) : BitIntValue :=
  let r := a.withType W S
  wrapTo { r with limbs := r.limbs.map (~~~ ·) } W S

/-- The unsigned three-way comparison, high limbs first. -/
def ucompare (a b : List (BitVec 64)) : Ordering :=
  Limbs.cmpBelow a b (if b.length < a.length then a.length else b.length)

def compare (a b : BitIntValue) (W : ℕ) (S : Bool) : Ordering :=
  let ca := a.withType W S
  let cb := b.withType W S
  if S && (ca.isNegative != cb.isNegative) then (if ca.isNegative then .lt else .gt)
  else ucompare ca.limbs cb.limbs

/-- One bit of the long division, from the quotient and remainder so far. -/
def udivmodStep (a b : List (BitVec 64)) (qr : List (BitVec 64) × List (BitVec 64)) (bit : ℕ) :
    List (BitVec 64) × List (BitVec 64) :=
  let r := Limbs.shl1 qr.2 0#64
  let r := if getBit a bit then r.modify 0 (· ||| 1#64) else r
  if ucompare r b ≠ .lt then (setBit qr.1 bit, (Limbs.subBorrow r b 0#64).1) else (qr.1, r)

/-- Unsigned binary long division. -/
def udivmod (a b : List (BitVec 64)) : List (BitVec 64) × List (BitVec 64) :=
  let n := if b.length < a.length then a.length else b.length
  (List.range (n * 64)).reverse.foldl (udivmodStep a b)
    (List.replicate n 0#64, List.replicate n 0#64)

def negatedMagnitude : List (BitVec 64) → BitVec 64 → List (BitVec 64)
  | [], _ => []
  | l :: ls, carry =>
    let t := ~~~l + carry
    t :: negatedMagnitude ls (if t < carry then 1#64 else 0#64)

/-- Division on magnitudes with the sign put back; none for a zero divisor. -/
def divRem (a b : BitIntValue) (W : ℕ) (S wantRem : Bool) : Option BitIntValue :=
  let ca := a.withType W S
  let cb := b.withType W S
  if cb.isZero then none
  else
    let sa := S && ca.isNegative
    let sb := S && cb.isNegative
    let ua := if sa then negatedMagnitude ca.limbs 1#64 else ca.limbs
    let ub := if sb then negatedMagnitude cb.limbs 1#64 else cb.limbs
    let qr := udivmod ua ub
    let mag := if wantRem then qr.2 else qr.1
    let negResult := if wantRem then sa else sa != sb
    some (if negResult then neg (ofLimbs mag W false) W S else ofLimbs mag W S)

def divide (a b : BitIntValue) (W : ℕ) (S : Bool) : Option BitIntValue := divRem a b W S false

def remainder (a b : BitIntValue) (W : ℕ) (S : Bool) : Option BitIntValue := divRem a b W S true

end BitIntValue

end DssPrime
