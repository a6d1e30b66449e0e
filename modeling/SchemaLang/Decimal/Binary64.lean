import SchemaLang.Decimal.Basic

/-!
# Double-precision numbers

A `Binary64` is the 64-bit word of an IEEE-754 number: a sign, eleven bits of exponent, fifty-two
bits of fraction. All arithmetic here is exact arithmetic on whole numbers.

* `significand` and `scale` decode a finite word: its magnitude is `significand * 2 ^ scale`.
* `lt` orders finite words by value, so the two zeros are equal.
* `ofDecimal?` is the nearest word, a tie going to the even significand; `none` if the nearest one
  would be infinite.
-/

set_option autoImplicit false

namespace SchemaLang

structure Binary64 where
  bits : UInt64
deriving DecidableEq, Repr

namespace Binary64

/-- The least word with the sign bit set. -/
def signBit : Nat := 0x8000000000000000

/-- The least word whose exponent field is one; the fraction lies below it. -/
def hiddenBit : Nat := 0x10000000000000

def isNegative (x : Binary64) : Bool := signBit ≤ x.bits.toNat

/-- The word without its sign bit. -/
def magnitude (x : Binary64) : Nat := x.bits.toNat % signBit

def exponentField (x : Binary64) : Nat := x.magnitude / hiddenBit

def fraction (x : Binary64) : Nat := x.magnitude % hiddenBit

def significand (x : Binary64) : Nat :=
  if x.exponentField = 0 then x.fraction else hiddenBit + x.fraction

def scale (x : Binary64) : Int :=
  if x.exponentField = 0 then -1074 else (x.exponentField : Int) - 1075

def isZero (x : Binary64) : Bool := x.magnitude == 0

/-- Words of one sign are ordered as their magnitudes. -/
def key (x : Binary64) : Int := if x.isNegative then -(x.magnitude : Int) else x.magnitude

def lt (x y : Binary64) : Bool := x.key < y.key

end Binary64

/-- `n / d` to the nearest whole number, a tie going to the even one. -/
def divRoundEven (n d : Nat) : Nat :=
  let q := n / d
  let r := n % d
  if d < 2 * r ∨ (2 * r = d ∧ q % 2 = 1) then q + 1 else q

/-- `n * 2 ^ k / d`, as a numerator and a denominator. -/
def scaledBy (n d : Nat) (k : Int) : Nat × Nat :=
  if 0 ≤ k then (n <<< k.toNat, d) else (n, d <<< (-k).toNat)

/-- The largest `k` with `2 ^ k ≤ n / d`, for positive `n` and `d`. -/
def floorLog2Ratio (n d : Nat) : Int :=
  let k : Int := (n.log2 : Int) - d.log2
  let (a, b) := scaledBy n d (-k)
  if b ≤ a then k else k - 1

/-- The number of decimal digits; zero has one. -/
def digitCount (n : Nat) : Nat := (Nat.toDigits 10 n).length

namespace Binary64

/-- Words from this one on are no finite magnitudes. -/
def infiniteMagnitude : Nat := 2047 * hiddenBit

/-- The magnitude nearest to `n / d`; it may be `infiniteMagnitude` or above. -/
def nearestMagnitude (n d : Nat) : Nat :=
  let scale : Int := max (-1074) (floorLog2Ratio n d - 52)
  let (a, b) := scaledBy n d (-scale)
  (scale + 1074).toNat * hiddenBit + divRoundEven a b

/-- Far above every finite magnitude or far below the least one, the power of ten is not
computed. -/
def decimalMagnitude? (coefficient : Nat) (exponent : Int) : Option Nat :=
  let top : Int := digitCount coefficient + exponent
  if coefficient = 0 ∨ top < -330 then some 0
  else if 310 < top then none
  else
    let m :=
      if 0 ≤ exponent then nearestMagnitude (coefficient * Nat.pow 10 exponent.toNat) 1
      else nearestMagnitude coefficient (Nat.pow 10 (-exponent).toNat)
    if m < infiniteMagnitude then some m else none

def ofDecimal? (x : Decimal) : Option Binary64 :=
  (decimalMagnitude? x.coefficient x.exponent).map fun m =>
    ⟨UInt64.ofNat (if x.negative then signBit + m else m)⟩

end Binary64

end SchemaLang
