import SchemaLang.Decimal.Binary64

/-!
# Shortest decimal texts of double-precision numbers

* `Binary64.interval` is the range of numbers that read back as the given magnitude, in quarters
  of the last place.
* `Binary64.shortest` is the coefficient and exponent with the fewest digits in that range, the
  nearest of those, and of two equally near ones the one that `Tie` names.
* `FloatLayout` says how such a result is written; `Binary64.write` writes it.
-/

set_option autoImplicit false

namespace SchemaLang

/-- Which of two equally near digits is taken. -/
inductive Tie where
  | up
  | even
deriving DecidableEq, Repr

namespace Binary64

/-- The lower end and the upper end of the numbers that read back as `m * 2 ^ e`, in units of
`2 ^ (e - 2)`, and whether the ends belong to them. Below a power of two the numbers stand twice as
dense. -/
def interval (x : Binary64) : Nat × Nat × Bool :=
  let m := x.significand
  (4 * m - (if x.fraction = 0 ∧ 1 < x.exponentField then 1 else 2), 4 * m + 2, m % 2 = 0)

/-- A magnitude as a fraction whose numerator is `4 * significand` times the first component and
whose denominator is the second. -/
def quarterUnit (x : Binary64) : Nat × Nat :=
  scaledBy 1 1 (x.scale - 2)

/-- The least `k` with `n / d < 10 ^ k`, for positive `n` and `d`. -/
def decimalPoint (n d : Nat) : Int :=
  if d ≤ n then digitCount (n / d) else 1 - (digitCount ((d + n - 1) / n - 1) : Int)

/-- The best of the two neighbours with `count` digits, if one of them reads back as `x`. -/
def onGrid? (x : Binary64) (tie : Tie) (point : Int) (count : Nat) : Option (Nat × Int) :=
  let (low, high, closed) := x.interval
  let (s, d) := x.quarterUnit
  let unit : Int := point - count
  -- All is compared after multiplication by the denominators of the grid and of `x`.
  let gridNum := if 0 ≤ unit then Nat.pow 10 unit.toNat else 1
  let gridDen := if 0 ≤ unit then 1 else Nat.pow 10 (-unit).toNat
  let value := 4 * x.significand * s * gridDen
  let step := gridNum * d
  let c := value / step
  let inside (k : Nat) : Bool :=
    let w := k * step
    let lo := low * s * gridDen
    let hi := high * s * gridDen
    if closed then lo ≤ w && w ≤ hi else lo < w && w < hi
  let below := value - c * step
  let above := (c + 1) * step - value
  match inside c, inside (c + 1) with
  | true, true =>
    let upper : Bool := above < below || (above == below && (tie == .up || c % 2 == 1))
    some (if upper then c + 1 else c, unit)
  | true, false => some (c, unit)
  | false, true => some (c + 1, unit)
  | false, false => none

/-- Without the zeros at the end of the coefficient. -/
def dropZeros : Nat → Nat × Int → Nat × Int
  | 0, r => r
  | k + 1, (c, e) => if c % 10 = 0 ∧ c ≠ 0 then dropZeros k (c / 10, e + 1) else (c, e)

/-- Seventeen digits always suffice. -/
def shortest (x : Binary64) (tie : Tie) : Nat × Int :=
  let (s, d) := x.quarterUnit
  let point := decimalPoint (4 * x.significand * s) d
  match (List.range 17).findSome? fun i => x.onGrid? tie point (i + 1) with
  | some r => dropZeros 17 r
  | none => (0, 0)

end Binary64

/-- How a number with digits `d` and value `0.d * 10 ^ k` is written. -/
structure FloatLayout where
  /-- The least and the greatest `k` written without an exponent; all of them if absent. -/
  positional : Option (Int × Int)
  /-- Whether a whole number written without an exponent ends in `.0`. -/
  wholeMark : Bool
  /-- Whether a positive exponent has a sign. -/
  plusSign : Bool
  tie : Tie

namespace FloatLayout

/-- Digits with the decimal point after the first `k` of them; zeros fill the gap. -/
def placed (ds : List Char) (k : Int) (wholeMark : Bool) : List Char :=
  if k ≤ 0 then '0' :: '.' :: (List.replicate (-k).toNat '0' ++ ds)
  else if ds.length ≤ k.toNat then
    ds ++ List.replicate (k.toNat - ds.length) '0' ++ (if wholeMark then ['.', '0'] else [])
  else ds.take k.toNat ++ '.' :: ds.drop k.toNat

/-- One digit, the others after a point, and the power of ten. -/
def scientific (ds : List Char) (k : Int) (plusSign : Bool) : List Char :=
  let e := k - 1
  let sign := if e < 0 then ['-'] else if plusSign then ['+'] else []
  ds.take 1 ++ (if ds.length ≤ 1 then [] else '.' :: ds.drop 1) ++ 'e' :: sign ++
    Nat.toDigits 10 e.natAbs

def write (layout : FloatLayout) (x : Binary64) : List Char :=
  let sign := if x.isNegative then ['-'] else []
  if x.isZero then sign ++ '0' :: (if layout.wholeMark then ['.', '0'] else [])
  else
    let (c, e) := x.shortest layout.tie
    let ds := Nat.toDigits 10 c
    let k := e + ds.length
    let positional := match layout.positional with
      | none => true
      | some (least, greatest) => least ≤ k && k ≤ greatest
    sign ++ if positional then placed ds k layout.wholeMark else scientific ds k layout.plusSign

end FloatLayout

end SchemaLang
