import SchemaLang.Word

/-!
# Decimal numbers as written

* `natValue` is the value of a run of decimal digits.
* `Decimal` is a signed coefficient times a power of ten.
* `Decimal.read?` reads `D+ ('.' D+)? ([eE] [+-]? D+)?`, where `D` is an ASCII digit.
* `readNat?` and `readInt?` read whole numbers that must lie in a range.
-/

set_option autoImplicit false

namespace SchemaLang

/-- The value of one decimal digit. -/
def digitValue (c : Char) : Nat := c.toNat - '0'.toNat

/-- The value of a run of decimal digits; the empty run is zero. -/
def natValue (cs : List Char) : Nat := cs.foldl (fun n c => 10 * n + digitValue c) 0

/-- `coefficient * 10 ^ exponent`, negated if `negative`. A negated zero keeps its sign. -/
structure Decimal where
  negative : Bool
  coefficient : Nat
  exponent : Int
deriving DecidableEq, Repr

namespace Decimal

/-- The exponent after `e`: an optional sign and at least one digit, with nothing behind it. -/
def readExponent? (cs : List Char) : Option Int :=
  let (negative, ds) := match cs with
    | '-' :: ds => (true, ds)
    | '+' :: ds => (false, ds)
    | ds => (false, ds)
  if ds.isEmpty || !ds.all Char.isDigit then none
  else some (if negative then -(natValue ds : Int) else (natValue ds : Int))

/-- An unsigned decimal; `none` for any other text. -/
def read? (negative : Bool) (cs : List Char) : Option Decimal :=
  let whole := cs.takeWhile Char.isDigit
  let rest := cs.dropWhile Char.isDigit
  let fraction := match rest with
    | '.' :: r => r.takeWhile Char.isDigit
    | _ => []
  let rest := match rest with
    | '.' :: r => if fraction.isEmpty then rest else r.dropWhile Char.isDigit
    | _ => rest
  let exponent? := match rest with
    | [] => some 0
    | c :: r => if c = 'e' ∨ c = 'E' then readExponent? r else none
  if whole.isEmpty then none
  else exponent?.map fun e => ⟨negative, natValue (whole ++ fraction), e - fraction.length⟩

end Decimal

/-- A whole number below `limit`, written in digits alone. -/
def readNat? (limit : Nat) (cs : List Char) : Option Nat :=
  if cs.isEmpty || !cs.all Char.isDigit || limit ≤ natValue cs then none else some (natValue cs)

/-- A whole number that fits in 64 bits with a sign; the sign is given beside the digits. -/
def readInt? (negative : Bool) (cs : List Char) : Option Int :=
  if negative then (readNat? (signedLimit + 1) cs).map fun n => -(n : Int)
  else (readNat? signedLimit cs).map fun n => (n : Int)

theorem readNat?_eq_some_iff {limit n : Nat} {cs : List Char} :
    readNat? limit cs = some n ↔
      cs ≠ [] ∧ cs.all Char.isDigit = true ∧ natValue cs = n ∧ n < limit := by
  unfold readNat?
  cases cs with
  | nil => simp
  | cons c cs =>
    by_cases hd : (c :: cs).all Char.isDigit = true
    · by_cases hl : limit ≤ natValue (c :: cs)
      · simp only [hd, hl]
        constructor
        · simp
        · rintro ⟨_, _, rfl, h⟩; omega
      · simp only [hd, hl]
        constructor
        · intro h; simp at h; subst h; simp; omega
        · rintro ⟨_, _, rfl, _⟩; simp
    · simp [hd]

end SchemaLang
