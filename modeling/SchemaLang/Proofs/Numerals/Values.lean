import SchemaLang.Proofs.Floats.Range
import SchemaLang.Proofs.Floats.Texts
import SchemaLang.Proofs.Numerals.Longest
import SchemaLang.Proofs.WholeNumbers

/-!
# What numbers stand for

* `WrittenNumber.power` and `WrittenNumber.value`: the power of ten that is written behind a number, and the
  number with its fraction and that power.
* `WrittenNumber.Converts n`: each conversion takes the number, whatever its spelling, unless it is out of the
  range of what it is converted to.

Main statement: all numbers convert (`WrittenNumber.converts`).
-/

set_option autoImplicit false

namespace SchemaLang

open Binary64 (scaled)

namespace WrittenNumber

/-- No exponent stands for zero. -/
def power (n : WrittenNumber) : Int :=
  match n.exponent with
  | [] => 0
  | _ :: '-' :: ds => -(decimal ds : Int)
  | _ :: '+' :: ds => decimal ds
  | _ :: ds => decimal ds

/-- The digits behind the point. -/
def places (n : WrittenNumber) : List Char := n.fraction.drop 1

def value (n : WrittenNumber) : ℚ :=
  (decimal n.whole + decimal n.places / 10 ^ n.places.length) * 10 ^ n.power

structure Converts (n : WrittenNumber) (negative : Bool) : Prop where
  /-- A number with a sign. -/
  toInt : n.kind = .integerLit → readInt? negative n.text =
    if IsInt64 (signedDecimal negative n.whole) then some (signedDecimal negative n.whole) else none
  /-- A length. -/
  toNat : n.kind = .integerLit → readNat? wordLimit n.text =
    if decimal n.whole < wordLimit then some (decimal n.whole) else none
  toFloat : (Decimal.read? negative n.text).bind Binary64.ofDecimal? = none ↔ Binary64.overflow ≤ n.value

variable (n : WrittenNumber)

theorem exponent?_eq : exponent? n.exponent = some n.power := by
  obtain ⟨whole, fraction, exponent, hw, hf, he⟩ := n
  unfold power
  dsimp only
  cases he with
  | none => rfl
  | @mark e sign ds hmark hsign hlen hds =>
    have hcases := isSign_cases hsign hlen
    rw [exponent?_mark hmark hcases hds, natValue_eq_decimal]
    rcases hcases with rfl | rfl | rfl
    · obtain ⟨d, es, rfl⟩ := List.exists_cons_of_ne_nil hds.1
      have hminus : d ≠ '-' := ne_of_isDigit (hds.2 d (by simp)) rfl
      have hplus : d ≠ '+' := ne_of_isDigit (hds.2 d (by simp)) rfl
      simp [hminus, hplus]
    · rfl
    · rfl

/-- The digits before and behind the point are read as one whole number, at the place of the last one. -/
theorem scaled_eq_value :
    scaled (natValue (n.whole ++ n.places), n.power - n.places.length) = n.value := by
  have hten : (10 : ℚ) ^ n.places.length ≠ 0 := by positivity
  unfold scaled value
  rw [natValue_append, natValue_eq_decimal, natValue_eq_decimal, zpow_sub₀ (by norm_num), zpow_natCast]
  push_cast
  field_simp

theorem converts (negative : Bool) : n.Converts negative := by
  refine ⟨?_, ?_, ?_⟩
  · intro hk
    rw [text_of_kind hk, readInt?_of_isDigits n.isDigits_whole]
  · intro hk
    rw [text_of_kind hk, readNat?_of_isDigits n.isDigits_whole]
  · have hread := Decimal.read?_parts negative n.isDigits_whole n.isFraction n.isExponent
    rw [n.exponent?_eq, Option.map_some] at hread
    show (Decimal.read? negative (n.whole ++ (n.fraction ++ n.exponent))).bind _ = none ↔ _
    rw [hread, Option.bind_some, Binary64.ofDecimal?_eq_none_iff, ← n.scaled_eq_value]
    rfl

variable {n} (hk : n.kind = .integerLit)

include hk

/-- Digits that are not read with a sign are not in the range of 64 bits. -/
theorem not_isInt64_of_readInt? {negative : Bool} (h : readInt? negative n.text = none) :
    ¬ IsInt64 (signedDecimal negative n.whole) := by
  intro hin
  rw [(n.converts negative).toInt hk, if_pos hin] at h
  cases h

/-- Digits that are not read as a length are beyond all words. -/
theorem wordLimit_le_of_readNat? (h : readNat? wordLimit n.text = none) : wordLimit ≤ decimal n.whole := by
  apply Nat.le_of_not_lt
  intro hlt
  rw [(n.converts false).toNat hk, if_pos hlt] at h
  cases h

end WrittenNumber

end SchemaLang
