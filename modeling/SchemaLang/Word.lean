/-!
# Sixty-four-bit whole numbers

Lines, columns, offsets and counts fit in 64 bits; what leaves the range comes in again at its other
end.

* `wordLimit` and `signedLimit` bound the whole numbers without a sign and those with one.
* `nextWord` and `wordsBetween` are the successor and the difference within the range.

Main statements: `nextWord_of_lt` and `wordsBetween_of_le` (where the result is in the range, these
are the successor and the difference of natural numbers).
-/

set_option autoImplicit false

namespace SchemaLang

/-- Two to the 64th: whole numbers below it fit in 64 bits. -/
def wordLimit : Nat := 0x10000000000000000

/-- Two to the 63rd: whole numbers below it fit in 64 bits beside a sign, and its negation does. -/
def signedLimit : Nat := 0x8000000000000000

/-- The largest number in the range. -/
def lastWord : Nat := wordLimit - 1

/-- The number behind `n`; zero is behind the last one. -/
def nextWord (n : Nat) : Nat := (n + 1) % wordLimit

/-- The steps from `m` up to `n`, by way of the last number if `n` is the smaller. -/
def wordsBetween (m n : Nat) : Nat := (wordLimit + n - m) % wordLimit

theorem nextWord_of_lt {n : Nat} (h : n < lastWord) : nextWord n = n + 1 := by
  unfold lastWord wordLimit at h
  unfold nextWord wordLimit
  omega

theorem wordsBetween_of_le {m n : Nat} (h : m ≤ n) (hn : n < wordLimit) :
    wordsBetween m n = n - m := by
  unfold wordLimit at hn
  unfold wordsBetween wordLimit
  omega

end SchemaLang
