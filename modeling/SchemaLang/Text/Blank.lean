/-!
# Blank characters and trimming

* `isBlank` is the Unicode property White_Space.
* `trimStart`, `trimEnd`, `trim` drop blanks from the ends of a list of characters.
* `dropEndWhile` is `List.dropWhile` from the other end.
-/

set_option autoImplicit false

namespace SchemaLang.Text

/-- Unicode White_Space. -/
def isBlank (c : Char) : Bool :=
  let n := c.toNat
  (0x09 ≤ n && n ≤ 0x0D) || n == 0x20 || n == 0x85 || n == 0xA0 || n == 0x1680 ||
    (0x2000 ≤ n && n ≤ 0x200A) || n == 0x2028 || n == 0x2029 || n == 0x202F || n == 0x205F ||
    n == 0x3000

/-- Drops the longest end all of whose members satisfy `p`. -/
def dropEndWhile {α : Type} (p : α → Bool) (l : List α) : List α :=
  (l.reverse.dropWhile p).reverse

def trimStart (cs : List Char) : List Char := cs.dropWhile isBlank

def trimEnd (cs : List Char) : List Char := dropEndWhile isBlank cs

def trim (cs : List Char) : List Char := trimEnd (trimStart cs)

/-- Every blank of the ASCII class is blank here. -/
theorem isBlank_of_isWhitespace {c : Char} (h : c.isWhitespace = true) : isBlank c = true := by
  simp only [Char.isWhitespace, Bool.or_eq_true, decide_eq_true_eq] at h
  rcases h with ((rfl | rfl) | rfl) | rfl <;> decide

theorem dropEndWhile_append_of_neg {α : Type} {p : α → Bool} {a : α} (l : List α)
    (h : p a = false) : dropEndWhile p (l ++ [a]) = l ++ [a] := by
  simp [dropEndWhile, h]

end SchemaLang.Text
