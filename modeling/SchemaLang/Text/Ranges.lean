/-!
# Tables of code points

A property of characters that no formula gives is a table of closed ranges of code points.
-/

set_option autoImplicit false

namespace SchemaLang.Text

/-- Whether one of the closed ranges holds the character. -/
def inRanges (table : Array (Nat × Nat)) (c : Char) : Bool :=
  table.any fun r => r.1 ≤ c.toNat && c.toNat ≤ r.2

end SchemaLang.Text
