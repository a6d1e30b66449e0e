import SchemaLang.Text.Blank

/-!
# Lines of a text

* `pieces` cuts a text at every newline; a text with `n` newlines has `n + 1` pieces.
* `lines` are the lines a reader counts: the empty piece after a final newline is no line, and a
  carriage return directly before a newline belongs to the line end.
* `joinLines` puts newlines between texts.
-/

set_option autoImplicit false

namespace SchemaLang.Text

/-- The stretches between newlines. -/
def pieces : List Char → List (List Char)
  | [] => [[]]
  | c :: cs =>
    if c = '\n' then [] :: pieces cs
    else match pieces cs with
      | [] => [[c]]
      | p :: ps => (c :: p) :: ps

/-- Without one carriage return at the end, if there is one. -/
def dropReturn (cs : List Char) : List Char :=
  if cs.getLast? = some '\r' then cs.dropLast else cs

/-- Lines without their ends. Only a line that a newline ends loses a carriage return. -/
def lines (cs : List Char) : List (List Char) :=
  let ps := pieces cs
  ps.dropLast.map dropReturn ++ (ps.getLast?.toList.filter (!·.isEmpty))

def joinLines : List (List Char) → List Char
  | [] => []
  | [l] => l
  | l :: ls => l ++ '\n' :: joinLines ls

theorem pieces_ne_nil (cs : List Char) : pieces cs ≠ [] := by
  cases cs with
  | nil => simp [pieces]
  | cons c cs =>
    unfold pieces
    split
    · simp
    · split <;> simp

/-- Cutting loses only the newlines. -/
theorem joinLines_pieces (cs : List Char) : joinLines (pieces cs) = cs := by
  induction cs with
  | nil => rfl
  | cons c cs ih =>
    cases hp : pieces cs with
    | nil => exact absurd hp (pieces_ne_nil cs)
    | cons p ps =>
      rw [hp] at ih
      by_cases hc : c = '\n'
      · simp [pieces, hc, hp, joinLines, ih]
      · cases ps <;> simp_all [pieces, joinLines]

end SchemaLang.Text
