import SchemaLang.Text.Lines
import SchemaLang.Token.Escape

/-!
# What literal tokens and comments mean

* `stringValue` drops the quotes of a string literal and decodes its escapes.
* `regexValue` drops the slashes around a regular expression and the backslash before each slash in
  it.
* `docText` drops the marks of a block comment: its ends, the asterisk that starts a line with one
  space behind it, and blank lines at the top and the bottom.
-/

set_option autoImplicit false

namespace SchemaLang

/-- Without the first and the last character. -/
def inner (cs : List Char) : List Char := (cs.drop 1).dropLast

def stringValue (raw : String) : String := String.ofList (unescape (inner raw.toList)).value

/-- A slash for each backslash before a slash. -/
def unescapeSlashes : List Char → List Char
  | '\\' :: '/' :: cs => '/' :: unescapeSlashes cs
  | c :: cs => c :: unescapeSlashes cs
  | [] => []

/-- The inside of slashes; a text not between two slashes is its own inside. -/
def betweenSlashes (cs : List Char) : List Char :=
  match cs with
  | '/' :: r => if r.getLast? = some '/' then r.dropLast else cs
  | _ => cs

def regexValue (raw : String) : String :=
  String.ofList (unescapeSlashes (betweenSlashes raw.toList))

/-- Without the opening, the closing and the asterisks after the opening, as far as they are there. -/
def commentBody (raw : List Char) : List Char :=
  let body := match raw with
    | '/' :: '*' :: r => r
    | _ => raw
  let body := if ['*', '/'].isSuffixOf body then body.take (body.length - 2) else body
  body.dropWhile (· == '*')

/-- Without one leading `p`, if there is one. -/
def dropOne (p : Char) (cs : List Char) : List Char :=
  match cs with
  | c :: r => if c = p then r else cs
  | [] => []

/-- One line of a comment without blanks around it and without its gutter. -/
def gutterless (line : List Char) : List Char :=
  Text.trimEnd (dropOne ' ' (dropOne '*' (Text.trim line)))

def docText (raw : String) : String :=
  let ls := (Text.lines (commentBody raw.toList)).map gutterless
  String.ofList (Text.joinLines (Text.dropEndWhile List.isEmpty (ls.dropWhile List.isEmpty)))

end SchemaLang
