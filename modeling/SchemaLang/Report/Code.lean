/-!
# Error codes

* `fillSlots` writes values into the slots of a template, one after the other.
* `ErrorCode` is a code with its title, its message and its hint, both perhaps with slots.
* `ErrorCode.all` are the codes of lexical errors (E1xx) and syntax errors (E2xx).
-/

set_option autoImplicit false

namespace SchemaLang

/-- A slot of a template. -/
def slot : String := "\x7b\x7d"

/-- The characters of a template with the values in its slots. A slot without a value stays. -/
def fillSlotsFrom : List (List Char) → List Char → List Char
  | values, '\x7b' :: '\x7d' :: cs =>
    match values with
    | v :: vs => v ++ fillSlotsFrom vs cs
    | [] => '\x7b' :: '\x7d' :: fillSlotsFrom [] cs
  | values, c :: cs => c :: fillSlotsFrom values cs
  | _, [] => []

def fillSlots (template : String) (values : List String) : String :=
  String.ofList (fillSlotsFrom (values.map String.toList) template.toList)

/-- The part of the work in which an error is found. -/
inductive Phase where
  | lexical | syntactic
deriving DecidableEq, Repr

namespace Phase

def label : Phase → String
  | lexical => "Lexical error"
  | syntactic => "Syntax error"

def name : Phase → String
  | lexical => "Lexical"
  | syntactic => "Syntax"

end Phase

structure ErrorCode where
  code : String
  title : String
  phase : Phase
  message : String
  hint : Option String
deriving DecidableEq, Repr

namespace ErrorCode

def unterminatedString : ErrorCode :=
  ⟨"E101", "UNTERMINATED STRING", .lexical, "This string literal is never closed.",
    some "Strings end on the line they start on, with the quote that opened them."⟩

def unterminatedRegex : ErrorCode :=
  ⟨"E102", "UNTERMINATED REGEX", .lexical, "This regular expression is never closed.",
    some "Close the pattern with `/`; write a literal slash as `\\/`."⟩

def unterminatedComment : ErrorCode :=
  ⟨"E103", "UNTERMINATED COMMENT", .lexical, "This block comment is never closed.",
    some "Close it with `*/`. Block comments do not nest."⟩

def invalidEscape : ErrorCode :=
  ⟨"E104", "INVALID ESCAPE", .lexical, s!"Invalid escape sequence `{slot}`.",
    some "Valid escapes: \\b \\t \\n \\f \\r \\0 \\\" \\' \\\\ \\uXXXX \\xXX"⟩

def unexpectedCharacter : ErrorCode :=
  ⟨"E105", "UNEXPECTED CHARACTER", .lexical, s!"Unexpected character `{slot}`.", none⟩

def unexpectedToken : ErrorCode :=
  ⟨"E201", "UNEXPECTED TOKEN", .syntactic, s!"Expected {slot}, found {slot}.", none⟩

def missingHeader : ErrorCode :=
  ⟨"E202", "MISSING SCHEMA HEADER", .syntactic,
    s!"A schema file must start with a header, found {slot}.",
    some "Start the file with `schema \"Name\"`."⟩

def expectedExpression : ErrorCode :=
  ⟨"E203", "EXPECTED EXPRESSION", .syntactic, s!"Expected an expression, found {slot}.", none⟩

def invalidAlias : ErrorCode :=
  ⟨"E204", "INVALID ALIAS", .syntactic, s!"{slot} cannot be used as an import alias.",
    some "Aliases are plain names matching [A-Za-z][A-Za-z0-9_]* that are not keywords."⟩

def derivedAliasReserved : ErrorCode :=
  ⟨"E205", "ALIAS IS A KEYWORD", .syntactic,
    s!"The alias derived from \"{slot}\" is the keyword `{slot}`.",
    some s!"Give the import an explicit alias: import \"{slot}\" as <name>"⟩

def duplicateAlias : ErrorCode :=
  ⟨"E206", "DUPLICATE ALIAS", .syntactic,
    s!"Import alias `{slot}` is already used by another import.",
    some "Use `as` to give one of the imports a different alias."⟩

def importAfterDeclaration : ErrorCode :=
  ⟨"E207", "IMPORT AFTER DECLARATION", .syntactic,
    s!"Import of \"{slot}\" appears after a declaration.",
    some "Move all imports directly below the schema header."⟩

def invalidQualifier : ErrorCode :=
  ⟨"E208", "INVALID QUALIFIER", .syntactic, s!"`{slot}` is not a valid type qualifier.",
    some "Qualifiers are import aliases, e.g. `parts.Wheel`."⟩

def invalidMultiplicity : ErrorCode :=
  ⟨"E209", "INVALID MULTIPLICITY", .syntactic, s!"Expected a multiplicity, found {slot}.",
    some "Valid forms: (_), (_:one), (_:many), (one), (one:one), (one:many), (many)"⟩

def tooFewEnumValues : ErrorCode :=
  ⟨"E210", "ENUM NEEDS TWO VALUES", .syntactic,
    s!"An Enum needs at least two values, found {slot}.",
    some "Use Boolean or a constant String for a single choice."⟩

def invalidInteger : ErrorCode :=
  ⟨"E211", "INVALID INTEGER", .syntactic, s!"Could not parse `{slot}` as an integer.",
    some "Integers must fit in 64 bits."⟩

def invalidFloat : ErrorCode :=
  ⟨"E212", "INVALID FLOAT", .syntactic, s!"Could not parse `{slot}` as a float.", none⟩

def unclosedDelimiter : ErrorCode :=
  ⟨"E213", "UNCLOSED DELIMITER", .syntactic, s!"Missing {slot} to close {slot}.", none⟩

def modifierOnDatatype : ErrorCode :=
  ⟨"E214", "MODIFIER ON DATATYPE", .syntactic,
    s!"`{slot}` cannot be applied to a datatype declaration.",
    some "Only `type Name \x7b ... \x7d` declarations can be abstract or part."⟩

def invalidBounds : ErrorCode :=
  ⟨"E215", "INVALID BOUNDS", .syntactic,
    s!"Lower bound {slot} is greater than upper bound {slot}.",
    some "Swap the bounds or use `_` for an open end."⟩

def invalidDimension : ErrorCode :=
  ⟨"E216", "INVALID VECTOR DIMENSION", .syntactic,
    s!"Vector dimension must be a positive integer, found {slot}.",
    some "Write the dimension count, e.g. `Vector[768]`."⟩

def expectedDatatype : ErrorCode :=
  ⟨"E217", "EXPECTED DATATYPE", .syntactic, s!"Expected a datatype, found {slot}.",
    some "Use a built-in type such as String or Integer, or a declared datatype name."⟩

def expectedMember : ErrorCode :=
  ⟨"E218", "EXPECTED MEMBER", .syntactic, s!"Expected a type member, found {slot}.",
    some <| "A type body holds properties, `-->` associations, `*->` compositions " ++
      "and `!` invariants."⟩

def expectedDeclaration : ErrorCode :=
  ⟨"E219", "EXPECTED DECLARATION", .syntactic,
    s!"Expected a type or datatype declaration, found {slot}.", none⟩

def invalidRelationBody : ErrorCode :=
  ⟨"E220", "INVALID RELATION BODY", .syntactic,
    s!"Only properties may appear in a relation body, found {slot}.", none⟩

def reservedKeyword : ErrorCode :=
  ⟨"E221", "RESERVED KEYWORD", .syntactic, s!"`{slot}` is reserved and cannot be used here.", none⟩

def all : List ErrorCode :=
  [unterminatedString, unterminatedRegex, unterminatedComment, invalidEscape, unexpectedCharacter,
   unexpectedToken, missingHeader, expectedExpression, invalidAlias, derivedAliasReserved,
   duplicateAlias, importAfterDeclaration, invalidQualifier, invalidMultiplicity, tooFewEnumValues,
   invalidInteger, invalidFloat, unclosedDelimiter, modifierOnDatatype, invalidBounds,
   invalidDimension, expectedDatatype, expectedMember, expectedDeclaration, invalidRelationBody,
   reservedKeyword]

def find? (code : String) : Option ErrorCode := all.find? (·.code == code)

end ErrorCode

/-- A template without braces has no slots. -/
theorem fillSlotsFrom_of_plain (values : List (List Char)) {cs : List Char} (h : '\x7b' ∉ cs) :
    fillSlotsFrom values cs = cs := by
  induction cs with
  | nil => simp [fillSlotsFrom]
  | cons c cs ih =>
    simp only [List.mem_cons, not_or] at h
    rw [fillSlotsFrom, ih h.2]
    rintro _ rfl
    exact absurd rfl h.1

end SchemaLang
