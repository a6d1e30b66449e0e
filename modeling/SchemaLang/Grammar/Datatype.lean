import SchemaLang.Grammar.Rule
import SchemaLang.Schema.Alias
import SchemaLang.Schema.Datatype

/-!
# Rules for references and datatypes

* `typeRef` is a type name, perhaps behind an alias and a point.
* `builtin` is a built-in datatype with its parameters; each kind has a rule of its own.
* `datatypeRef` is a built-in datatype or a reference.

`List<...>` holds a datatype again, so `builtin` takes the rule for elements as an argument, and
`datatypeRef` unrolls it as often as there are items left. Every level reads an item, so that always
suffices.
-/

set_option autoImplicit false

namespace SchemaLang.Rule

/-- An alias before a point is any word; one that no import can have is reported. -/
def qualifier : Rule (Name Extent) := do
  let name ← takeName
  if (checkAlias name.text).toBool then
    let _ ← take
    return name
  else
    report (.invalidQualifier name.text) name.place
    let _ ← take
    return name

def isUpperWord (k : TokenKind) : Bool := k == .upperWord

def typeRef : Rule (TypeRef Extent) := do
  let start ← position
  let kind ← peekKind
  if (← peekSecond) = .symbol .dot ∧ (kind.isWord || kind.isKeyword) = true then
    let q ← qualifier
    let name ← expectName isUpperWord .typeName
    return ⟨some q, name, ← extentFrom start⟩
  else if kind = .upperWord then
    let name ← takeName
    return ⟨none, name, ← extentFrom start⟩
  else reject (.unexpected .typeName)

/-- The next item, an integer literal, with its sign given. -/
def integerValue (negative : Bool) : Rule Int := do
  let t ← peek
  match readInt? negative t.text.toList with
  | some v =>
    let _ ← take
    return v
  | none =>
    report (.invalidInteger ((if negative then "-" else "") ++ t.text)) (.single (← position))
    giveUp

/-- The next item, a literal of digits alone. -/
def lengthValue : Rule Nat := do
  let t ← peek
  match readNat? wordLimit t.text.toList with
  | some v =>
    let _ ← take
    return v
  | none =>
    report (.invalidInteger t.text) (.single (← position))
    giveUp

/-- The next item, a number literal, with its sign given; it must not be beyond all floats. -/
def floatValue (negative : Bool) : Rule Binary64 := do
  let t ← peek
  match (Decimal.read? negative t.text.toList).bind Binary64.ofDecimal? with
  | some v =>
    let _ ← take
    return v
  | none =>
    report (.invalidFloat ((if negative then "-" else "") ++ t.text)) (.single (← position))
    giveUp

/-- A sign, if one is next; `true` is minus. -/
def isSign (k : TokenKind) : Bool := k == .symbol .minus || k == .symbol .plus

def isNumber (k : TokenKind) : Bool := k == .integerLit || k == .floatLit

def integerBound : Rule (Bound Int) := do
  let kind ← peekKind
  if kind = .symbol .underscore then
    let _ ← take
    return .unbounded
  else if kind = .integerLit then
    return .value (← integerValue false)
  else if isSign kind then
    let _ ← take
    if (← peekKind) = .integerLit then
      return .value (← integerValue (kind == .symbol .minus))
    else rejectBehind (.unexpected (.token .integerLit))
  else reject (.unexpected .integerBound)

def floatBound : Rule (Bound Binary64) := do
  let kind ← peekKind
  if kind = .symbol .underscore then
    let _ ← take
    return .unbounded
  else if isNumber kind then
    return .value (← floatValue false)
  else if isSign kind then
    let _ ← take
    if isNumber (← peekKind) then
      return .value (← floatValue (kind == .symbol .minus))
    else rejectBehind (.unexpected .number)
  else reject (.unexpected .numberBound)

def lengthBound : Rule (Bound Nat) := do
  let kind ← peekKind
  if kind = .symbol .underscore then
    let _ ← take
    return .unbounded
  else if kind = .integerLit then
    return .value (← lengthValue)
  else reject (.unexpected .lengthBound)

/-- Whether both bounds are there and the lower one is above the upper one. -/
def isReversed {α : Type} (less : α → α → Bool) (min max : Bound α) : Bool :=
  match min, max with
  | .value lo, .value hi => less hi lo
  | _, _ => false

/-- `[min, max]`, or nothing. Reversed bounds are reported and kept. -/
def optionalBounds {α : Type} (bound : Rule (Bound α)) (less : α → α → Bool) (write : α → String) :
    Rule (Bound α × Bound α) := do
  if (← peekKind) = .symbol .lBracket then
    let opened ← position
    let _ ← take
    let min ← bound
    let _ ← expect (.symbol .comma)
    let max ← bound
    close .rBracket opened .bounds
    if isReversed less min max then
      report (.reversedBounds (min.text write) (max.text write)) (← extentFrom opened)
    return (min, max)
  else return (.unbounded, .unbounded)

/-- The values of an enumeration up to the closing bracket. A comma may end them. -/
def enumValues (opened : Nat) : Nat → Rule (List String)
  | 0 => rejectBehind (.unexpected (.token .stringLit))
  | n + 1 => do
    if (← peekKind) = .symbol .rBracket then
      let _ ← take
      return []
    else
      let t ← expect .stringLit
      let value := stringValue t.text
      if (← peekKind) = .symbol .comma then
        let _ ← take
        return value :: (← enumValues opened n)
      else
        close .rBracket opened .enumValues
        return [value]

/-- The number of items from the next one on. -/
def remaining : Rule Nat := fun items i => ⟨some (items.size - i), i, []⟩

def enum (keyword : Nat) : Rule (Builtin Extent) := do
  let opened ← position
  let _ ← expect (.symbol .lBracket)
  let values ← enumValues opened (← remaining)
  if values.length < 2 then
    report (.tooFewEnumValues values.length) (← extentFrom keyword)
  return .enum values

/-- The text of a pattern, as a string or between slashes. -/
def patternText : Rule String := do
  let kind ← peekKind
  if kind = .stringLit then return stringValue (← take).text
  else if kind = .regexLit then return regexValue (← take).text
  else rejectBehind (.unexpected .patternText)

def pattern : Rule (Builtin Extent) := do
  let opened ← position
  let _ ← expect (.symbol .lBracket)
  let regex ← patternText
  if (← peekKind) = .symbol .comma then
    let _ ← take
    let flags ← expect .stringLit
    close .rBracket opened .pattern
    return .pattern regex (some (stringValue flags.text))
  else
    close .rBracket opened .pattern
    return .pattern regex none

def timestamp : Rule (Builtin Extent) := do
  if (← peekKind) = .symbol .lBracket then
    let opened ← position
    let _ ← take
    let format ← expect .stringLit
    close .rBracket opened .timestampFormat
    return .timestamp (some (stringValue format.text))
  else return .timestamp none

/-- A dimension is a positive number of 64 bits. -/
def vector : Rule (Builtin Extent) := do
  let opened ← position
  let _ ← expect (.symbol .lBracket)
  let t ← expect .integerLit
  match (readNat? wordLimit t.text.toList).filter (0 < ·) with
  | some dimensions =>
    close .rBracket opened .vectorDimension
    return .vector dimensions
  | none =>
    report (.invalidDimension t.text) (.single ((← position) - 1))
    giveUpBehind

def listType (element : Rule (DatatypeRef Extent)) : Rule (Builtin Extent) := do
  let opened ← position
  let _ ← expect (.symbol .lt)
  let e ← element
  close .gt opened .listElement
  let (min, max) ← optionalBounds lengthBound (fun a b => decide (a < b)) toString
  return .list e min max

/-- The parameters behind the keyword at `keyword`. -/
def builtinParameters (element : Rule (DatatypeRef Extent)) (keyword : Nat) :
    BuiltinKind → Rule (Builtin Extent)
  | .integer => do
    let (min, max) ← optionalBounds integerBound (fun a b => decide (a < b)) toString
    return .integer min max
  | .float => do
    let (min, max) ← optionalBounds floatBound Binary64.lt floatText
    return .float min max
  | .string => do
    let (min, max) ← optionalBounds lengthBound (fun a b => decide (a < b)) toString
    return .string min max
  | .boolean => return .boolean
  | .date => return .date
  | .uuid => return .uuid
  | .enum => enum keyword
  | .pattern => pattern
  | .timestamp => timestamp
  | .vector => vector
  | .list => listType element

/-- A built-in datatype whose keyword, of the given kind, is next. -/
def builtinOf (element : Rule (DatatypeRef Extent)) (kind : BuiltinKind) :
    Rule (PlacedBuiltin Extent) := do
  let keyword ← position
  let _ ← take
  let type ← builtinParameters element keyword kind
  return ⟨type, ← extentFrom keyword⟩

def datatypeRefWithin : Nat → Rule (DatatypeRef Extent)
  | 0 => reject .expectedDatatype
  | n + 1 => do
    match ← peekKind with
    | .builtin kind =>
      let b ← builtinOf (datatypeRefWithin n) kind
      return .builtin b.type b.place
    | .upperWord => return .named (← typeRef)
    | .lowerWord =>
      if (← peekSecond) = .symbol .dot then return .named (← typeRef)
      else reject .expectedDatatype
    | _ => reject .expectedDatatype

/-- A datatype where a property or a list element needs one. -/
def datatypeRef : Rule (DatatypeRef Extent) := do datatypeRefWithin (← remaining)

/-- A built-in datatype whose keyword, of the given kind, is next. -/
def builtin (kind : BuiltinKind) : Rule (PlacedBuiltin Extent) := builtinOf datatypeRef kind

end SchemaLang.Rule
