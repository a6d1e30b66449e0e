import SchemaLang.Grammar.Expr
import SchemaLang.Grammar.Recovery
import SchemaLang.Schema.Unit

/-!
# Rules for the members of types

* `property`, `association`, `composition` and `invariant` are the four kinds of members.
* `multiplicity` is how many targets a relation may have; `reverseEdge` is its other direction.
* `member` is any member, `typeBody` the members of a type up to the closing brace.
-/

set_option autoImplicit false

namespace SchemaLang.Rule

/-- The documentation before the next item. -/
def nextDoc : Rule (Option String) := fun items i => ⟨some (itemAt items i).doc, i, []⟩

def propertyModifier : Rule PropertyModifier := do
  match ← peekKind with
  | .keyword .primaryWord =>
    let _ ← take
    return .primary
  | .keyword .requiredWord =>
    let _ ← take
    return .required
  | _ => return .none

/-- A property whose name is next. -/
def property : Rule (Property Extent) := do
  let start ← position
  let doc ← nextDoc
  let name ← takeName
  let datatype ← datatypeRef
  let modifier ← propertyModifier
  return ⟨doc, name, datatype, modifier, ← extentFrom start⟩

def isRelationName (k : TokenKind) : Bool := k.isWord

/-- `:one` or `:many`, or nothing; `true` is many. -/
def cardinality : Rule Bool := do
  if (← peekKind) = .symbol .colon then
    let _ ← take
    match ← peekKind with
    | .keyword .oneWord =>
      let _ ← take
      return false
    | .keyword .manyWord =>
      let _ ← take
      return true
    | _ => rejectBehind .invalidMultiplicity
  else return false

/-- What stands in the parentheses of a multiplicity. -/
def multiplicityForm : Rule Multiplicity := do
  match ← peekKind with
  | .symbol .underscore =>
    let _ ← take
    return .of false (← cardinality)
  | .keyword .oneWord =>
    let _ ← take
    return .of true (← cardinality)
  | .keyword .manyWord =>
    let _ ← take
    return .of false true
  | _ => reject .invalidMultiplicity

/-- A multiplicity in parentheses; without one, one target may be there. -/
def multiplicity : Rule Multiplicity := do
  if (← peekKind) = .symbol .lParen then
    let _ ← take
    let m ← multiplicityForm
    if (← peekKind) = .symbol .rParen then
      let _ ← take
      return m
    else rejectBehind .invalidMultiplicity
  else return .optionalOne

/-- `/ name (mult)` behind the target of a relation. -/
def reverseEdge : Rule (Option (ReverseEdge Extent)) := do
  if (← peekKind) = .symbol .slash then
    let start ← position
    let _ ← take
    let name ← expectName isRelationName .reverseName
    let m ← multiplicity
    return some ⟨name, m, ← extentFrom start⟩
  else return none

/-- An entry of a relation body is a property. -/
def edgeProperty : Rule (Property Extent) := do
  if (← peekKind).namesProperty then property else reject .invalidRelationBody

/-- The edge properties of an association, if a brace is next. -/
def relationBody : Rule (Option (RelationBody Extent)) := do
  if (← peekKind) = .symbol .lBrace then
    let opened ← position
    let _ ← take
    let properties ← block edgeProperty .relationBody opened (← remaining)
    return some ⟨properties, ← extentFrom opened⟩
  else return none

/-- An association whose arrow is next. -/
def association : Rule (Association Extent) := do
  let start ← position
  let doc ← nextDoc
  let _ ← take
  let name ← expectName isRelationName .relationName
  let m ← multiplicity
  let target ← typeRef
  let reverse ← reverseEdge
  let body ← relationBody
  return ⟨doc, name, m, target, reverse, body, ← extentFrom start⟩

/-- A composition whose arrow is next. -/
def composition : Rule (Composition Extent) := do
  let start ← position
  let doc ← nextDoc
  let _ ← take
  let name ← expectName isRelationName .relationName
  let m ← multiplicity
  let target ← typeRef
  let reverse ← reverseEdge
  if (← peekKind) = .symbol .lBrace then rejectBehind fun _ => .bodyOnComposition
  else return ⟨doc, name, m, target, reverse, ← extentFrom start⟩

/-- `! "message" constraint`, with the mark next. -/
def invariant : Rule (Invariant Extent) := do
  let start ← position
  let _ ← take
  let message ← expect .stringLit
  let constraint ← expression
  return ⟨stringValue message.text, constraint, ← extentFrom start⟩

def typeMember : Rule (Member Extent) := do
  match ← peekKind with
  | .symbol .association => return .association (← association)
  | .symbol .composition => return .composition (← composition)
  | .symbol .bang => return .invariant (← invariant)
  | kind =>
    if kind.namesProperty then return .property (← property) else reject .expectedMember

/-- The members of the type `name` behind the brace at `opened`. -/
def typeBody (name : String) (opened : Nat) : Rule (List (Member Extent)) := do
  block typeMember (.typeBody name) opened (← remaining)

end SchemaLang.Rule
