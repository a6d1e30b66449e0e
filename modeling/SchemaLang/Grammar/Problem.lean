import SchemaLang.Grammar.Item

/-!
# Problems of grammar

A problem is a cause at a place. The places are a parameter, as in the schema tree.

* `Expected`, `Found` and `Enclosure` are the parts of causes that messages name.
* `Cause` is what is wrong.
-/

set_option autoImplicit false

namespace SchemaLang

/-- What should have stood at a place. -/
inductive Expected where
  | token (kind : TokenKind)
  | typeName
  | relationName
  | reverseName
  | functionName
  | memberName
  | aliasName
  | integerBound
  | numberBound
  | lengthBound
  | number
  | patternText
  | declarationBody
  | endOfComposition
deriving DecidableEq, Repr

/-- What stands at a place. -/
structure Found where
  kind : TokenKind
  text : String
deriving DecidableEq, Repr

def Item.found (t : Item) : Found := ⟨t.kind, t.text⟩

/-- What a pair of delimiters encloses. -/
inductive Enclosure where
  | parentheses
  | list
  | branch
  | index
  | arguments
  | bounds
  | enumValues
  | pattern
  | timestampFormat
  | vectorDimension
  | listElement
  | relationBody
  | typeBody (name : String)
deriving DecidableEq, Repr

/-- Something in the text that is not what it should be. -/
inductive Cause (σ : Type) where
  | unexpected (expected : Expected) (found : Found)
  /-- Something else stands where an open delimiter should be closed. -/
  | notClosed (closer : Symbol) (found : Found) (what : Enclosure) (opened : σ)
  /-- The text or the declaration ends inside delimiters. -/
  | unclosed (closer : Symbol) (what : Enclosure) (opened : σ)
  | bodyOnComposition
  | missingHeader (found : Found)
  | expectedExpression (found : Found)
  | invalidAlias (text : String)
  | derivedAliasReserved (path derived : String)
  | duplicateAlias (text : String) (first : σ)
  | importAfterDeclaration (path : String)
  | invalidQualifier (text : String)
  | invalidMultiplicity (found : Found)
  | tooFewEnumValues (count : Nat)
  | invalidInteger (literal : String)
  | invalidFloat (literal : String)
  | modifierOnDatatype (modifier : String)
  | reversedBounds (min max : String)
  | invalidDimension (literal : String)
  | expectedDatatype (found : Found)
  | expectedMember (found : Found)
  | expectedDeclaration (found : Found)
  | invalidRelationBody (found : Found)
  | reservedName (word : String)
  | datatypeDeclaration
deriving DecidableEq, Repr

structure Problem (σ : Type) where
  cause : Cause σ
  place : σ
deriving DecidableEq, Repr

variable {σ τ : Type}

def Cause.map (f : σ → τ) : Cause σ → Cause τ
  | .unexpected e t => .unexpected e t
  | .notClosed c t w o => .notClosed c t w (f o)
  | .unclosed c w o => .unclosed c w (f o)
  | .bodyOnComposition => .bodyOnComposition
  | .missingHeader t => .missingHeader t
  | .expectedExpression t => .expectedExpression t
  | .invalidAlias s => .invalidAlias s
  | .derivedAliasReserved p a => .derivedAliasReserved p a
  | .duplicateAlias s o => .duplicateAlias s (f o)
  | .importAfterDeclaration p => .importAfterDeclaration p
  | .invalidQualifier s => .invalidQualifier s
  | .invalidMultiplicity t => .invalidMultiplicity t
  | .tooFewEnumValues n => .tooFewEnumValues n
  | .invalidInteger s => .invalidInteger s
  | .invalidFloat s => .invalidFloat s
  | .modifierOnDatatype s => .modifierOnDatatype s
  | .reversedBounds a b => .reversedBounds a b
  | .invalidDimension s => .invalidDimension s
  | .expectedDatatype t => .expectedDatatype t
  | .expectedMember t => .expectedMember t
  | .expectedDeclaration t => .expectedDeclaration t
  | .invalidRelationBody t => .invalidRelationBody t
  | .reservedName s => .reservedName s
  | .datatypeDeclaration => .datatypeDeclaration

def Problem.map (f : σ → τ) (p : Problem σ) : Problem τ := ⟨p.cause.map f, f p.place⟩

end SchemaLang
