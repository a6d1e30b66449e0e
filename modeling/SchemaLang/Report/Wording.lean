import SchemaLang.Grammar.Problem
import SchemaLang.Report.Diagnostic
import SchemaLang.Schema.Alias

/-!
# What diagnostics say

* `Fault.diagnostic` words a lexical fault.
* `Problem.diagnostic` words a problem of grammar.
-/

set_option autoImplicit false

namespace SchemaLang

def FaultCause.diagnostic (cause : FaultCause) (span : Span) : Diagnostic :=
  match cause with
  | .unterminatedString => .ofCode .unterminatedString [] span
  | .unterminatedRegex => .ofCode .unterminatedRegex [] span
  | .unterminatedComment => .ofCode .unterminatedComment [] span
  | .invalidEscape sequence => .ofCode .invalidEscape [sequence] span
  | .unexpectedCharacter c => .ofCode .unexpectedCharacter [Text.shownAlone c] span

/-- A token is quoted if its text tells more than its kind. -/
def Found.describe (t : Found) : String :=
  match t.kind with
  | .upperWord | .lowerWord | .varWord | .integerLit | .floatLit | .stringLit | .regexLit
  | .invalid => s!"`{t.text}`"
  | kind => kind.describe

def Expected.describe : Expected → String
  | .token kind => kind.describe
  | .typeName => "a type name"
  | .relationName => "a relation name"
  | .reverseName => "a reverse relation name"
  | .functionName => "a function name"
  | .memberName => "a member name"
  | .aliasName => "an alias"
  | .integerBound => "an integer or `_`"
  | .numberBound => "a number or `_`"
  | .lengthBound => "a non-negative integer or `_`"
  | .number => "a number"
  | .patternText => "a pattern string"
  | .declarationBody => "`\x7b`, `=` or `extends`"
  | .endOfComposition => "end of composition"

def Enclosure.describe : Enclosure → String
  | .parentheses => "the parenthesized expression"
  | .list => "the list"
  | .branch => "the branch"
  | .index => "the index"
  | .arguments => "the arguments"
  | .bounds => "the bounds"
  | .enumValues => "the enum values"
  | .pattern => "the pattern"
  | .timestampFormat => "the timestamp format"
  | .vectorDimension => "the vector dimension"
  | .listElement => "the list element type"
  | .relationBody => "the relation body"
  | .typeBody name => s!"the body of `{name}`"

def Enclosure.openedHere (what : Enclosure) : String := s!"{what.describe} opened here"

def quotedSymbol (s : Symbol) : String := (TokenKind.symbol s).describe

def Problem.diagnostic (p : Problem Span) : Diagnostic :=
  match p.cause with
  | .unexpected expected found =>
    .ofCode .unexpectedToken [expected.describe, found.describe] p.place
  | .notClosed closer found what opened =>
    (Diagnostic.ofCode .unexpectedToken [quotedSymbol closer, found.describe] p.place).withHintAt
      what.openedHere opened
  | .unclosed closer what opened =>
    (Diagnostic.ofCode .unclosedDelimiter [quotedSymbol closer, what.describe] p.place).withHintAt
      what.openedHere opened
  | .bodyOnComposition =>
    (Diagnostic.ofCode .unexpectedToken
      [Expected.endOfComposition.describe, quotedSymbol .lBrace] p.place).withHelp
      "Only associations (`-->`) can carry edge properties."
  | .missingHeader found => .ofCode .missingHeader [found.describe] p.place
  | .expectedExpression found => .ofCode .expectedExpression [found.describe] p.place
  | .invalidAlias text =>
    (Diagnostic.ofCode .invalidAlias [s!"`{text}`"] p.place).withNote
      (AliasError.reservedKeyword text).message
  | .derivedAliasReserved path derived =>
    .ofCode .derivedAliasReserved [path, derived, path] p.place
  | .duplicateAlias text first =>
    -- The place of the first use comes before the advice.
    (({ Diagnostic.bare .duplicateAlias with
        span := some p.place
        message := some (fillSlots ErrorCode.duplicateAlias.message [text]) }).withHintAt
      "first used here" first).withHint "Use `as` to give one of the imports a different alias."
  | .importAfterDeclaration path => .ofCode .importAfterDeclaration [path] p.place
  | .invalidQualifier text => .ofCode .invalidQualifier [text] p.place
  | .invalidMultiplicity found => .ofCode .invalidMultiplicity [found.describe] p.place
  | .tooFewEnumValues count => .ofCode .tooFewEnumValues [toString count] p.place
  | .invalidInteger literal => .ofCode .invalidInteger [literal] p.place
  | .invalidFloat literal => .ofCode .invalidFloat [literal] p.place
  | .modifierOnDatatype modifier => .ofCode .modifierOnDatatype [modifier] p.place
  | .reversedBounds min max => .ofCode .invalidBounds [min, max] p.place
  | .invalidDimension literal => .ofCode .invalidDimension [literal] p.place
  | .expectedDatatype found => .ofCode .expectedDatatype [found.describe] p.place
  | .expectedMember found => .ofCode .expectedMember [found.describe] p.place
  | .expectedDeclaration found => .ofCode .expectedDeclaration [found.describe] p.place
  | .invalidRelationBody found => .ofCode .invalidRelationBody [found.describe] p.place
  | .reservedName word => .ofCode .reservedKeyword [word] p.place
  | .datatypeDeclaration =>
    (Diagnostic.ofCode .reservedKeyword ["datatype"] p.place).withHelp
      "Declare datatypes as `type Name = Builtin`."

end SchemaLang
