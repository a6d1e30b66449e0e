import SchemaLang.Grammar.Datatype
import SchemaLang.Schema.Expr

/-!
# Rules for constraint expressions

An expression is an operand and then operators with their other operands, as long as the next
operator binds more strongly than a limit.

* `operand` reads what no operator stands before but prefix operators.
* `operatorTail` reads one operator behind an operand, and what belongs to it.
* `operators` repeats that while operators are strong enough.
* `expression` is the whole.

Operands hold expressions again. All rules here but the last take the rule for those, by limit, as
an argument; `expressionWithin` unrolls it as often as there are items left. Every level reads an
item, so that always suffices.
-/

set_option autoImplicit false

namespace SchemaLang.Rule

/-- The rule for expressions whose operators bind more strongly than a limit. -/
abbrev Within := Precedence → Rule (Expr Extent)

def isMemberName (k : TokenKind) : Bool := k == .upperWord || k.namesProperty

def isFunctionName (k : TokenKind) : Bool := k.isWord

def withoutDollars (s : String) : String := String.ofList (s.toList.dropWhile (· == '$'))

/-- The next item as a literal of the given value. -/
def literal (value : Literal) : Rule (Expr Extent) := do
  let i ← position
  let _ ← take
  return .literal value (.single i)

/-- `( expr )`; the place of the expression takes in the parentheses. -/
def grouped (expr : Within) : Rule (Expr Extent) := do
  let opened ← position
  let _ ← take
  let e ← expr .lowest
  close .rParen opened .parentheses
  return e.withPlace (← extentFrom opened)

/-- Further expressions, each behind a comma. A comma before the closing symbol ends them. -/
def furtherElements (expr : Within) (closer : Symbol) : Nat → Rule (List (Expr Extent))
  | 0 => return []
  | n + 1 => do
    if (← peekKind) = .symbol .comma then
      let _ ← take
      if (← peekKind) = .symbol closer then return []
      else
        let e ← expr .lowest
        return e :: (← furtherElements expr closer n)
    else return []

/-- Expressions between commas up to the closing symbol, behind the opening item. -/
def elements (expr : Within) (closer : Symbol) (opened : Nat) (what : Enclosure) :
    Rule (List (Expr Extent)) := do
  if (← peekKind) = .symbol closer then
    let _ ← take
    return []
  else
    let e ← expr .lowest
    let es ← furtherElements expr closer (← remaining)
    close closer opened what
    return e :: es

def list (expr : Within) : Rule (Expr Extent) := do
  let opened ← position
  let _ ← take
  let es ← elements expr .rBracket opened .list
  return .list es (← extentFrom opened)

/-- `{ expr }` -/
def branch (expr : Within) : Rule (Expr Extent) := do
  let opened ← position
  let _ ← expect (.symbol .lBrace)
  let e ← expr .lowest
  close .rBrace opened .branch
  return e

/-- `cond ? { expr } : { expr }` behind the question mark. -/
def ternary (expr : Within) (condition : Expr Extent) : Rule (Expr Extent) := do
  let thenBranch ← branch expr
  let _ ← expect (.symbol .colon)
  let elseBranch ← branch expr
  let read ← extentFrom ((← position) - 1)
  return .ternary condition thenBranch elseBranch (condition.place.merge read)

def member (object : Expr Extent) : Rule (Expr Extent) := do
  let name ← expectName isMemberName .memberName
  return .member object name (object.place.merge name.place)

/-- An index holds an expression at least. -/
def index (expr : Within) (object : Expr Extent) (opened : Nat) : Rule (Expr Extent) := do
  let es ← elements expr .rBracket opened .index
  let last := (← position) - 1
  if es.isEmpty then
    report (.expectedExpression ⟨.symbol .rBracket, Symbol.rBracket.text⟩) (.single last)
    giveUpBehind
  else
    return .index object es (object.place.merge (.single last))

/-- Further parameters, each behind a comma. -/
def furtherParams : Nat → Rule (List (Name Extent))
  | 0 => return []
  | n + 1 => do
    if (← peekKind) = .symbol .comma then
      let _ ← take
      let p ← expectName (· == .varWord) (.token .varWord)
      return ⟨withoutDollars p.text, p.place⟩ :: (← furtherParams n)
    else return []

/-- `|$a, $b|` behind the opening bar. -/
def params : Rule (List (Name Extent)) := do
  let p ← expectName (· == .varWord) (.token .varWord)
  let ps ← furtherParams (← remaining)
  let _ ← expect (.symbol .pipe)
  return ⟨withoutDollars p.text, p.place⟩ :: ps

def optionalArguments (expr : Within) : Rule (Option (List (Expr Extent))) := do
  if (← peekKind) = .symbol .lParen then
    let opened ← position
    let _ ← take
    return some (← elements expr .rParen opened .arguments)
  else return none

def optionalParams : Rule (Option (List (Name Extent))) := do
  if (← peekKind) = .symbol .pipe then
    let _ ← take
    return some (← params)
  else return none

def optionalBranch (expr : Within) : Rule (Option (Expr Extent)) := do
  if (← peekKind) = .symbol .lBrace then return some (← branch expr)
  else return none

/-- `subject -> function (args) |params| { body }` behind the arrow. -/
def pipeline (expr : Within) (subject : Expr Extent) : Rule (Expr Extent) := do
  let function ← expectName isFunctionName .functionName
  let args ← optionalArguments expr
  let ps ← optionalParams
  let body ← optionalBranch expr
  let last := (← position) - 1
  return .pipeline subject function args ps body (subject.place.merge (.single last))

/-- The operator that is next, and what belongs to it. -/
def operatorTail (expr : Within) (left : Expr Extent) : Rule (Expr Extent) := do
  let i ← position
  let t ← take
  match t.kind with
  | .symbol .question => ternary expr left
  | .symbol .dot => member left
  | .symbol .lBracket => index expr left i
  | .symbol .arrow => pipeline expr left
  | kind =>
    match BinaryOp.ofToken? kind with
    | some op =>
      let right ← expr op.precedence
      return .binary op left right (left.place.merge right.place)
    | none => return left

def operators (expr : Within) (limit : Precedence) : Nat → Expr Extent → Rule (Expr Extent)
  | 0, left => return left
  | n + 1, left => do
    if limit < leftPrecedence (← peekKind) then
      operators expr limit n (← operatorTail expr left)
    else return left

/-- A sign before an integer literal belongs to the literal; only postfix operators bind more
strongly. -/
def negativeInteger (expr : Within) (start : Nat) : Rule (Expr Extent) := do
  let v ← integerValue true
  let e := .literal (.integer v) (← extentFrom start)
  operators expr .unary (← remaining) e

def unary (expr : Within) (op : UnaryOp) : Rule (Expr Extent) := do
  let start ← position
  let _ ← take
  if op = .negate ∧ (← peekKind) = .integerLit then negativeInteger expr start
  else
    let e ← expr .unary
    return .unary op e (← extentFrom start)

def operand (expr : Within) : Rule (Expr Extent) := do
  let i ← position
  let t ← peek
  match t.kind with
  | .integerLit => return .literal (.integer (← integerValue false)) (.single i)
  | .floatLit => return .literal (.float (← floatValue false)) (.single i)
  | .stringLit => literal (.string (stringValue t.text))
  | .regexLit => literal (.regex (regexValue t.text))
  | .keyword .trueWord => literal (.boolean true)
  | .keyword .falseWord => literal (.boolean false)
  | .keyword .nilWord => literal .nil
  | .symbol .underscore => literal .nil
  | .varWord => return .dollar (withoutDollars (← take).text) (.single i)
  | .lowerWord => return .property (← take).text (.single i)
  | .upperWord => return .relation (← take).text (.single i)
  | .builtin kind =>
    let _ ← take
    return .datatype kind (.single i)
  | .symbol .bang => unary expr .not
  | .symbol .minus => unary expr .negate
  | .symbol .lParen => grouped expr
  | .symbol .lBracket => list expr
  | _ => reject .expectedExpression

def expressionWithin : Nat → Within
  | 0, _ => reject .expectedExpression
  | n + 1, limit => do
    let left ← operand (expressionWithin n)
    operators (expressionWithin n) limit (← remaining) left

/-- An expression with any operators. -/
def expression : Rule (Expr Extent) := do expressionWithin (← remaining) .lowest

end SchemaLang.Rule
