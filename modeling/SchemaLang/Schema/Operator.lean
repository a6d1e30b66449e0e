import SchemaLang.Token.Kind

/-!
# Operators of constraint expressions

* `UnaryOp` and `BinaryOp` are the operators of the tree, `BinaryClass` sorts the binary ones.
* `Precedence` orders binding strength; `operatorTable` gives each operator token its strength, the
  side on which equal operators group, and where it stands.
* `infixInfo?` and `prefixInfo?` look a token up, `rightLimit?` is the strength with which the operand on
  the right of an operator is read.
-/

set_option autoImplicit false

namespace SchemaLang

inductive UnaryOp where
  | negate | not
deriving DecidableEq, Repr

namespace UnaryOp

def ofToken? : TokenKind → Option UnaryOp
  | .symbol .minus => some negate
  | .symbol .bang => some not
  | _ => none

def symbol : UnaryOp → Symbol
  | negate => .minus
  | not => .bang

def text (op : UnaryOp) : String := op.symbol.text

def name : UnaryOp → String
  | negate => "Negate"
  | not => "Not"

end UnaryOp

inductive BinaryClass where
  | logical | equality | pattern | membership | comparison | arithmetic
deriving DecidableEq, Repr

def BinaryClass.name : BinaryClass → String
  | logical => "Logical"
  | equality => "Equality"
  | pattern => "Match"
  | membership => "Membership"
  | comparison => "Comparison"
  | arithmetic => "Arithmetic"

inductive BinaryOp where
  | or | xor | and | equal | notEqual | matchOp | notMatchOp | member
  | less | lessEqual | greater | greaterEqual
  | add | subtract | multiply | divide | modulo
deriving DecidableEq, Repr

namespace BinaryOp

def ofToken? : TokenKind → Option BinaryOp
  | .symbol .or => some or
  | .symbol .caret => some xor
  | .symbol .and => some and
  | .symbol .eq => some equal
  | .symbol .notEq => some notEqual
  | .symbol .matchOp => some matchOp
  | .symbol .notMatchOp => some notMatchOp
  | .keyword .inWord => some member
  | .symbol .lt => some less
  | .symbol .lte => some lessEqual
  | .symbol .gt => some greater
  | .symbol .gte => some greaterEqual
  | .symbol .plus => some add
  | .symbol .minus => some subtract
  | .symbol .asterisk => some multiply
  | .symbol .slash => some divide
  | .symbol .percent => some modulo
  | _ => none

/-- The token that writes the operator. -/
def token : BinaryOp → TokenKind
  | or => .symbol .or
  | xor => .symbol .caret
  | and => .symbol .and
  | equal => .symbol .eq
  | notEqual => .symbol .notEq
  | matchOp => .symbol .matchOp
  | notMatchOp => .symbol .notMatchOp
  | member => .keyword .inWord
  | less => .symbol .lt
  | lessEqual => .symbol .lte
  | greater => .symbol .gt
  | greaterEqual => .symbol .gte
  | add => .symbol .plus
  | subtract => .symbol .minus
  | multiply => .symbol .asterisk
  | divide => .symbol .slash
  | modulo => .symbol .percent

def text (op : BinaryOp) : String :=
  match op.token with
  | .symbol s => s.text
  | .keyword k => k.text
  | _ => ""

def name : BinaryOp → String
  | or => "Or"
  | xor => "Xor"
  | and => "And"
  | equal => "Equal"
  | notEqual => "NotEqual"
  | matchOp => "Match"
  | notMatchOp => "NotMatch"
  | member => "In"
  | less => "Less"
  | lessEqual => "LessEqual"
  | greater => "Greater"
  | greaterEqual => "GreaterEqual"
  | add => "Add"
  | subtract => "Subtract"
  | multiply => "Multiply"
  | divide => "Divide"
  | modulo => "Modulo"

def cls : BinaryOp → BinaryClass
  | or | xor | and => .logical
  | equal | notEqual => .equality
  | matchOp | notMatchOp => .pattern
  | member => .membership
  | less | lessEqual | greater | greaterEqual => .comparison
  | add | subtract | multiply | divide | modulo => .arithmetic

theorem ofToken?_token (op : BinaryOp) : ofToken? op.token = some op := by cases op <;> rfl

theorem token_of_ofToken? {k : TokenKind} {op : BinaryOp} (h : ofToken? k = some op) :
    op.token = k := by
  unfold ofToken? at h
  split at h <;> simp_all [token] <;> (cases h; rfl)

end BinaryOp

/-- Binding strength, the weakest first. -/
inductive Precedence where
  | lowest | ternary | logicalOr | logicalAnd | equality | pattern | membership | comparison | sum
  | product | unary | access
deriving DecidableEq, Repr

namespace Precedence

def rank : Precedence → Nat
  | lowest => 0
  | ternary => 1
  | logicalOr => 2
  | logicalAnd => 3
  | equality => 4
  | pattern => 5
  | membership => 6
  | comparison => 7
  | sum => 8
  | product => 9
  | unary => 10
  | access => 11

instance : LT Precedence := ⟨fun p q => p.rank < q.rank⟩

instance (p q : Precedence) : Decidable (p < q) := inferInstanceAs (Decidable (p.rank < q.rank))

/-- The next weaker strength; nothing is weaker than the lowest. -/
def below : Precedence → Precedence
  | lowest | ternary => lowest
  | logicalOr => ternary
  | logicalAnd => logicalOr
  | equality => logicalAnd
  | pattern => equality
  | membership => pattern
  | comparison => membership
  | sum => comparison
  | product => sum
  | unary => product
  | access => unary

def name : Precedence → String
  | lowest => "Lowest"
  | ternary => "Ternary"
  | logicalOr => "LogicalOr"
  | logicalAnd => "LogicalAnd"
  | equality => "Equals"
  | pattern => "Match"
  | membership => "Membership"
  | comparison => "LessGreater"
  | sum => "Sum"
  | product => "Product"
  | unary => "Prefix"
  | access => "Postfix"

theorem rank_below (p : Precedence) : p.below.rank = p.rank - 1 := by cases p <;> rfl

end Precedence

/-- The side on which operators of one strength group. -/
inductive Associativity where
  | left | right
deriving DecidableEq, Repr

def Associativity.name : Associativity → String
  | left => "Left"
  | right => "Right"

/-- Where an operator stands. -/
inductive Fixity where
  | before | between | behind
deriving DecidableEq, Repr

def Fixity.name : Fixity → String
  | before => "Prefix"
  | between => "Infix"
  | behind => "Postfix"

structure OperatorInfo where
  token : TokenKind
  precedence : Precedence
  associativity : Associativity
  fixity : Fixity

/-- The strength of each binary operator. -/
def BinaryOp.precedence : BinaryOp → Precedence
  | or | xor => .logicalOr
  | and => .logicalAnd
  | equal | notEqual => .equality
  | matchOp | notMatchOp => .pattern
  | member => .membership
  | less | lessEqual | greater | greaterEqual => .comparison
  | add | subtract => .sum
  | multiply | divide | modulo => .product

/-- What stands between or behind operands. Only the question mark groups to the right. -/
def infixInfo? (k : TokenKind) : Option OperatorInfo :=
  match k with
  | .symbol .question => some ⟨k, .ternary, .right, .between⟩
  | .symbol .dot | .symbol .lBracket | .symbol .arrow => some ⟨k, .access, .left, .behind⟩
  | _ => (BinaryOp.ofToken? k).map fun op => ⟨k, op.precedence, .left, .between⟩

/-- What stands before an operand. -/
def prefixInfo? (k : TokenKind) : Option OperatorInfo :=
  (UnaryOp.ofToken? k).map fun _ => ⟨k, .unary, .right, .before⟩

/-- How strongly a token binds what is on its left; the lowest strength if it is no operator. -/
def leftPrecedence (k : TokenKind) : Precedence :=
  match infixInfo? k with
  | some op => op.precedence
  | none => .lowest

/-- The strength with which the operand on the right of an operator is read: its own, or the next
weaker one if it groups to the right. -/
def rightLimit? (k : TokenKind) : Option Precedence :=
  (infixInfo? k).map fun op =>
    match op.associativity with
    | .left => op.precedence
    | .right => op.precedence.below

/-- The right operand of a binary operator holds only stronger operators. -/
theorem rightLimit?_token (op : BinaryOp) : rightLimit? op.token = some op.precedence := by
  cases op <;> rfl

theorem leftPrecedence_token (op : BinaryOp) : leftPrecedence op.token = op.precedence := by
  cases op <;> rfl

end SchemaLang
