import SchemaLang.Token.Scan

/-!
# The token stream of a text

* `Lexer` is what is left of a text, with the offset of what is left and whether an operand has just
  ended.
* `Lexer.next` cuts off one token; at the end of the text it answers with the end again and again.
* `tokenize` gives all tokens, the end last, and all faults.

Main statements: `Lexer.length_next` (a step before the end gets nearer to it) and
`tokens_eq` (the stream is the next token and the stream behind it).
-/

set_option autoImplicit false

namespace SchemaLang

structure Lexer where
  rest : List Char
  offset : Nat
  afterOperand : Bool

/-- One token, the faults in it, and the lexer behind it. -/
structure LexStep where
  token : Token
  faults : List Fault
  lexer : Lexer

namespace Lexer

def ofText (text : String) : Lexer := ⟨text.toList, 0, false⟩

/-- The step over a lexeme. Hidden tokens do not end an operand, nor do they start one. -/
def stepOver (l : Lexer) (x : Lexeme) : LexStep :=
  let stop := l.offset + x.text.length
  { token := ⟨x.kind, String.ofList x.text, l.offset, stop⟩
    faults := x.faults.map (·.shift l.offset)
    lexer := ⟨x.rest, stop, if x.kind.isTrivia then l.afterOperand else x.kind.endsOperand⟩ }

def next (l : Lexer) : LexStep :=
  match l.rest with
  | [] => ⟨Token.atEnd l.offset, [], l⟩
  | c :: cs => l.stepOver (Lexeme.scan l.afterOperand c cs)

theorem length_next (l : Lexer) (h : l.rest ≠ []) :
    l.next.lexer.rest.length < l.rest.length := by
  unfold next
  cases hr : l.rest with
  | nil => exact absurd hr h
  | cons c cs => exact Lexeme.length_rest_scan l.afterOperand c cs

/-- All steps from here to the end of the text. -/
def steps (l : Lexer) : List LexStep :=
  let s := l.next
  if _h : l.rest = [] then [s] else s :: steps s.lexer
termination_by l.rest.length
decreasing_by exact length_next l _h

def tokens (l : Lexer) : List Token := l.steps.map (·.token)

theorem tokens_eq (l : Lexer) :
    l.tokens = l.next.token :: if l.rest = [] then [] else l.next.lexer.tokens := by
  unfold tokens
  rw [steps]
  split <;> simp_all

end Lexer

/-- The tokens of a text, hidden ones too, and its faults. -/
def tokenize (text : String) : List Token × List Fault :=
  let steps := (Lexer.ofText text).steps
  (steps.map (·.token), steps.flatMap (·.faults))

end SchemaLang
