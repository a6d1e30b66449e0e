import SchemaLang.Text.Quoted
import SchemaLang.Token.Kind

/-!
# Tokens and lexical faults

A token is a stretch of the text with a kind. Offsets are code points, the end exclusive.
-/

set_option autoImplicit false

namespace SchemaLang

structure Token where
  kind : TokenKind
  text : String
  start : Nat
  stop : Nat
deriving DecidableEq, Repr

namespace Token

def atEnd (offset : Nat) : Token := ⟨.endOfText, "", offset, offset⟩

/-- Blanks and comments are hidden from the grammar. -/
def isHidden (t : Token) : Bool := t.kind.isTrivia

def length (t : Token) : Nat := t.stop - t.start

end Token

/-- What is wrong with a lexeme. -/
inductive FaultCause where
  | unterminatedString
  | unterminatedRegex
  | unterminatedComment
  | invalidEscape (sequence : String)
  | unexpectedCharacter (c : Char)
deriving DecidableEq, Repr

def FaultCause.message : FaultCause → String
  | .unterminatedString => "unterminated string literal"
  | .unterminatedRegex => "unterminated regular expression"
  | .unterminatedComment => "unterminated comment"
  | .invalidEscape sequence => s!"invalid escape sequence `{sequence}`"
  | .unexpectedCharacter c => s!"unexpected character `{c}`"

/-- A fault and where it lies. -/
structure Fault where
  cause : FaultCause
  start : Nat
  stop : Nat
deriving DecidableEq, Repr

/-- The same fault, further on in the text. -/
def Fault.shift (f : Fault) (n : Nat) : Fault := ⟨f.cause, f.start + n, f.stop + n⟩

end SchemaLang
