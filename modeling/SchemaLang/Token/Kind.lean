/-!
# Kinds of tokens

* `Keyword`, `BuiltinKind` and `Symbol` are the words and signs with a fixed spelling.
* `TokenKind` is the kind of any token; `TokenKind.all` lists them in their order.
* `TokenKind.describe` is how a message names a kind, `TokenKind.name` how a listing does.
* `wordKind` classifies a word: a keyword if it is spelled as one, else by its first letter.
* `Symbol.leading?` is the longest symbol at the start of a text.
-/

set_option autoImplicit false

namespace SchemaLang

inductive Keyword where
  | schemaWord | importWord | asWord | typeWord | datatypeWord | requiredWord | primaryWord
  | extendsWord | includesWord | abstractWord | partWord | oneWord | manyWord | inWord | trueWord
  | falseWord | nilWord
deriving DecidableEq, Repr

namespace Keyword

def all : List Keyword :=
  [schemaWord, importWord, asWord, typeWord, datatypeWord, requiredWord, primaryWord, extendsWord,
   includesWord, abstractWord, partWord, oneWord, manyWord, inWord, trueWord, falseWord, nilWord]

def text : Keyword → String
  | schemaWord => "schema"
  | importWord => "import"
  | asWord => "as"
  | typeWord => "type"
  | datatypeWord => "datatype"
  | requiredWord => "required"
  | primaryWord => "primary"
  | extendsWord => "extends"
  | includesWord => "includes"
  | abstractWord => "abstract"
  | partWord => "part"
  | oneWord => "one"
  | manyWord => "many"
  | inWord => "in"
  | trueWord => "true"
  | falseWord => "false"
  | nilWord => "nil"

def name : Keyword → String
  | schemaWord => "Schema"
  | importWord => "Import"
  | asWord => "As"
  | typeWord => "Type"
  | datatypeWord => "Datatype"
  | requiredWord => "Required"
  | primaryWord => "Primary"
  | extendsWord => "Extends"
  | includesWord => "Includes"
  | abstractWord => "Abstract"
  | partWord => "Part"
  | oneWord => "One"
  | manyWord => "Many"
  | inWord => "In"
  | trueWord => "True"
  | falseWord => "False"
  | nilWord => "Nil"

/-- Keywords that may also name a property. -/
def namesProperty : Keyword → Bool
  | asWord | partWord | inWord | trueWord | falseWord | nilWord => false
  | _ => true

/-- Keywords that are values. -/
def isValue : Keyword → Bool
  | trueWord | falseWord | nilWord => true
  | _ => false

theorem mem_all (k : Keyword) : k ∈ all := by cases k <;> decide

end Keyword

/-- The built-in datatypes. -/
inductive BuiltinKind where
  | integer | float | boolean | string | enum | pattern | timestamp | vector | date | uuid | list
deriving DecidableEq, Repr

namespace BuiltinKind

def all : List BuiltinKind :=
  [integer, float, boolean, string, enum, pattern, timestamp, vector, date, uuid, list]

/-- The word that names the datatype in a schema. -/
def text : BuiltinKind → String
  | integer => "Integer"
  | float => "Float"
  | boolean => "Boolean"
  | string => "String"
  | enum => "Enum"
  | pattern => "Pattern"
  | timestamp => "Timestamp"
  | vector => "Vector"
  | date => "Date"
  | uuid => "UUID"
  | list => "List"

def name : BuiltinKind → String
  | uuid => "Uuid"
  | k => k.text

theorem mem_all (k : BuiltinKind) : k ∈ all := by cases k <;> decide

end BuiltinKind

inductive Symbol where
  | association | composition | arrow
  | plus | minus | asterisk | slash | percent
  | lt | lte | gt | gte | eq | notEq | matchOp | notMatchOp
  | bang | and | or | caret
  | assign | question | pipe | dot | comma | colon
  | lParen | rParen | lBracket | rBracket | lBrace | rBrace | underscore
deriving DecidableEq, Repr

namespace Symbol

def all : List Symbol :=
  [association, composition, arrow, plus, minus, asterisk, slash, percent, lt, lte, gt, gte, eq,
   notEq, matchOp, notMatchOp, bang, and, or, caret, assign, question, pipe, dot, comma, colon,
   lParen, rParen, lBracket, rBracket, lBrace, rBrace, underscore]

def chars : Symbol → List Char
  | association => ['-', '-', '>']
  | composition => ['*', '-', '>']
  | arrow => ['-', '>']
  | plus => ['+']
  | minus => ['-']
  | asterisk => ['*']
  | slash => ['/']
  | percent => ['%']
  | lt => ['<']
  | lte => ['<', '=']
  | gt => ['>']
  | gte => ['>', '=']
  | eq => ['=', '=']
  | notEq => ['!', '=']
  | matchOp => ['=', '~']
  | notMatchOp => ['!', '~']
  | bang => ['!']
  | and => ['&', '&']
  | or => ['|', '|']
  | caret => ['^']
  | assign => ['=']
  | question => ['?']
  | pipe => ['|']
  | dot => ['.']
  | comma => [',']
  | colon => [':']
  | lParen => ['(']
  | rParen => [')']
  | lBracket => ['[']
  | rBracket => [']']
  | lBrace => ['\x7b']
  | rBrace => ['\x7d']
  | underscore => ['_']

def text (s : Symbol) : String := String.ofList s.chars

def name : Symbol → String
  | association => "Association"
  | composition => "Composition"
  | arrow => "Arrow"
  | plus => "Plus"
  | minus => "Minus"
  | asterisk => "Asterisk"
  | slash => "Slash"
  | percent => "Percent"
  | lt => "Lt"
  | lte => "Lte"
  | gt => "Gt"
  | gte => "Gte"
  | eq => "Eq"
  | notEq => "NotEq"
  | matchOp => "Match"
  | notMatchOp => "NotMatch"
  | bang => "Bang"
  | and => "And"
  | or => "Or"
  | caret => "Caret"
  | assign => "Assign"
  | question => "Question"
  | pipe => "Pipe"
  | dot => "Dot"
  | comma => "Comma"
  | colon => "Colon"
  | lParen => "LParen"
  | rParen => "RParen"
  | lBracket => "LBracket"
  | rBracket => "RBracket"
  | lBrace => "LBrace"
  | rBrace => "RBrace"
  | underscore => "Underscore"

/-- The longest symbol at the start of a text. No symbol has more than three characters. -/
def leading? (cs : List Char) : Option Symbol :=
  [3, 2, 1].findSome? fun n => all.find? fun s => s.chars == cs.take n

theorem mem_all (s : Symbol) : s ∈ all := by cases s <;> decide

/-- A leading symbol is indeed at the start. -/
theorem chars_of_leading? {cs : List Char} {s : Symbol} (h : leading? cs = some s) :
    cs = s.chars ++ cs.drop s.chars.length := by
  obtain ⟨n, _, hn⟩ := List.exists_of_findSome?_eq_some h
  have hs : s.chars = cs.take n := by simpa using List.find?_some hn
  by_cases hl : n ≤ cs.length
  · rw [hs, List.length_take, Nat.min_eq_left hl, List.take_append_drop]
  · rw [hs, List.take_of_length_le (by omega)]; simp

end Symbol

inductive TokenKind where
  /-- A malformed stretch of text. -/
  | invalid
  | endOfText
  | blank
  | lineComment
  | docComment
  | upperWord
  | lowerWord
  /-- A word after a dollar sign. -/
  | varWord
  | integerLit
  | floatLit
  | stringLit
  | regexLit
  | keyword (k : Keyword)
  | builtin (b : BuiltinKind)
  | symbol (s : Symbol)
deriving DecidableEq, Repr

namespace TokenKind

def all : List TokenKind :=
  [invalid, endOfText, blank, lineComment, docComment, upperWord, lowerWord, varWord, integerLit,
   floatLit, stringLit, regexLit] ++ Keyword.all.map keyword ++ BuiltinKind.all.map builtin ++
  Symbol.all.map symbol

def name : TokenKind → String
  | invalid => "Error"
  | endOfText => "Eof"
  | blank => "Whitespace"
  | lineComment => "LineComment"
  | docComment => "DocComment"
  | upperWord => "UcWord"
  | lowerWord => "LcWord"
  | varWord => "Variable"
  | integerLit => "IntegerLiteral"
  | floatLit => "FloatLiteral"
  | stringLit => "StringLiteral"
  | regexLit => "RegexLiteral"
  | keyword k => k.name
  | builtin b => b.name ++ "Type"
  | symbol s => s.name

def ofName? (s : String) : Option TokenKind := all.find? (·.name == s)

/-- How a message names any token of this kind. -/
def describe : TokenKind → String
  | invalid => "invalid token"
  | endOfText => "end of file"
  | blank => "whitespace"
  | lineComment => "comment"
  | docComment => "doc comment"
  | upperWord => "uppercase name"
  | lowerWord => "lowercase name"
  | varWord => "variable"
  | integerLit => "integer"
  | floatLit => "float"
  | stringLit => "string"
  | regexLit => "regex"
  | keyword k => s!"`{k.text}`"
  | builtin b => s!"`{b.text}`"
  | symbol s => s!"`{s.text}`"

def isKeyword : TokenKind → Bool
  | keyword _ | builtin _ => true
  | _ => false

def isBuiltin : TokenKind → Bool
  | builtin _ => true
  | _ => false

def isWord : TokenKind → Bool
  | upperWord | lowerWord => true
  | _ => false

/-- Tokens that the grammar never sees. -/
def isTrivia : TokenKind → Bool
  | blank | lineComment | docComment => true
  | _ => false

/-- Whether an operand can end in such a token. A slash behind it divides or separates; behind any
other token it opens a regular expression. -/
def endsOperand : TokenKind → Bool
  | upperWord | lowerWord | varWord | integerLit | floatLit | stringLit | regexLit => true
  | keyword k => k.isValue
  | builtin _ => true
  | symbol .underscore | symbol .rParen | symbol .rBracket | symbol .rBrace => true
  | _ => false

/-- Lower-case words and some keywords name properties. -/
def namesProperty : TokenKind → Bool
  | lowerWord => true
  | keyword k => k.namesProperty
  | _ => false

theorem mem_all (k : TokenKind) : k ∈ all := by
  cases k <;> simp [all, Keyword.mem_all, BuiltinKind.mem_all, Symbol.mem_all]

end TokenKind

/-- The keyword or built-in datatype that a word spells. -/
def keyword? (word : String) : Option TokenKind :=
  match Keyword.all.find? (·.text == word) with
  | some k => some (.keyword k)
  | none => (BuiltinKind.all.find? (·.text == word)).map .builtin

/-- The kind of a word. -/
def wordKind (word : String) : TokenKind :=
  match keyword? word with
  | some k => k
  | none => if (word.toList.head?.map Char.isUpper).getD false then .upperWord else .lowerWord

end SchemaLang
