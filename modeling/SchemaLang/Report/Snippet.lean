import SchemaLang.Report.Diagnostic
import SchemaLang.Text.Lines

/-!
# Source snippets

A snippet shows the lines of a span, each with carets below the part that the span covers.

* `commentStart?` is the column where a comment starts in a line, outside of quotes.
* `displayedLine` is a line without the comment at its end, unless the marked columns reach into it.
* `snippet` is the whole picture.
-/

set_option autoImplicit false

namespace SchemaLang

/-- Colours of a terminal. -/
inductive Style where
  | header
  | caret
  | hint (kind : HintKind)
deriving DecidableEq, Repr

def Style.code : Style → String
  | header => "\x1b[33m"
  | caret => "\x1b[31m"
  | hint .hint => "\x1b[34m"
  | hint .note => "\x1b[36m"
  | hint .help => "\x1b[32m"

/-- A text in a style, if colours are on. -/
def paint (color : Bool) (style : Style) (text : String) : String :=
  if color then style.code ++ text ++ "\x1b[0m" else text

/-- `quote` is the quote that is open, `column` that of the first character. -/
def commentStartFrom (quote : Option Char) (column : Nat) : List Char → Option Nat
  | [] => none
  | c :: cs =>
    match quote with
    | some q =>
      if c = '\\' then
        match cs with
        | [] => none
        | _ :: ds => commentStartFrom (some q) (column + 2) ds
      else commentStartFrom (if c = q then none else some q) (column + 1) cs
    | none =>
      if c = '"' ∨ c = '\'' then commentStartFrom (some c) (column + 1) cs
      else if c = '/' ∧ (cs.head? = some '/' ∨ cs.head? = some '*') then some column
      else commentStartFrom none (column + 1) cs

/-- A backslash in quotes hides the character behind it. -/
def commentStart? (line : List Char) : Option Nat := commentStartFrom none 0 line

structure DisplayedLine where
  text : List Char
  start : Nat
  stop : Nat

/-- The line to show when the columns from `start` to `stop` are marked, and where the mark then
is. -/
def displayedLine (line : List Char) (start stop : Nat) : DisplayedLine :=
  match commentStart? line with
  | none => ⟨line, start, stop⟩
  | some column =>
    if column < stop then ⟨line, start, stop⟩
    else
      let text := Text.trimEnd (line.take column)
      ⟨text, min start text.length, min stop text.length⟩

/-- A line of a text, counted from one. -/
def sourceLine? (text : String) (line : Nat) : Option String :=
  if line = 0 then none else (Text.lines text.toList)[line - 1]?.map String.ofList

def spaces (n : Nat) : String := String.ofList (List.replicate n ' ')

/-- A text at the right end of a column. -/
def alignRight (width : Nat) (s : String) : String := spaces (width - s.length) ++ s

/-- A text at the left end of a column. -/
def alignLeft (width : Nat) (s : String) : String := s ++ spaces (width - s.length)

/-- The last line to show. A span that stops at the start of a line does not cover it. -/
def Span.lastLine (s : Span) : Nat :=
  if s.start.line < s.stop.line ∧ s.stop.column = 0 then s.stop.line - 1
  else max s.stop.line s.start.line

/-- One line with its number, and the carets below it. -/
def snippetRows (span : Span) (color : Bool) (width : Nat) (line : List Char) (number : Nat) :
    String :=
  let shown :=
    if number = span.lastLine ∧ span.stop.line = number then
      (displayedLine line 0 span.stop.column).text
    else line
  let start := if number = span.start.line then min span.start.column shown.length else 0
  let stop := if number = span.stop.line then min span.stop.column shown.length else shown.length
  let carets := String.ofList (List.replicate (max 1 (stop - start)) '^')
  alignRight width (toString number) ++ " | " ++ String.ofList shown ++ "\n" ++
    spaces width ++ " | " ++ spaces start ++ paint color .caret carets ++ "\n"

/-- The lines of a span under a gutter; nothing without the text. -/
def snippet (source : Option String) (span : Span) (color : Bool) : String :=
  match source with
  | none => ""
  | some text =>
    let width := (toString span.lastLine).length
    let rows := ((Text.lines text.toList).zipIdx 1).filter fun r =>
      span.start.line ≤ r.2 && r.2 ≤ span.lastLine
    spaces width ++ " |\n" ++
      String.join (rows.map fun r => snippetRows span color width r.1 r.2)

end SchemaLang
