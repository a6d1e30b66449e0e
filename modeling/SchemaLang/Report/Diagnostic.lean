import SchemaLang.Report.Code
import SchemaLang.Source.Position
import SchemaLang.Text.Blank

/-!
# Diagnostics

A diagnostic tells a reader of the schema what is wrong, where, and what may help.

* `Severity`, `HintKind`, `Hint` and `Diagnostic` are its parts.
* `Diagnostic.ofCode` fills in the texts of an error code.
* `withHint`, `withHintAt`, `withNote` and `withHelp` add a hint at the end.
-/

set_option autoImplicit false

namespace SchemaLang

inductive Severity where
  | error | warning | note
deriving DecidableEq, Repr

namespace Severity

def label : Severity → String
  | error => "error"
  | warning => "warning"
  | note => "note"

def name : Severity → String
  | error => "Error"
  | warning => "Warning"
  | note => "Note"

/-- What is more severe comes first. -/
def rank : Severity → Nat
  | error => 0
  | warning => 1
  | note => 2

end Severity

inductive HintKind where
  | hint | note | help
deriving DecidableEq, Repr

namespace HintKind

def all : List HintKind := [hint, note, help]

def label : HintKind → String
  | hint => "Hint"
  | note => "Note"
  | help => "Help"

end HintKind

structure Hint where
  kind : HintKind
  text : String
  span : Option Span
deriving DecidableEq, Repr

structure Diagnostic where
  severity : Severity
  title : String
  code : Option String
  phase : Option Phase
  message : Option String
  span : Option Span
  hints : List Hint
deriving DecidableEq, Repr

namespace Diagnostic

/-- A diagnostic with nothing but a title. -/
def titled (severity : Severity) (title : String) : Diagnostic :=
  ⟨severity, title, none, none, none, none, []⟩

/-- An error with the code, the phase and the title of an error code, but none of its texts. -/
def bare (c : ErrorCode) : Diagnostic := ⟨.error, c.title, some c.code, some c.phase, none, none, []⟩

def addHint (d : Diagnostic) (h : Hint) : Diagnostic := { d with hints := d.hints ++ [h] }

/-- A hint text without the label that is written before it. -/
def unlabelled (text : String) : String :=
  let cs := text.toList
  let label := "Hint:".toList
  String.ofList (Text.trimStart (if label.isPrefixOf cs then cs.drop label.length else cs))

def withHint (d : Diagnostic) (text : String) : Diagnostic :=
  d.addHint ⟨.hint, unlabelled text, none⟩

def withHintAt (d : Diagnostic) (text : String) (span : Span) : Diagnostic :=
  d.addHint ⟨.hint, text, some span⟩

def withNote (d : Diagnostic) (text : String) : Diagnostic := d.addHint ⟨.note, text, none⟩

def withHelp (d : Diagnostic) (text : String) : Diagnostic := d.addHint ⟨.help, text, none⟩

/-- An error with the message and the hint of an error code, both filled with the same values. -/
def ofCode (c : ErrorCode) (values : List String) (span : Span) : Diagnostic :=
  let d := { bare c with span := some span, message := some (fillSlots c.message values) }
  match c.hint with
  | some hint => d.withHint (fillSlots hint values)
  | none => d

def isError (d : Diagnostic) : Bool := d.severity = .error

def position? (d : Diagnostic) : Option Position := d.span.map Span.start

def source (d : Diagnostic) : SourceId := (d.span.map Span.source).getD SourceId.none

end Diagnostic

end SchemaLang
