import SchemaLang.Report.Snippet

/-!
# A diagnostic as text

`Diagnostic.render` writes a header, the message, the location with a snippet, and the hints: first
those without a place, sorted by kind, then each of the others with a snippet of its own.
-/

set_option autoImplicit false

namespace SchemaLang

namespace Diagnostic

/-- Errors are named by the phase that finds them. -/
def headerLabel (d : Diagnostic) : String :=
  match d.severity with
  | .error => (d.phase.map Phase.label).getD "Error"
  | .warning => "Warning"
  | .note => "Note"

def lowerAscii (s : String) : String := String.ofList (s.toList.map Char.toLower)

def header (d : Diagnostic) (color : Bool) : String :=
  let code := d.code.getD "E000"
  paint color .header s!"--> {lowerAscii d.headerLabel}[{code}]: {d.title}" ++ "\n"

def hasMessage (d : Diagnostic) : Bool := d.message.getD "" != ""

/-- The span, if it is a place at all. -/
def place? (d : Diagnostic) : Option Span := d.span.filter (!·.isZero)

def messageBlock (d : Diagnostic) : String :=
  if d.hasMessage then "\n" ++ d.message.getD "" ++ "\n" else "\n"

def locationBlock (d : Diagnostic) (file : String) : String :=
  match d.place? with
  | none => ""
  | some span =>
    (if d.hasMessage then "\n" else "") ++
      s!"  --> {file}:{span.start.describeFromOne}\n"

end Diagnostic

/-- The place of a hint, if it has one. -/
def Hint.place? (h : Hint) : Option Span := h.span.filter (!·.isZero)

def hintLabel (color : Bool) (kind : HintKind) : String :=
  paint color (.hint kind) (kind.label ++ ":")

/-- The hints of one kind that have no place. -/
def hintGroup (hints : List Hint) (color : Bool) (kind : HintKind) : String :=
  match hints.filter fun h => h.place?.isNone && h.kind == kind with
  | [] => ""
  | hs => "\n" ++ hintLabel color kind ++ "\n" ++ String.join (hs.map fun h => s!"  {h.text}\n")

def locatedHint (source : Option String) (color : Bool) (h : Hint) : String :=
  match h.place? with
  | none => ""
  | some span =>
    "\n" ++ hintLabel color h.kind ++
      s!" {h.text} ({span.start.describeFromOne})\n" ++ snippet source span color

def hintBlock (source : Option String) (hints : List Hint) (color : Bool) : String :=
  String.join (HintKind.all.map (hintGroup hints color)) ++
    String.join (hints.map (locatedHint source color))

/-- The text of a diagnostic. `source` is the text of the file that it is about; without it there
are no snippets. -/
def Diagnostic.render (d : Diagnostic) (source : Option String) (file : String) (color : Bool) :
    String :=
  d.header color ++ d.messageBlock ++ d.locationBlock file ++
    (match d.place? with
      | none => ""
      | some span => snippet source span color) ++
    hintBlock source d.hints color

end SchemaLang
