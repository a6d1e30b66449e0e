import SchemaLang.Json.Schema
import SchemaLang.Reading

/-!
# Readings as JSON

`Reading.toJson` is what is read from a source, unit and diagnostics; how a span is written is given
as `f`, and `Span.toJson` writes it in full.
-/

set_option autoImplicit false

namespace SchemaLang

def Position.toJson (p : Position) : Json :=
  .object [("line", .ofNat p.line), ("column", .ofNat p.column), ("byte", .ofNat p.byte)]

def SourceId.toJson (s : SourceId) : Json := .ofNat s.index

def Span.toJson (s : Span) : Json :=
  .object [("source", s.source.toJson), ("start", s.start.toJson), ("end", s.stop.toJson)]

variable (f : Span → Json)

def Hint.toJson (h : Hint) : Json :=
  .object [("kind", .string h.kind.label), ("text", .string h.text), ("span", .ofOption f h.span)]

def Diagnostic.toJson (d : Diagnostic) : Json :=
  .object
    [("severity", .string d.severity.name), ("title", .string d.title), ("code", .ofText d.code),
     ("error_type", .ofOption (fun p => .string (Phase.name p)) d.phase),
     ("message", .ofText d.message), ("span", .ofOption f d.span),
     ("hints", .ofList (Hint.toJson f) d.hints)]

def Reading.toJson (r : Reading) : Json :=
  .object
    [("source", r.source.toJson), ("unit", r.unit.toJson f Span.zero),
     ("diagnostics", .ofList (Diagnostic.toJson f) r.diagnostics)]

end SchemaLang
