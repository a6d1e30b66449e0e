import SchemaLang.Grammar.Unit
import SchemaLang.Report.Wording
import SchemaLang.Source.Registry
import SchemaLang.Token.Stream

/-!
# Reading a source

Reading cuts the text of a source into tokens, reads a unit from them and places everything by
spans. Nothing stops it but a source that is not registered: what is wrong with the text is in the
diagnostics, and the unit holds whatever could be read.

* `SpanTable` holds the spans of the items of a text; `SpanTable.span` is the span of an extent.
* `Registry.readTokens` reads a unit from a stream of tokens of a source.
* `Registry.read` reads a source.
-/

set_option autoImplicit false

namespace SchemaLang

/-- The spans of the items of a text. -/
structure SpanTable where
  spans : Array Span

namespace SpanTable

def at_ (t : SpanTable) (i : Nat) : Span := t.spans.getD i Span.zero

/-- From the start of the first item to the end of the last one. -/
def span (t : SpanTable) (e : Extent) : Span :=
  let first := t.at_ e.first
  ⟨first.source, first.start, first.stop.later (t.at_ e.last).stop⟩

end SpanTable

/-- What is read from a stream of tokens. -/
structure UnitReading where
  /-- The number of tokens that the grammar sees. -/
  itemCount : Nat
  unit : SchemaUnit Span
  diagnostics : List Diagnostic

structure Reading where
  source : SourceId
  unit : SchemaUnit Span
  diagnostics : List Diagnostic

namespace Reading

def errorCount (r : Reading) : Nat := (r.diagnostics.filter Diagnostic.isError).length

def hasErrors (r : Reading) : Bool := r.diagnostics.any Diagnostic.isError

end Reading

inductive ReadError where
  | registry (e : RegistryError)
  /-- Tokens of another text have been placed in this one. -/
  | misplaced (e : SpanError)
deriving DecidableEq, Repr

def ReadError.message : ReadError → String
  | registry e => e.message
  | misplaced e => e.message

namespace Registry

def spanTable (r : Registry) (id : SourceId) (items : List PlacedItem) :
    Except SpanError SpanTable :=
  (items.mapM fun i => r.spanOf id i.start i.stop).map fun spans => ⟨spans.toArray⟩

def readTokens (r : Registry) (id : SourceId) (stream : List Token) :
    Except SpanError UnitReading :=
  let placed := placedItems stream
  match r.spanTable id placed with
  | .error e => .error e
  | .ok table =>
    let (unit, problems) := readUnit (placed.map (·.item)).toArray
    .ok ⟨placed.length, unit.map table.span,
      problems.map fun p => (p.map table.span).diagnostic⟩

def faultDiagnostic (r : Registry) (id : SourceId) (f : Fault) : Except SpanError Diagnostic :=
  (r.spanOf id f.start f.stop).map f.cause.diagnostic

/-- The diagnostics on lexemes come before those on grammar. -/
def read (r : Registry) (id : SourceId) : Except ReadError Reading :=
  match r.find id with
  | .error e => .error (.registry e)
  | .ok source =>
    let (stream, faults) := tokenize source.text
    match faults.mapM (r.faultDiagnostic id) with
    | .error e => .error (.misplaced e)
    | .ok lexical =>
      match r.readTokens id stream with
      | .error e => .error (.misplaced e)
      | .ok u => .ok ⟨id, u.unit, lexical ++ u.diagnostics⟩

/-- A registry with one source, the number of the source, and what is read from it. -/
def readText (name text : String) : Except ReadError (Registry × Reading) :=
  match empty.register name text with
  | .error e => .error (.registry e)
  | .ok (id, r) =>
    match r.read id with
    | .error e => .error e
    | .ok reading => .ok (r, reading)

theorem read_eq_error_of_find? {r : Registry} {id : SourceId} (h : r.find? id = none) :
    r.read id = .error (.registry (.unknownSource id)) := by
  simp [read, find, h]

end Registry

end SchemaLang
