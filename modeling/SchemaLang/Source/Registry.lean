import SchemaLang.Source.Text

/-!
# The registry of sources

Sources are numbered from one in the order in which they are registered, and never change.

* `Registry.register` adds a text and answers with its number.
* `Registry.find` is the source of a number.
* `Registry.spanOf` turns a range of code points into a span, or says why there is none;
  `Registry.spanThrough` is given its last code point.
-/

set_option autoImplicit false

namespace SchemaLang

inductive RegistryError where
  | unknownSource (id : SourceId)
  | full
deriving DecidableEq, Repr

def RegistryError.message : RegistryError → String
  | .unknownSource id => s!"unknown source {id.describe}"
  | .full => "source table is full"

/-- Why a range of code points is no span of a source. -/
inductive SpanError where
  /-- No code point and no end of text stands at this offset. -/
  | unresolvedOffset (source : SourceId) (offset : Nat)
  /-- No place of the text has this byte offset. -/
  | unresolvedPosition (source : SourceId) (byte : Nat)
  /-- The range ends before it starts. -/
  | inverted (source : SourceId) (start stop : Nat)
deriving DecidableEq, Repr

def SpanError.message : SpanError → String
  | .unresolvedOffset source offset =>
    s!"span invariant violation: cp{offset} does not resolve in source {source.describe}"
  | .unresolvedPosition source byte =>
    s!"span invariant violation: b{byte} has no position in source {source.describe}"
  | .inverted source start stop =>
    s!"span invariant violation: end cp{stop} precedes start cp{start} in source {source.describe}"

structure Registry where
  sources : Array Source

namespace Registry

def empty : Registry := ⟨#[]⟩

/-- Numbers of sources fit in thirty-two bits. -/
def capacity : Nat := 0xffffffff

def register (r : Registry) (name text : String) : Except RegistryError (SourceId × Registry) :=
  if r.sources.size < capacity then
    .ok (⟨r.sources.size + 1⟩, ⟨r.sources.push (Source.ofText name text)⟩)
  else .error .full

def size (r : Registry) : Nat := r.sources.size

def ids (r : Registry) : List SourceId := (List.range r.size).map fun i => ⟨i + 1⟩

def find? (r : Registry) (id : SourceId) : Option Source :=
  if id.isNone then none else r.sources[id.index - 1]?

def find (r : Registry) (id : SourceId) : Except RegistryError Source :=
  match r.find? id with
  | some s => .ok s
  | none => .error (.unknownSource id)

def contains (r : Registry) (id : SourceId) : Bool := (r.find? id).isSome

def byteOf? (r : Registry) (id : SourceId) (offset : Nat) : Option Nat :=
  (r.find? id).bind (·.byteOf? offset)

def positionAt? (r : Registry) (id : SourceId) (byte : Nat) : Option Position :=
  (r.find? id).bind (·.positionAt? byte)

/-- The position of a code-point offset, by way of its byte offset. -/
def resolve (r : Registry) (id : SourceId) (offset : Nat) : Except SpanError Position :=
  match r.byteOf? id offset with
  | none => .error (.unresolvedOffset id offset)
  | some byte =>
    match r.positionAt? id byte with
    | none => .error (.unresolvedPosition id byte)
    | some p => .ok p

/-- The span of the code points from `start` up to, not including, `stop`. -/
def spanOf (r : Registry) (id : SourceId) (start stop : Nat) : Except SpanError Span :=
  if stop < start then .error (.inverted id start stop)
  else
    match r.resolve id start with
    | .error e => .error e
    | .ok p =>
      match r.resolve id stop with
      | .error e => .error e
      | .ok q => .ok ⟨id, p, q⟩

/-- The span of the code points from `start` through `last`. -/
def spanThrough (r : Registry) (id : SourceId) (start last : Nat) : Except SpanError Span :=
  r.spanOf id start (nextWord last)

/-- A registered source keeps its number and its text. -/
theorem find?_register {r r' : Registry} {name text : String} {id : SourceId}
    (h : r.register name text = .ok (id, r')) :
    id.index = r.size + 1 ∧ r'.find? id = some (Source.ofText name text) ∧
      ∀ old, old.index ≤ r.size → r'.find? old = r.find? old := by
  unfold register at h
  split at h
  · cases h
    refine ⟨rfl, ?_, fun old hold => ?_⟩
    · simp [find?, SourceId.isNone]
    · unfold find?
      split
      · rfl
      · rename_i hz
        have hz : old.index ≠ 0 := by simpa [SourceId.isNone] using hz
        have hlt : old.index - 1 < r.sources.size := by simp only [size] at hold; omega
        simp [Array.getElem?_push, Nat.ne_of_lt hlt]
  · cases h

end Registry

end SchemaLang
