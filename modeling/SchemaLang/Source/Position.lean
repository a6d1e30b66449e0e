import SchemaLang.Word

/-!
# Positions and spans

* `Position` is a place in one text: a line from one, a column from zero in code points, and the
  byte offset. Positions are ordered by byte.
* `Span` is a half-open range of one source; the zero span stands for no place at all.
* `Span.merge` covers two spans.
-/

set_option autoImplicit false

namespace SchemaLang

/-- A registered source; zero is no source. -/
structure SourceId where
  index : Nat
deriving DecidableEq, Repr, Inhabited

namespace SourceId

def none : SourceId := ⟨0⟩

def isNone (s : SourceId) : Bool := s.index == 0

def describe (s : SourceId) : String := s!"#{s.index}"

end SourceId

structure Position where
  line : Nat
  column : Nat
  byte : Nat
deriving DecidableEq, Repr, Inhabited

namespace Position

def zero : Position := ⟨0, 0, 0⟩

/-- The earlier of two positions, the first if they share a byte. -/
def earlier (p q : Position) : Position := if q.byte < p.byte then q else p

/-- The later of two positions, the second if they share a byte. -/
def later (p q : Position) : Position := if q.byte < p.byte then p else q

/-- Positions are ordered by byte alone. -/
instance : Ord Position := ⟨fun p q => compare p.byte q.byte⟩

def describe (p : Position) : String := s!"{p.line}:{p.column}"

/-- The position as readers count: lines and columns both from one. -/
def describeFromOne (p : Position) : String := s!"{p.line}:{nextWord p.column}"

theorem byte_earlier (p q : Position) : (p.earlier q).byte = min p.byte q.byte := by
  unfold earlier; split <;> omega

theorem byte_later (p q : Position) : (p.later q).byte = max p.byte q.byte := by
  unfold later; split <;> omega

end Position

structure Span where
  source : SourceId
  start : Position
  stop : Position
deriving DecidableEq, Repr, Inhabited

namespace Span

/-- The span that marks an absent place. -/
def zero : Span := ⟨SourceId.none, Position.zero, Position.zero⟩

def isZero (s : Span) : Bool := s = zero

def byteLength (s : Span) : Nat := wordsBetween s.start.byte s.stop.byte

/-- The smallest span over both; the zero span adds nothing. -/
def merge (s t : Span) : Span :=
  if s.isZero then t
  else if t.isZero then s
  else ⟨s.source, s.start.earlier t.start, s.stop.later t.stop⟩

def describe (s : Span) : String := s!"{s.start.describe}-{s.stop.describe}"

end Span

end SchemaLang
