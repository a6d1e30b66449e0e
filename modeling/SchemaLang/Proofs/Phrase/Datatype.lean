import SchemaLang.Grammar.Datatype
import SchemaLang.Proofs.Phrase.Basic

/-!
# The grammar of references and datatypes

* `TypeRef.Derives` are type names, perhaps behind an alias.
* `DatatypeRef.Derives` are datatypes where a property or a list element has one, and
  `PlacedBuiltin.Derives` built-in datatypes alone; `Phrase.Parameters` are what stands behind a
  built-in keyword.

An enumeration has two values at least, a range does not end before it starts, and all numbers are
in range.
-/

set_option autoImplicit false

namespace SchemaLang

/-- A word that an import may have as its alias. -/
structure Item.IsAlias (t : Item) : Prop where
  isWord : t.kind.isWord = true
  check : checkAlias t.text = .ok ()

inductive TypeRef.Derives : Phrase (TypeRef Unit) where
  | plain {n : Item} : n.kind = .upperWord → Derives [n] ⟨none, ⟨n.text, ()⟩, ()⟩
  | qualified {q d n : Item} :
      q.IsAlias → d.kind = .symbol .dot → n.kind = .upperWord →
        Derives [q, d, n] ⟨some ⟨q.text, ()⟩, ⟨n.text, ()⟩, ()⟩

namespace Phrase

inductive StringLiteral : Phrase String where
  | mk {t : Item} : t.kind = .stringLit → StringLiteral [t] (stringValue t.text)

/-- An open end, or a number that may have a sign. -/
inductive SignedBound {α : Type} (isNumber : TokenKind → Bool)
    (read : Bool → List Char → Option α) : Phrase (Bound α) where
  | unbounded {t : Item} : t.kind = .symbol .underscore → SignedBound isNumber read [t] .unbounded
  | unsigned {t : Item} {v : α} :
      isNumber t.kind = true → read false t.text.toList = some v →
        SignedBound isNumber read [t] (.value v)
  | plus {s t : Item} {v : α} :
      s.kind = .symbol .plus → isNumber t.kind = true → read false t.text.toList = some v →
        SignedBound isNumber read [s, t] (.value v)
  | minus {s t : Item} {v : α} :
      s.kind = .symbol .minus → isNumber t.kind = true → read true t.text.toList = some v →
        SignedBound isNumber read [s, t] (.value v)

abbrev IntegerBound : Phrase (Bound Int) := SignedBound (· == .integerLit) readInt?

abbrev FloatBound : Phrase (Bound Binary64) :=
  SignedBound Rule.isNumber fun negative cs =>
    (Decimal.read? negative cs).bind Binary64.ofDecimal?

inductive LengthBound : Phrase (Bound Nat) where
  | unbounded {t : Item} : t.kind = .symbol .underscore → LengthBound [t] .unbounded
  | value {t : Item} {v : Nat} :
      t.kind = .integerLit → readNat? wordLimit t.text.toList = some v →
        LengthBound [t] (.value v)

/-- Two bounds in order. -/
inductive Bounds {α : Type} (B : Phrase (Bound α)) (le : α → α → Prop) :
    Phrase (Bound α × Bound α) where
  | mk {c : Item} {ts us : List Item} {min max : Bound α} :
      B ts min → c.kind = .symbol .comma → B us max →
        (∀ lo hi, min = .value lo → max = .value hi → le lo hi) →
          Bounds B le (ts ++ c :: us) (min, max)

/-- Bounds in brackets; without them both ends are open. -/
inductive Range {α : Type} (B : Phrase (Bound α)) (le : α → α → Prop) :
    Phrase (Bound α × Bound α) where
  | absent : Range B le [] (.unbounded, .unbounded)
  | present {ts : List Item} {bounds : Bound α × Bound α} :
      Enclosed .lBracket .rBracket (Bounds B le) ts bounds → Range B le ts bounds

abbrev LengthRange : Phrase (Bound Nat × Bound Nat) := Range LengthBound (· ≤ ·)

/-- The text of a pattern, as a string or between slashes. -/
inductive PatternText : Phrase String where
  | string {t : Item} : t.kind = .stringLit → PatternText [t] (stringValue t.text)
  | regex {t : Item} : t.kind = .regexLit → PatternText [t] (regexValue t.text)

/-- A pattern, and flags for it. -/
inductive PatternBody : Phrase (String × Option String) where
  | plain {ts : List Item} {regex : String} : PatternText ts regex → PatternBody ts (regex, none)
  | flags {c : Item} {ts us : List Item} {regex flags : String} :
      PatternText ts regex → c.kind = .symbol .comma → StringLiteral us flags →
        PatternBody (ts ++ c :: us) (regex, some flags)

inductive Dimension : Phrase Nat where
  | mk {t : Item} {n : Nat} :
      t.kind = .integerLit → readNat? wordLimit t.text.toList = some n → 0 < n → Dimension [t] n

/-- What stands behind the keyword of a built-in datatype; `E` are the elements of lists. -/
inductive Parameters (E : Phrase (DatatypeRef Unit)) : BuiltinKind → Phrase (Builtin Unit) where
  | integer {ts : List Item} {min max : Bound Int} :
      Range IntegerBound (· ≤ ·) ts (min, max) → Parameters E .integer ts (.integer min max)
  | float {ts : List Item} {min max : Bound Binary64} :
      Range FloatBound (fun lo hi => hi.lt lo = false) ts (min, max) →
        Parameters E .float ts (.float min max)
  | string {ts : List Item} {min max : Bound Nat} :
      LengthRange ts (min, max) → Parameters E .string ts (.string min max)
  | boolean : Parameters E .boolean [] .boolean
  | date : Parameters E .date [] .date
  | uuid : Parameters E .uuid [] .uuid
  | enum {ts : List Item} {values : List String} :
      Enclosed .lBracket .rBracket (Elements StringLiteral) ts values → 2 ≤ values.length →
        Parameters E .enum ts (.enum values)
  | pattern {ts : List Item} {regex : String} {flags : Option String} :
      Enclosed .lBracket .rBracket PatternBody ts (regex, flags) →
        Parameters E .pattern ts (.pattern regex flags)
  | timestamp {ts : List Item} {format : Option String} :
      Optional (Enclosed .lBracket .rBracket StringLiteral) ts format →
        Parameters E .timestamp ts (.timestamp format)
  | vector {ts : List Item} {n : Nat} :
      Enclosed .lBracket .rBracket Dimension ts n → Parameters E .vector ts (.vector n)
  | list {ts us : List Item} {e : DatatypeRef Unit} {min max : Bound Nat} :
      Enclosed .lt .gt E ts e → LengthRange us (min, max) →
        Parameters E .list (ts ++ us) (.list e min max)

end Phrase

open Phrase

inductive DatatypeRef.Derives : Phrase (DatatypeRef Unit) where
  | builtin {k : Item} {kind : BuiltinKind} {ts : List Item} {b : Builtin Unit}
      {R : Phrase (DatatypeRef Unit)} :
      (∀ us d, R us d → Derives us d) → k.kind = .builtin kind → Parameters R kind ts b →
        Derives (k :: ts) (.builtin b ())
  | named {ts : List Item} {r : TypeRef Unit} : TypeRef.Derives ts r → Derives ts (.named r)

/-- A built-in datatype and no name of one. -/
inductive PlacedBuiltin.Derives : Phrase (PlacedBuiltin Unit) where
  | mk {k : Item} {kind : BuiltinKind} {ts : List Item} {b : Builtin Unit} :
      k.kind = .builtin kind → Parameters DatatypeRef.Derives kind ts b → Derives (k :: ts) ⟨b, ()⟩

end SchemaLang
