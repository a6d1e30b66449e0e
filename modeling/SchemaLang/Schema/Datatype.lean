import SchemaLang.Decimal.Shortest
import SchemaLang.Schema.Name
import SchemaLang.Text.Quoted

/-!
# Datatypes

* `Bound` is one end of a range, perhaps open.
* `Builtin` is a built-in datatype with its parameters; `DatatypeRef` is one of those in place or
  the name of a declared one.
* `Builtin.text` writes a datatype the way a schema does.
-/

set_option autoImplicit false

namespace SchemaLang

inductive Bound (α : Type) where
  | unbounded
  | value (v : α)
deriving DecidableEq, Repr

namespace Bound

variable {α : Type}

def value? : Bound α → Option α
  | unbounded => none
  | value v => some v

def isUnbounded (b : Bound α) : Bool := b.value?.isNone

def text (write : α → String) : Bound α → String
  | unbounded => "_"
  | value v => write v

end Bound

mutual

inductive Builtin (σ : Type) where
  | integer (min max : Bound Int)
  | float (min max : Bound Binary64)
  | boolean
  | string (min max : Bound Nat)
  | enum (values : List String)
  | pattern (regex : String) (flags : Option String)
  | timestamp (format : Option String)
  | vector (dimensions : Nat)
  | date
  | uuid
  | list (element : DatatypeRef σ) (min max : Bound Nat)

inductive DatatypeRef (σ : Type) where
  | builtin (type : Builtin σ) (place : σ)
  | named (ref : TypeRef σ)

end

/-- A built-in datatype where it is written. -/
structure PlacedBuiltin (σ : Type) where
  type : Builtin σ
  place : σ

variable {σ τ υ : Type}

def DatatypeRef.place : DatatypeRef σ → σ
  | .builtin _ p => p
  | .named r => r.place

def Builtin.kind : Builtin σ → BuiltinKind
  | .integer .. => .integer
  | .float .. => .float
  | .boolean => .boolean
  | .string .. => .string
  | .enum _ => .enum
  | .pattern .. => .pattern
  | .timestamp _ => .timestamp
  | .vector _ => .vector
  | .date => .date
  | .uuid => .uuid
  | .list .. => .list

/-- Bounds of floats are written without an exponent, whole numbers without a point. -/
def Bound.floatLayout : FloatLayout := ⟨none, false, false, .up⟩

/-- A range in brackets; nothing if both ends are open. -/
def rangeText {α : Type} (write : α → String) (min max : Bound α) : String :=
  if min.isUnbounded && max.isUnbounded then ""
  else s!"[{min.text write}, {max.text write}]"

def floatText (x : Binary64) : String := String.ofList (Bound.floatLayout.write x)

mutual

def Builtin.text : Builtin σ → String
  | .integer min max => "Integer" ++ rangeText toString min max
  | .float min max => "Float" ++ rangeText floatText min max
  | .boolean => "Boolean"
  | .string min max => "String" ++ rangeText toString min max
  | .enum values => "Enum[" ++ ", ".intercalate (values.map Text.quoted) ++ "]"
  | .pattern regex none => "Pattern[" ++ Text.quoted regex ++ "]"
  | .pattern regex (some flags) =>
    "Pattern[" ++ Text.quoted regex ++ ", " ++ Text.quoted flags ++ "]"
  | .timestamp none => "Timestamp"
  | .timestamp (some format) => "Timestamp[" ++ Text.quoted format ++ "]"
  | .vector dimensions => "Vector[" ++ toString dimensions ++ "]"
  | .date => "Date"
  | .uuid => "UUID"
  | .list element min max => "List<" ++ element.text ++ ">" ++ rangeText toString min max

def DatatypeRef.text : DatatypeRef σ → String
  | .builtin type _ => type.text
  | .named ref => ref.text

end

mutual

def Builtin.map (f : σ → τ) : Builtin σ → Builtin τ
  | .integer min max => .integer min max
  | .float min max => .float min max
  | .boolean => .boolean
  | .string min max => .string min max
  | .enum values => .enum values
  | .pattern regex flags => .pattern regex flags
  | .timestamp format => .timestamp format
  | .vector dimensions => .vector dimensions
  | .date => .date
  | .uuid => .uuid
  | .list element min max => .list (element.map f) min max

def DatatypeRef.map (f : σ → τ) : DatatypeRef σ → DatatypeRef τ
  | .builtin type place => .builtin (type.map f) (f place)
  | .named ref => .named (ref.map f)

end

def PlacedBuiltin.map (f : σ → τ) (b : PlacedBuiltin σ) : PlacedBuiltin τ :=
  ⟨b.type.map f, f b.place⟩

mutual

/-- Moving a datatype does not change its text. -/
theorem Builtin.text_map (f : σ → τ) : (b : Builtin σ) → (b.map f).text = b.text
  | .integer .. | .float .. | .boolean | .string .. | .enum _ | .vector _ | .date | .uuid => by
    simp [Builtin.map, Builtin.text]
  | .pattern _ flags => by cases flags <;> simp [Builtin.map, Builtin.text]
  | .timestamp format => by cases format <;> simp [Builtin.map, Builtin.text]
  | .list element .. => by simp [Builtin.map, Builtin.text, DatatypeRef.text_map f element]

theorem DatatypeRef.text_map (f : σ → τ) : (d : DatatypeRef σ) → (d.map f).text = d.text
  | .builtin type _ => by simp [DatatypeRef.map, DatatypeRef.text, Builtin.text_map f type]
  | .named _ => by simp [DatatypeRef.map, DatatypeRef.text]

end

mutual

theorem Builtin.map_map (f : σ → τ) (g : τ → υ) :
    (b : Builtin σ) → (b.map f).map g = b.map (g ∘ f)
  | .integer .. | .float .. | .boolean | .string .. | .enum _ | .pattern .. | .timestamp _
  | .vector _ | .date | .uuid => by simp [Builtin.map]
  | .list element .. => by simp [Builtin.map, DatatypeRef.map_map f g element]

@[simp] theorem DatatypeRef.map_map (f : σ → τ) (g : τ → υ) :
    (d : DatatypeRef σ) → (d.map f).map g = d.map (g ∘ f)
  | .builtin type _ => by simp [DatatypeRef.map, Builtin.map_map f g type]
  | .named _ => by simp [DatatypeRef.map]

end

@[simp] theorem PlacedBuiltin.map_map (f : σ → τ) (g : τ → υ) (b : PlacedBuiltin σ) :
    (b.map f).map g = b.map (g ∘ f) := by
  simp [PlacedBuiltin.map, Builtin.map_map]

end SchemaLang
