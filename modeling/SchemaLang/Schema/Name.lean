import SchemaLang.Token.Kind

/-!
# Names and references

Every node of a schema tree carries its place. The type `σ` of places is a parameter: the grammar
places nodes by tokens, a reader of the tree by spans, and a tree over `Unit` is one without places.
-/

set_option autoImplicit false

namespace SchemaLang

/-- A word of the schema. -/
structure Name (σ : Type) where
  text : String
  place : σ
deriving DecidableEq, Repr

/-- A type name, perhaps behind the alias of an import. -/
structure TypeRef (σ : Type) where
  qualifier : Option (Name σ)
  name : Name σ
  place : σ
deriving DecidableEq, Repr

def TypeRef.isQualified {σ : Type} (r : TypeRef σ) : Bool := r.qualifier.isSome

def TypeRef.text {σ : Type} (r : TypeRef σ) : String :=
  match r.qualifier with
  | some q => s!"{q.text}.{r.name.text}"
  | none => r.name.text

variable {σ τ υ : Type}

def Name.map (f : σ → τ) (n : Name σ) : Name τ := ⟨n.text, f n.place⟩

def TypeRef.map (f : σ → τ) (r : TypeRef σ) : TypeRef τ :=
  ⟨r.qualifier.map (Name.map f), r.name.map f, f r.place⟩

@[simp] theorem Name.text_map (f : σ → τ) (n : Name σ) : (n.map f).text = n.text := rfl

@[simp] theorem Name.map_map (f : σ → τ) (g : τ → υ) (n : Name σ) :
    (n.map f).map g = n.map (g ∘ f) := rfl

@[simp] theorem TypeRef.map_map (f : σ → τ) (g : τ → υ) (r : TypeRef σ) :
    (r.map f).map g = r.map (g ∘ f) := by
  simp [TypeRef.map, Function.comp_def]

/-- Moving a reference does not change what it says. -/
@[simp] theorem TypeRef.text_map (f : σ → τ) (r : TypeRef σ) : (r.map f).text = r.text := by
  cases r with
  | mk q n p => cases q <;> rfl

end SchemaLang
