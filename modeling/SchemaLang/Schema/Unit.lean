import SchemaLang.Schema.Alias
import SchemaLang.Schema.Datatype
import SchemaLang.Schema.Expr

/-!
# Schema units

A unit is what one schema text holds: a header, imports, and declarations of types and datatypes. A
type has properties, associations, compositions and invariants as its members.

`SchemaUnit.map` moves a whole unit to other places.
-/

set_option autoImplicit false

namespace SchemaLang

inductive TypeModifier where
  | none | abstract_ | part
deriving DecidableEq, Repr

inductive PropertyModifier where
  | none | primary | required
deriving DecidableEq, Repr

/-- How many targets a relation may have. -/
inductive Multiplicity where
  | optionalOne | requiredOne | optionalMany | requiredMany
deriving DecidableEq, Repr

namespace Multiplicity

def of : Bool → Bool → Multiplicity
  | false, false => optionalOne
  | true, false => requiredOne
  | false, true => optionalMany
  | true, true => requiredMany

def isRequired : Multiplicity → Bool
  | requiredOne | requiredMany => true
  | _ => false

def isMany : Multiplicity → Bool
  | optionalMany | requiredMany => true
  | _ => false

def text : Multiplicity → String
  | optionalOne => "(_:one)"
  | requiredOne => "(one:one)"
  | optionalMany => "(_:many)"
  | requiredMany => "(one:many)"

end Multiplicity

structure Property (σ : Type) where
  doc : Option String
  name : Name σ
  datatype : DatatypeRef σ
  modifier : PropertyModifier
  place : σ

/-- The name and the multiplicity of a relation seen from its target. -/
structure ReverseEdge (σ : Type) where
  name : Name σ
  multiplicity : Multiplicity
  place : σ

/-- The properties of the edges of an association. -/
structure RelationBody (σ : Type) where
  properties : List (Property σ)
  place : σ

structure Association (σ : Type) where
  doc : Option String
  name : Name σ
  multiplicity : Multiplicity
  target : TypeRef σ
  reverse : Option (ReverseEdge σ)
  body : Option (RelationBody σ)
  place : σ

/-- A relation that owns its targets; its edges have no properties. -/
structure Composition (σ : Type) where
  doc : Option String
  name : Name σ
  multiplicity : Multiplicity
  target : TypeRef σ
  reverse : Option (ReverseEdge σ)
  place : σ

structure Invariant (σ : Type) where
  message : String
  constraint : Expr σ
  place : σ

inductive Member (σ : Type) where
  | property (p : Property σ)
  | association (a : Association σ)
  | composition (c : Composition σ)
  | invariant (i : Invariant σ)

structure TypeDecl (σ : Type) where
  doc : Option String
  name : Name σ
  modifier : TypeModifier
  parents : List (TypeRef σ)
  members : List (Member σ)
  place : σ

structure DatatypeDecl (σ : Type) where
  doc : Option String
  name : Name σ
  datatype : PlacedBuiltin σ
  place : σ

inductive Declaration (σ : Type) where
  | type (t : TypeDecl σ)
  | datatype (d : DatatypeDecl σ)

structure Import (σ : Type) where
  path : String
  alias_ : Option (Name σ)
  place : σ

structure SchemaUnit (σ : Type) where
  /-- Empty without a header or without a name in it. -/
  name : String
  header : Option σ
  doc : Option String
  imports : List (Import σ)
  declarations : List (Declaration σ)
  place : σ

variable {σ τ υ : Type}

namespace Property

def isPrimary (p : Property σ) : Bool := p.modifier = .primary

/-- What identifies an instance is required as well. -/
def isRequired (p : Property σ) : Bool := p.modifier ≠ .none

def map (f : σ → τ) (p : Property σ) : Property τ :=
  ⟨p.doc, p.name.map f, p.datatype.map f, p.modifier, f p.place⟩

end Property

def ReverseEdge.map (f : σ → τ) (r : ReverseEdge σ) : ReverseEdge τ :=
  ⟨r.name.map f, r.multiplicity, f r.place⟩

def RelationBody.map (f : σ → τ) (b : RelationBody σ) : RelationBody τ :=
  ⟨b.properties.map (Property.map f), f b.place⟩

def Association.map (f : σ → τ) (a : Association σ) : Association τ :=
  ⟨a.doc, a.name.map f, a.multiplicity, a.target.map f, a.reverse.map (ReverseEdge.map f),
    a.body.map (RelationBody.map f), f a.place⟩

def Composition.map (f : σ → τ) (c : Composition σ) : Composition τ :=
  ⟨c.doc, c.name.map f, c.multiplicity, c.target.map f, c.reverse.map (ReverseEdge.map f), f c.place⟩

def Invariant.map (f : σ → τ) (i : Invariant σ) : Invariant τ :=
  ⟨i.message, i.constraint.map f, f i.place⟩

namespace Member

def place : Member σ → σ
  | property p => p.place
  | association a => a.place
  | composition c => c.place
  | invariant i => i.place

def map (f : σ → τ) : Member σ → Member τ
  | property p => property (p.map f)
  | association a => association (a.map f)
  | composition c => composition (c.map f)
  | invariant i => invariant (i.map f)

end Member

namespace TypeDecl

def isAbstract (t : TypeDecl σ) : Bool := t.modifier = .abstract_

def isPart (t : TypeDecl σ) : Bool := t.modifier = .part

def properties (t : TypeDecl σ) : List (Property σ) :=
  t.members.filterMap fun | .property p => some p | _ => none

def associations (t : TypeDecl σ) : List (Association σ) :=
  t.members.filterMap fun | .association a => some a | _ => none

def compositions (t : TypeDecl σ) : List (Composition σ) :=
  t.members.filterMap fun | .composition c => some c | _ => none

def invariants (t : TypeDecl σ) : List (Invariant σ) :=
  t.members.filterMap fun | .invariant i => some i | _ => none

def map (f : σ → τ) (t : TypeDecl σ) : TypeDecl τ :=
  ⟨t.doc, t.name.map f, t.modifier, t.parents.map (TypeRef.map f), t.members.map (Member.map f),
    f t.place⟩

end TypeDecl

def DatatypeDecl.map (f : σ → τ) (d : DatatypeDecl σ) : DatatypeDecl τ :=
  ⟨d.doc, d.name.map f, d.datatype.map f, f d.place⟩

namespace Declaration

def name : Declaration σ → Name σ
  | type t => t.name
  | datatype d => d.name

def place : Declaration σ → σ
  | type t => t.place
  | datatype d => d.place

def map (f : σ → τ) : Declaration σ → Declaration τ
  | type t => type (t.map f)
  | datatype d => datatype (d.map f)

end Declaration

namespace Import

/-- The alias that stands there, or the one that the path gives. -/
def effectiveAlias (i : Import σ) : String :=
  match i.alias_ with
  | some a => a.text
  | none => derivedAlias i.path

/-- The place of the alias, or of the whole import if there is none. -/
def aliasPlace (i : Import σ) : σ :=
  match i.alias_ with
  | some a => a.place
  | none => i.place

def map (f : σ → τ) (i : Import σ) : Import τ := ⟨i.path, i.alias_.map (Name.map f), f i.place⟩

end Import

namespace SchemaUnit

def types (u : SchemaUnit σ) : List (TypeDecl σ) :=
  u.declarations.filterMap fun | .type t => some t | .datatype _ => none

def datatypes (u : SchemaUnit σ) : List (DatatypeDecl σ) :=
  u.declarations.filterMap fun | .datatype d => some d | .type _ => none

def findType? (u : SchemaUnit σ) (name : String) : Option (TypeDecl σ) :=
  u.types.find? (·.name.text == name)

def findDatatype? (u : SchemaUnit σ) (name : String) : Option (DatatypeDecl σ) :=
  u.datatypes.find? (·.name.text == name)

def map (f : σ → τ) (u : SchemaUnit σ) : SchemaUnit τ :=
  ⟨u.name, u.header.map f, u.doc, u.imports.map (Import.map f),
    u.declarations.map (Declaration.map f), f u.place⟩

end SchemaUnit

/-! ## Moving twice -/

section

variable (f : σ → τ) (g : τ → υ)

@[simp] theorem Property.map_map (p : Property σ) : (p.map f).map g = p.map (g ∘ f) := by
  simp [Property.map]

@[simp] theorem ReverseEdge.map_map (r : ReverseEdge σ) : (r.map f).map g = r.map (g ∘ f) := by
  simp [ReverseEdge.map]

@[simp] theorem RelationBody.map_map (b : RelationBody σ) : (b.map f).map g = b.map (g ∘ f) := by
  simp [RelationBody.map, Function.comp_def]

@[simp] theorem Association.map_map (a : Association σ) : (a.map f).map g = a.map (g ∘ f) := by
  simp [Association.map, Function.comp_def]

@[simp] theorem Composition.map_map (c : Composition σ) : (c.map f).map g = c.map (g ∘ f) := by
  simp [Composition.map, Function.comp_def]

@[simp] theorem Invariant.map_map (i : Invariant σ) : (i.map f).map g = i.map (g ∘ f) := by
  simp [Invariant.map]

@[simp] theorem Member.map_map (m : Member σ) : (m.map f).map g = m.map (g ∘ f) := by
  cases m <;> simp [Member.map]

@[simp] theorem TypeDecl.map_map (t : TypeDecl σ) : (t.map f).map g = t.map (g ∘ f) := by
  simp [TypeDecl.map, Function.comp_def]

@[simp] theorem DatatypeDecl.map_map (d : DatatypeDecl σ) : (d.map f).map g = d.map (g ∘ f) := by
  simp [DatatypeDecl.map]

@[simp] theorem Declaration.map_map (d : Declaration σ) : (d.map f).map g = d.map (g ∘ f) := by
  cases d <;> simp [Declaration.map]

@[simp] theorem Import.map_map (i : Import σ) : (i.map f).map g = i.map (g ∘ f) := by
  simp [Import.map, Function.comp_def]

/-- A unit that is moved twice is moved once. -/
theorem SchemaUnit.map_map (u : SchemaUnit σ) : (u.map f).map g = u.map (g ∘ f) := by
  simp [SchemaUnit.map, Function.comp_def]

end

end SchemaLang
