import SchemaLang.Schema.Unit

/-!
# Names as they are spelled

* `X.spellings` are the names in an `X` of a schema, as the text has them: a parameter of a pipeline
  stands behind a dollar sign there.

Main statement: moving a tree moves its spellings (`SchemaUnit.spellings_map`, and the lemmas before it
for the parts of a unit).
-/

set_option autoImplicit false

namespace SchemaLang

variable {σ τ : Type}

/-! ## Trees -/

/-- A parameter as it stands in the text. -/
def Name.behindDollar (n : Name σ) : Name σ := ⟨"$" ++ n.text, n.place⟩

def TypeRef.spellings (r : TypeRef σ) : List (Name σ) := r.qualifier.toList ++ [r.name]

mutual

def Builtin.spellings : Builtin σ → List (Name σ)
  | .list element _ _ => element.spellings
  | _ => []

def DatatypeRef.spellings : DatatypeRef σ → List (Name σ)
  | .builtin type _ => type.spellings
  | .named ref => ref.spellings

end

mutual

def Expr.spellings : Expr σ → List (Name σ)
  | .literal .. | .dollar .. | .property .. | .relation .. | .datatype .. => []
  | .list es _ => Expr.allSpellings es
  | .unary _ e _ => e.spellings
  | .binary _ l r _ => l.spellings ++ r.spellings
  | .member e n _ => e.spellings ++ [n]
  | .index e es _ => e.spellings ++ Expr.allSpellings es
  | .ternary c t e _ => c.spellings ++ t.spellings ++ e.spellings
  | .pipeline s f args params body _ =>
    s.spellings ++ f :: (Expr.argSpellings args ++ (params.getD []).map Name.behindDollar ++
      Expr.bodySpellings body)

def Expr.allSpellings : List (Expr σ) → List (Name σ)
  | [] => []
  | e :: es => e.spellings ++ Expr.allSpellings es

def Expr.argSpellings : Option (List (Expr σ)) → List (Name σ)
  | none => []
  | some es => Expr.allSpellings es

def Expr.bodySpellings : Option (Expr σ) → List (Name σ)
  | none => []
  | some e => e.spellings

end

theorem Expr.allSpellings_eq_flatMap (es : List (Expr σ)) :
    Expr.allSpellings es = es.flatMap Expr.spellings := by
  induction es with
  | nil => rfl
  | cons e es ih => simp [Expr.allSpellings, ih]

def Property.spellings (p : Property σ) : List (Name σ) := p.name :: p.datatype.spellings

def RelationBody.spellings (b : RelationBody σ) : List (Name σ) :=
  b.properties.flatMap Property.spellings

def ReverseEdge.spellings (r : ReverseEdge σ) : List (Name σ) := [r.name]

def Member.spellings : Member σ → List (Name σ)
  | .property p => p.spellings
  | .association a => a.name :: (a.target.spellings ++ a.reverse.toList.flatMap ReverseEdge.spellings ++
      a.body.toList.flatMap RelationBody.spellings)
  | .composition c =>
    c.name :: (c.target.spellings ++ c.reverse.toList.flatMap ReverseEdge.spellings)
  | .invariant i => i.constraint.spellings

def Declaration.spellings : Declaration σ → List (Name σ)
  | .type t =>
    t.name :: (t.parents.flatMap TypeRef.spellings ++ t.members.flatMap Member.spellings)
  | .datatype d => d.name :: d.datatype.type.spellings

def Import.spellings (i : Import σ) : List (Name σ) := i.alias_.toList

def SchemaUnit.spellings (u : SchemaUnit σ) : List (Name σ) :=
  u.imports.flatMap Import.spellings ++ u.declarations.flatMap Declaration.spellings

/-! ## Moving -/

section

variable (f : σ → τ)

@[simp] theorem TypeRef.spellings_map (r : TypeRef σ) :
    (r.map f).spellings = r.spellings.map (Name.map f) := by
  cases h : r.qualifier <;> simp [TypeRef.spellings, TypeRef.map, h]

mutual

theorem Builtin.spellings_map :
    (b : Builtin σ) → (b.map f).spellings = b.spellings.map (Name.map f)
  | .integer .. | .float .. | .boolean | .string .. | .enum _ | .pattern .. | .timestamp _
  | .vector _ | .date | .uuid => by simp [Builtin.map, Builtin.spellings]
  | .list element .. => by
    simp [Builtin.map, Builtin.spellings, DatatypeRef.spellings_map element]

@[simp] theorem DatatypeRef.spellings_map :
    (d : DatatypeRef σ) → (d.map f).spellings = d.spellings.map (Name.map f)
  | .builtin type _ => by
    simp [DatatypeRef.map, DatatypeRef.spellings, Builtin.spellings_map type]
  | .named _ => by simp [DatatypeRef.map, DatatypeRef.spellings]

end

mutual

@[simp] theorem Expr.spellings_map :
    (e : Expr σ) → (e.map f).spellings = e.spellings.map (Name.map f)
  | .literal .. | .dollar .. | .property .. | .relation .. | .datatype .. => by
    simp [Expr.map, Expr.spellings]
  | .list es _ => by simp [Expr.map, Expr.spellings, Expr.allSpellings_mapAll es]
  | .unary _ e _ => by simp [Expr.map, Expr.spellings, Expr.spellings_map e]
  | .binary _ l r _ => by
    simp [Expr.map, Expr.spellings, Expr.spellings_map l, Expr.spellings_map r]
  | .member e _ _ => by simp [Expr.map, Expr.spellings, Expr.spellings_map e]
  | .index e es _ => by
    simp [Expr.map, Expr.spellings, Expr.spellings_map e, Expr.allSpellings_mapAll es]
  | .ternary c t e _ => by
    simp [Expr.map, Expr.spellings, Expr.spellings_map c, Expr.spellings_map t,
      Expr.spellings_map e]
  | .pipeline s _ args params body _ => by
    have ha : Expr.argSpellings (Expr.mapArgs f args) =
        (Expr.argSpellings args).map (Name.map f) := by
      cases args with
      | none => rfl
      | some es => exact Expr.allSpellings_mapAll es
    have hb : Expr.bodySpellings (Expr.mapBody f body) =
        (Expr.bodySpellings body).map (Name.map f) := by
      cases body with
      | none => rfl
      | some e => exact Expr.spellings_map e
    have hp : ((params.map (List.map (Name.map f))).getD []).map Name.behindDollar =
        ((params.getD []).map Name.behindDollar).map (Name.map f) := by
      cases params with
      | none => rfl
      | some ps => simp [Name.behindDollar, Name.map, Function.comp_def]
    simp only [Expr.map, Expr.spellings, Expr.spellings_map s, ha, hb, hp, List.map_append,
      List.map_cons]

theorem Expr.allSpellings_mapAll :
    (es : List (Expr σ)) →
      Expr.allSpellings (Expr.mapAll f es) = (Expr.allSpellings es).map (Name.map f)
  | [] => rfl
  | e :: es => by
    simp [Expr.mapAll, Expr.allSpellings, Expr.spellings_map e, Expr.allSpellings_mapAll es]

end

@[simp] theorem Property.spellings_map (p : Property σ) :
    (p.map f).spellings = p.spellings.map (Name.map f) := by
  simp [Property.map, Property.spellings]

@[simp] theorem RelationBody.spellings_map (b : RelationBody σ) :
    (b.map f).spellings = b.spellings.map (Name.map f) := by
  simp [RelationBody.map, RelationBody.spellings, List.flatMap_map, List.map_flatMap]

@[simp] theorem Member.spellings_map (m : Member σ) :
    (m.map f).spellings = m.spellings.map (Name.map f) := by
  cases m with
  | property p => exact Property.spellings_map f p
  | association a =>
    cases hr : a.reverse <;> cases hb : a.body <;>
      simp [Member.map, Member.spellings, Association.map, ReverseEdge.map, ReverseEdge.spellings,
        hr, hb]
  | composition c =>
    cases hr : c.reverse <;>
      simp [Member.map, Member.spellings, Composition.map, ReverseEdge.map, ReverseEdge.spellings, hr]
  | invariant i => exact Expr.spellings_map f i.constraint

@[simp] theorem Declaration.spellings_map (d : Declaration σ) :
    (d.map f).spellings = d.spellings.map (Name.map f) := by
  cases d with
  | type t =>
    simp [Declaration.map, Declaration.spellings, TypeDecl.map, List.flatMap_map, List.map_flatMap]
  | datatype d =>
    simp [Declaration.map, Declaration.spellings, DatatypeDecl.map, PlacedBuiltin.map,
      Builtin.spellings_map]

@[simp] theorem Import.spellings_map (i : Import σ) :
    (i.map f).spellings = i.spellings.map (Name.map f) := by
  cases h : i.alias_ <;> simp [Import.map, Import.spellings, h]

theorem SchemaUnit.spellings_map (u : SchemaUnit σ) :
    (u.map f).spellings = u.spellings.map (Name.map f) := by
  simp [SchemaUnit.map, SchemaUnit.spellings, List.flatMap_map, List.map_flatMap]

end

end SchemaLang
