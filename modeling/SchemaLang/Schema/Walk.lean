import SchemaLang.Schema.Unit

/-!
# Walking a unit

A walk meets every node of a tree before the nodes below it, in the order of the text.

* `Node` is a node of any kind, `Visit` a node with its depth.
* `SchemaUnit.walk` is the walk of a unit, and `X.walk` that of the part of a unit in an `X`.
* `SchemaUnit.typeRefs` are the type references that it meets, `SchemaUnit.exprCount` the number of
  its expressions.

Main statement: `Expr.length_filterMap_walk`, a walk meets as many expressions as `Expr.size` counts.
-/

set_option autoImplicit false

namespace SchemaLang

inductive Node (σ : Type) where
  | unit (u : SchemaUnit σ)
  | import_ (i : Import σ)
  | declaration (d : Declaration σ)
  | type (t : TypeDecl σ)
  | datatype (d : DatatypeDecl σ)
  | member (m : Member σ)
  | property (p : Property σ)
  | association (a : Association σ)
  | composition (c : Composition σ)
  | invariant (i : Invariant σ)
  | datatypeRef (d : DatatypeRef σ)
  | builtin (b : Builtin σ)
  | typeRef (r : TypeRef σ)
  | expr (e : Expr σ)
  | name (n : Name σ)

variable {σ : Type}

namespace Node

def typeRef? : Node σ → Option (TypeRef σ)
  | typeRef r => some r
  | _ => none

def expr? : Node σ → Option (Expr σ)
  | expr e => some e
  | _ => none

@[simp] theorem expr?_expr (e : Expr σ) : (expr e).expr? = some e := rfl

@[simp] theorem expr?_name (n : Name σ) : (name n).expr? = none := rfl

end Node

structure Visit (σ : Type) where
  depth : Nat
  node : Node σ

def Name.walk (depth : Nat) (n : Name σ) : List (Visit σ) := [⟨depth, .name n⟩]

def TypeRef.walk (depth : Nat) (r : TypeRef σ) : List (Visit σ) := [⟨depth, .typeRef r⟩]

def Import.walk (depth : Nat) (i : Import σ) : List (Visit σ) := [⟨depth, .import_ i⟩]

mutual

/-- A built-in datatype has something below it only if it is a list. -/
def Builtin.walk (depth : Nat) (b : Builtin σ) : List (Visit σ) :=
  ⟨depth, .builtin b⟩ ::
    match b with
    | .list element _ _ => element.walk (depth + 1)
    | _ => []

def DatatypeRef.walk (depth : Nat) (d : DatatypeRef σ) : List (Visit σ) :=
  ⟨depth, .datatypeRef d⟩ ::
    match d with
    | .builtin type _ => type.walk (depth + 1)
    | .named ref => ref.walk (depth + 1)

end

mutual

def Expr.walk (depth : Nat) (e : Expr σ) : List (Visit σ) :=
  ⟨depth, .expr e⟩ ::
    match e with
    | .literal .. | .dollar .. | .property .. | .relation .. | .datatype .. => []
    | .list es _ => Expr.walkAll (depth + 1) es
    | .unary _ x _ => x.walk (depth + 1)
    | .binary _ l r _ => l.walk (depth + 1) ++ r.walk (depth + 1)
    | .member x n _ => x.walk (depth + 1) ++ n.walk (depth + 1)
    | .index x es _ => x.walk (depth + 1) ++ Expr.walkAll (depth + 1) es
    | .ternary c t x _ => c.walk (depth + 1) ++ t.walk (depth + 1) ++ x.walk (depth + 1)
    | .pipeline s f args params body _ =>
      s.walk (depth + 1) ++ f.walk (depth + 1) ++ Expr.walkArgs (depth + 1) args ++
        (params.getD []).flatMap (Name.walk (depth + 1)) ++ Expr.walkBody (depth + 1) body

def Expr.walkAll (depth : Nat) : List (Expr σ) → List (Visit σ)
  | [] => []
  | e :: es => e.walk depth ++ Expr.walkAll depth es

def Expr.walkArgs (depth : Nat) : Option (List (Expr σ)) → List (Visit σ)
  | none => []
  | some es => Expr.walkAll depth es

def Expr.walkBody (depth : Nat) : Option (Expr σ) → List (Visit σ)
  | none => []
  | some e => e.walk depth

end

def Property.walk (depth : Nat) (p : Property σ) : List (Visit σ) :=
  ⟨depth, .property p⟩ :: (p.name.walk (depth + 1) ++ p.datatype.walk (depth + 1))

/-- Of a reverse edge the walk meets the name. -/
def walkReverse (depth : Nat) : Option (ReverseEdge σ) → List (Visit σ)
  | none => []
  | some r => r.name.walk depth

/-- Of the body of a relation the walk meets the properties. -/
def walkRelationBody (depth : Nat) : Option (RelationBody σ) → List (Visit σ)
  | none => []
  | some b => b.properties.flatMap (Property.walk depth)

def Association.walk (depth : Nat) (a : Association σ) : List (Visit σ) :=
  ⟨depth, .association a⟩ ::
    (a.name.walk (depth + 1) ++ a.target.walk (depth + 1) ++ walkReverse (depth + 1) a.reverse ++
      walkRelationBody (depth + 1) a.body)

def Composition.walk (depth : Nat) (c : Composition σ) : List (Visit σ) :=
  ⟨depth, .composition c⟩ ::
    (c.name.walk (depth + 1) ++ c.target.walk (depth + 1) ++ walkReverse (depth + 1) c.reverse)

def Invariant.walk (depth : Nat) (i : Invariant σ) : List (Visit σ) :=
  ⟨depth, .invariant i⟩ :: i.constraint.walk (depth + 1)

def Member.walk (depth : Nat) (m : Member σ) : List (Visit σ) :=
  ⟨depth, .member m⟩ ::
    match m with
    | .property p => p.walk (depth + 1)
    | .association a => a.walk (depth + 1)
    | .composition c => c.walk (depth + 1)
    | .invariant i => i.walk (depth + 1)

def TypeDecl.walk (depth : Nat) (t : TypeDecl σ) : List (Visit σ) :=
  ⟨depth, .type t⟩ ::
    (t.name.walk (depth + 1) ++ t.parents.flatMap (TypeRef.walk (depth + 1)) ++
      t.members.flatMap (Member.walk (depth + 1)))

def DatatypeDecl.walk (depth : Nat) (d : DatatypeDecl σ) : List (Visit σ) :=
  ⟨depth, .datatype d⟩ :: (d.name.walk (depth + 1) ++ d.datatype.type.walk (depth + 1))

def Declaration.walk (depth : Nat) (d : Declaration σ) : List (Visit σ) :=
  ⟨depth, .declaration d⟩ ::
    match d with
    | .type t => t.walk (depth + 1)
    | .datatype x => x.walk (depth + 1)

namespace SchemaUnit

def walk (u : SchemaUnit σ) : List (Visit σ) :=
  ⟨0, .unit u⟩ :: (u.imports.flatMap (Import.walk 1) ++ u.declarations.flatMap (Declaration.walk 1))

/-- The type references of a unit in the order of the text: parents, targets of relations, and
declared datatypes of properties. -/
def typeRefs (u : SchemaUnit σ) : List (TypeRef σ) := u.walk.filterMap (·.node.typeRef?)

/-- The number of expressions in the invariants of a unit, with all their parts. -/
def exprCount (u : SchemaUnit σ) : Nat := (u.walk.filterMap (·.node.expr?)).length

end SchemaUnit

mutual

/-- The number of expressions in an expression, itself included. -/
def Expr.size : Expr σ → Nat
  | .literal .. | .dollar .. | .property .. | .relation .. | .datatype .. => 1
  | .list es _ => Expr.sizeAll es + 1
  | .unary _ x _ => x.size + 1
  | .binary _ l r _ => l.size + r.size + 1
  | .member x _ _ => x.size + 1
  | .index x es _ => x.size + Expr.sizeAll es + 1
  | .ternary c t x _ => c.size + t.size + x.size + 1
  | .pipeline s _ args _ body _ => s.size + Expr.sizeArgs args + Expr.sizeBody body + 1

def Expr.sizeAll : List (Expr σ) → Nat
  | [] => 0
  | e :: es => e.size + Expr.sizeAll es

def Expr.sizeArgs : Option (List (Expr σ)) → Nat
  | none => 0
  | some es => Expr.sizeAll es

def Expr.sizeBody : Option (Expr σ) → Nat
  | none => 0
  | some e => e.size

end

/-- Names hold no expressions. -/
theorem filterMap_expr?_names (depth : Nat) (ns : List (Name σ)) :
    (ns.flatMap (Name.walk depth)).filterMap (·.node.expr?) = [] := by
  induction ns with
  | nil => rfl
  | cons n ns ih =>
    rw [List.flatMap_cons, List.filterMap_append, ih]
    rfl

mutual

/-- A walk meets every expression once. -/
theorem Expr.length_filterMap_walk (depth : Nat) :
    (e : Expr σ) → ((e.walk depth).filterMap (·.node.expr?)).length = e.size
  | .literal .. | .dollar .. | .property .. | .relation .. | .datatype .. => by
    simp [Expr.walk, Expr.size]
  | .list es _ => by
    simp [Expr.walk, Expr.size, Expr.length_filterMap_walkAll (depth + 1) es]
  | .unary _ x _ => by
    simp [Expr.walk, Expr.size, Expr.length_filterMap_walk (depth + 1) x]
  | .binary _ l r _ => by
    simp [Expr.walk, Expr.size, Expr.length_filterMap_walk (depth + 1) l,
      Expr.length_filterMap_walk (depth + 1) r]
  | .member x n _ => by
    simp [Expr.walk, Expr.size, Name.walk, Expr.length_filterMap_walk (depth + 1) x]
  | .index x es _ => by
    simp [Expr.walk, Expr.size, Expr.length_filterMap_walk (depth + 1) x,
      Expr.length_filterMap_walkAll (depth + 1) es]
  | .ternary c t x _ => by
    simp [Expr.walk, Expr.size, Expr.length_filterMap_walk (depth + 1) c,
      Expr.length_filterMap_walk (depth + 1) t, Expr.length_filterMap_walk (depth + 1) x,
      Nat.add_assoc]
  | .pipeline s f args params body _ => by
    have hs := Expr.length_filterMap_walk (depth + 1) s
    have ha : ((Expr.walkArgs (depth + 1) args).filterMap (·.node.expr?)).length =
        Expr.sizeArgs args := by
      cases args with
      | none => rfl
      | some es => exact Expr.length_filterMap_walkAll (depth + 1) es
    have hb : ((Expr.walkBody (depth + 1) body).filterMap (·.node.expr?)).length =
        Expr.sizeBody body := by
      cases body with
      | none => rfl
      | some e => exact Expr.length_filterMap_walk (depth + 1) e
    have hp := filterMap_expr?_names (depth + 1) (params.getD [])
    simp only [Expr.walk, List.filterMap_cons, List.filterMap_append, Node.expr?_expr,
      Node.expr?_name, hp, List.append_nil, Name.walk, List.filterMap_nil, List.length_cons, List.length_append,
      Expr.size] at hs ha hb ⊢
    omega

theorem Expr.length_filterMap_walkAll (depth : Nat) :
    (es : List (Expr σ)) →
      ((Expr.walkAll depth es).filterMap (·.node.expr?)).length = Expr.sizeAll es
  | [] => rfl
  | e :: es => by
    simp [Expr.walkAll, Expr.sizeAll, Expr.length_filterMap_walk depth e,
      Expr.length_filterMap_walkAll depth es]

end

end SchemaLang
