import Mathlib.Algebra.GroupWithZero.Nat
import Mathlib.Data.List.Perm.Basic
import SchemaLang.Schema.Walk

/-!
# What a walk meets

* `picked pick vs`: what `pick` takes of the nodes that are met, in their order.
* `DatatypeRef.typeRefs`: the reference that a datatype is or that the elements of a list are, at any
  depth.
* `Member.targets` and `Member.properties`: the targets of a relation, and the properties that a member is
  or has on its edges.
* `SchemaUnit.parents`, `SchemaUnit.targets` and `SchemaUnit.datatypeRefs`: the references of a unit by
  what they are for, found without a walk.
* `SchemaUnit.invariants`: all invariants of a unit.

A walk gathers the references in the order of the text, so those for one purpose come between those for
another. For each node the ones it holds itself come first, then those of its parts.

Main statements: a walk meets each reference of a unit once and no others (`SchemaUnit.perm_typeRefs`),
and it meets as many expressions as the invariants have (`SchemaUnit.exprCount_eq`).
-/

set_option autoImplicit false

namespace SchemaLang

variable {σ α β : Type}

/-! ## Picking from a walk -/

def picked (pick : Node σ → Option α) (vs : List (Visit σ)) : List α := vs.filterMap (pick ·.node)

section

variable {pick : Node σ → Option α} {vs ws : List (Visit σ)}

@[simp] theorem picked_nil : picked pick [] = [] := rfl

@[simp] theorem picked_cons (v : Visit σ) :
    picked pick (v :: vs) = (pick v.node).toList ++ picked pick vs := by
  cases h : pick v.node <;> simp [picked, h]

@[simp] theorem picked_append : picked pick (vs ++ ws) = picked pick vs ++ picked pick ws :=
  List.filterMap_append ..

@[simp] theorem picked_flatMap (as : List β) (walk : β → List (Visit σ)) :
    picked pick (as.flatMap walk) = as.flatMap fun a => picked pick (walk a) :=
  List.filterMap_flatMap ..

end

/-! ## Parts of a unit -/

mutual

def Builtin.typeRefs : Builtin σ → List (TypeRef σ)
  | .list element _ _ => element.typeRefs
  | _ => []

def DatatypeRef.typeRefs : DatatypeRef σ → List (TypeRef σ)
  | .builtin type _ => type.typeRefs
  | .named ref => [ref]

end

namespace Member

def targets : Member σ → List (TypeRef σ)
  | association a => [a.target]
  | composition c => [c.target]
  | property _ | invariant _ => []

def properties : Member σ → List (Property σ)
  | property p => [p]
  | association a => a.body.elim [] RelationBody.properties
  | composition _ | invariant _ => []

end Member

namespace TypeDecl

def targets (t : TypeDecl σ) : List (TypeRef σ) := t.members.flatMap Member.targets

def datatypeRefs (t : TypeDecl σ) : List (TypeRef σ) :=
  (t.members.flatMap Member.properties).flatMap fun p => p.datatype.typeRefs

end TypeDecl

namespace SchemaUnit

def parents (u : SchemaUnit σ) : List (TypeRef σ) := u.types.flatMap TypeDecl.parents

def targets (u : SchemaUnit σ) : List (TypeRef σ) := u.types.flatMap TypeDecl.targets

/-- Datatypes of properties, and of the elements of declared lists. -/
def datatypeRefs (u : SchemaUnit σ) : List (TypeRef σ) :=
  u.types.flatMap TypeDecl.datatypeRefs ++ u.datatypes.flatMap fun d => d.datatype.type.typeRefs

def invariants (u : SchemaUnit σ) : List (Invariant σ) := u.types.flatMap TypeDecl.invariants

end SchemaUnit

/-! ## References -/

section

variable {depth : Nat}

theorem typeRefs_name (n : Name σ) : picked Node.typeRef? (n.walk depth) = [] := rfl

theorem typeRefs_typeRef (r : TypeRef σ) : picked Node.typeRef? (r.walk depth) = [r] := rfl

mutual

theorem typeRefs_builtin (depth : Nat) :
    (b : Builtin σ) → picked Node.typeRef? (b.walk depth) = b.typeRefs
  | .list element _ _ => by
    simp [Builtin.walk, Builtin.typeRefs, Node.typeRef?, typeRefs_datatypeRef (depth + 1) element]
  | .integer .. | .float .. | .boolean | .string .. | .enum _ | .pattern .. | .timestamp _
  | .vector _ | .date | .uuid => by simp [Builtin.walk, Builtin.typeRefs, Node.typeRef?]

theorem typeRefs_datatypeRef (depth : Nat) :
    (d : DatatypeRef σ) → picked Node.typeRef? (d.walk depth) = d.typeRefs
  | .builtin type _ => by
    simp [DatatypeRef.walk, DatatypeRef.typeRefs, Node.typeRef?, typeRefs_builtin (depth + 1) type]
  | .named ref => by
    simp [DatatypeRef.walk, DatatypeRef.typeRefs, Node.typeRef?, typeRefs_typeRef]

end

mutual

/-- Expressions hold no references. -/
theorem typeRefs_expr (depth : Nat) :
    (e : Expr σ) → picked Node.typeRef? (e.walk depth) = []
  | .literal .. | .dollar .. | .property .. | .relation .. | .datatype .. => rfl
  | .list es _ => by simp [Expr.walk, Node.typeRef?, typeRefs_exprs (depth + 1) es]
  | .unary _ x _ => by simp [Expr.walk, Node.typeRef?, typeRefs_expr (depth + 1) x]
  | .binary _ l r _ => by
    simp [Expr.walk, Node.typeRef?, typeRefs_expr (depth + 1) l, typeRefs_expr (depth + 1) r]
  | .member x n _ => by
    simp [Expr.walk, Node.typeRef?, typeRefs_expr (depth + 1) x, typeRefs_name]
  | .index x es _ => by
    simp [Expr.walk, Node.typeRef?, typeRefs_expr (depth + 1) x, typeRefs_exprs (depth + 1) es]
  | .ternary c t x _ => by
    simp [Expr.walk, Node.typeRef?, typeRefs_expr (depth + 1) c, typeRefs_expr (depth + 1) t,
      typeRefs_expr (depth + 1) x]
  | .pipeline s _ args params body _ => by
    have ha : picked Node.typeRef? (Expr.walkArgs (depth + 1) args) = [] := by
      cases args with
      | none => rfl
      | some es => exact typeRefs_exprs (depth + 1) es
    have hb : picked Node.typeRef? (Expr.walkBody (depth + 1) body) = [] := by
      cases body with
      | none => rfl
      | some e => exact typeRefs_expr (depth + 1) e
    simp [Expr.walk, Node.typeRef?, typeRefs_expr (depth + 1) s, typeRefs_name, ha, hb]

theorem typeRefs_exprs (depth : Nat) :
    (es : List (Expr σ)) → picked Node.typeRef? (Expr.walkAll depth es) = []
  | [] => rfl
  | e :: es => by simp [Expr.walkAll, typeRefs_expr depth e, typeRefs_exprs depth es]

end

theorem typeRefs_property (p : Property σ) :
    picked Node.typeRef? (p.walk depth) = p.datatype.typeRefs := by
  simp [Property.walk, Node.typeRef?, typeRefs_name, typeRefs_datatypeRef]

theorem typeRefs_reverse (r : Option (ReverseEdge σ)) :
    picked Node.typeRef? (walkReverse depth r) = [] := by
  cases r <;> rfl

theorem typeRefs_member (m : Member σ) : picked Node.typeRef? (m.walk depth) =
    m.targets ++ m.properties.flatMap fun p => p.datatype.typeRefs := by
  cases m with
  | property p =>
    simp [Member.walk, Member.targets, Member.properties, Node.typeRef?, typeRefs_property]
  | association a =>
    cases hb : a.body <;>
      simp [Member.walk, Association.walk, Member.targets, Member.properties, Node.typeRef?, hb,
        walkRelationBody, typeRefs_name, typeRefs_typeRef, typeRefs_reverse, typeRefs_property]
  | composition c =>
    simp [Member.walk, Composition.walk, Member.targets, Member.properties, Node.typeRef?,
      typeRefs_name, typeRefs_typeRef, typeRefs_reverse]
  | invariant i =>
    simp [Member.walk, Invariant.walk, Member.targets, Member.properties, Node.typeRef?,
      typeRefs_expr]

/-- Of the members of a type, targets and datatypes come in turn. -/
theorem perm_typeRefs_type (depth : Nat) (t : TypeDecl σ) :
    (picked Node.typeRef? (t.walk depth)).Perm (t.parents ++ (t.targets ++ t.datatypeRefs)) := by
  have hmembers := t.members.flatMap_append_perm Member.targets
    fun m => m.properties.flatMap fun p => p.datatype.typeRefs
  rw [← List.flatMap_assoc] at hmembers
  have hwalk : picked Node.typeRef? (t.walk depth) = t.parents ++
      t.members.flatMap fun m => m.targets ++ m.properties.flatMap fun p => p.datatype.typeRefs := by
    simp [TypeDecl.walk, Node.typeRef?, typeRefs_name, typeRefs_typeRef, typeRefs_member]
  rw [hwalk]
  exact hmembers.symm.append_left t.parents

end

namespace SchemaUnit

/-- A walk of a unit picks nothing from its imports that it does not pick from the declarations. -/
theorem picked_walk {pick : Node σ → Option α} (hu : ∀ u, pick (.unit u) = none)
    (hi : ∀ i, pick (.import_ i) = none) (u : SchemaUnit σ) :
    picked pick u.walk = picked pick (u.declarations.flatMap (Declaration.walk 1)) := by
  simp [SchemaUnit.walk, Import.walk, hu, hi]

/-- **A walk finds all references.** The references that a walk of a unit gathers are the parents of its
types, the targets of their relations, and the datatypes by name of all properties and declared lists, each of
them as often as it stands there. -/
theorem perm_typeRefs (u : SchemaUnit σ) :
    u.typeRefs.Perm (u.parents ++ (u.targets ++ u.datatypeRefs)) := by
  classical
  have hwalk : u.typeRefs = _ := picked_walk (fun _ => rfl) (fun _ => rfl) u
  rw [hwalk, parents, targets, datatypeRefs, types, datatypes]
  generalize u.declarations = ds
  induction ds with
  | nil => exact .nil
  | cons d ds ih =>
    rw [List.perm_iff_count] at ih ⊢
    intro r
    have ih := ih r
    rw [List.flatMap_cons, picked_append]
    cases d with
    | type t =>
      have ht := (perm_typeRefs_type 2 t).count_eq r
      have hd : picked Node.typeRef? (Declaration.walk 1 (.type t)) =
          picked Node.typeRef? (t.walk 2) := rfl
      simp only [List.filterMap_cons, List.flatMap_cons, List.count_append, hd] at ih ht ⊢
      omega
    | datatype d =>
      have hd : picked Node.typeRef? (Declaration.walk 1 (.datatype d)) =
          d.datatype.type.typeRefs := by
        simp [Declaration.walk, DatatypeDecl.walk, Node.typeRef?, typeRefs_name, typeRefs_builtin]
      simp only [List.filterMap_cons, List.flatMap_cons, List.count_append, hd] at ih ⊢
      omega

end SchemaUnit

/-! ## Expressions -/

section

variable {depth : Nat}

theorem exprs_name (n : Name σ) : picked Node.expr? (n.walk depth) = [] := rfl

theorem exprs_typeRef (r : TypeRef σ) : picked Node.expr? (r.walk depth) = [] := rfl

mutual

theorem exprs_builtin (depth : Nat) : (b : Builtin σ) → picked Node.expr? (b.walk depth) = []
  | .list element _ _ => by
    simp [Builtin.walk, Node.expr?, exprs_datatypeRef (depth + 1) element]
  | .integer .. | .float .. | .boolean | .string .. | .enum _ | .pattern .. | .timestamp _
  | .vector _ | .date | .uuid => by simp [Builtin.walk, Node.expr?]

theorem exprs_datatypeRef (depth : Nat) :
    (d : DatatypeRef σ) → picked Node.expr? (d.walk depth) = []
  | .builtin type _ => by simp [DatatypeRef.walk, Node.expr?, exprs_builtin (depth + 1) type]
  | .named ref => by simp [DatatypeRef.walk, Node.expr?, exprs_typeRef]

end

theorem exprs_property (p : Property σ) : picked Node.expr? (p.walk depth) = [] := by
  simp [Property.walk, Node.expr?, exprs_name, exprs_datatypeRef]

theorem exprs_reverse (r : Option (ReverseEdge σ)) :
    picked Node.expr? (walkReverse depth r) = [] := by
  cases r <;> rfl

/-- Of the members of a type only invariants have expressions. -/
theorem exprs_member (m : Member σ) : picked Node.expr? (m.walk depth) =
    match m with
    | .invariant i => picked Node.expr? (i.constraint.walk (depth + 2))
    | _ => [] := by
  cases m with
  | property p => simp [Member.walk, Node.expr?, exprs_property]
  | association a =>
    cases hb : a.body <;>
      simp [Member.walk, Association.walk, Node.expr?, hb, walkRelationBody, exprs_name, exprs_typeRef,
        exprs_reverse, exprs_property]
  | composition c =>
    simp [Member.walk, Composition.walk, Node.expr?, exprs_name, exprs_typeRef, exprs_reverse]
  | invariant i => simp [Member.walk, Invariant.walk, Node.expr?]

theorem exprs_type (depth : Nat) (t : TypeDecl σ) : picked Node.expr? (t.walk depth) =
    t.invariants.flatMap fun i => picked Node.expr? (i.constraint.walk (depth + 3)) := by
  have hwalk : picked Node.expr? (t.walk depth) =
      t.members.flatMap fun m => picked Node.expr? (m.walk (depth + 1)) := by
    simp [TypeDecl.walk, Node.expr?, exprs_name, exprs_typeRef]
  rw [hwalk, TypeDecl.invariants]
  induction t.members with
  | nil => rfl
  | cons m ms ih =>
    rw [List.flatMap_cons, ih, exprs_member]
    cases m <;> simp

end

namespace SchemaUnit

/-- The expressions that a walk meets are those in the invariants. -/
theorem exprs_walk (u : SchemaUnit σ) : picked Node.expr? u.walk =
    u.invariants.flatMap fun i => picked Node.expr? (i.constraint.walk 5) := by
  rw [picked_walk (fun _ => rfl) (fun _ => rfl), invariants, types]
  induction u.declarations with
  | nil => rfl
  | cons d ds ih =>
    rw [List.flatMap_cons, picked_append, ih]
    cases d with
    | type t =>
      have ht : picked Node.expr? (Declaration.walk 1 (.type t)) = _ := exprs_type 2 t
      simp [ht]
    | datatype d =>
      simp [Declaration.walk, DatatypeDecl.walk, Node.expr?, exprs_name, exprs_builtin]

/-- **A walk counts all expressions.** The number of expressions that a walk of a unit meets is that of all
expressions in its invariants, parts of expressions too. -/
theorem exprCount_eq (u : SchemaUnit σ) :
    u.exprCount = (u.invariants.map fun i => i.constraint.size).sum := by
  have hwalk : u.exprCount = (picked Node.expr? u.walk).length := rfl
  have hsize (i : Invariant σ) : (picked Node.expr? (i.constraint.walk 5)).length = i.constraint.size :=
    Expr.length_filterMap_walk 5 i.constraint
  simp [hwalk, exprs_walk, List.length_flatMap, hsize]

end SchemaUnit

end SchemaLang
