import SchemaLang.Schema.Unit

/-!
# Trees of places

A schema tree without all that is not a place: each node has a place, and below it the trees of its
parts in the order of the text.

* `PlaceTree` are such trees; `X.placeTree` is the tree of an `X` of a schema. A unit has the entries of
  its body in an order of their own, so it only has trees of its parts.
* `PlaceOrder` says which places lie within others, and which lie before others.
* `PlaceTree.Nested`: every node lies within its parent, and before the siblings behind it.

Main statements: moving a schema tree moves its tree of places (`Expr.placeTree_map` and the like), and a
tree stays nested if it is moved in a way that keeps the order of its places (`PlaceTree.Nested.map`).
-/

set_option autoImplicit false

namespace SchemaLang

inductive PlaceTree (σ : Type) where
  | node (place : σ) (parts : List (PlaceTree σ))

structure PlaceOrder (σ : Type) where
  within : σ → σ → Prop
  before : σ → σ → Prop

variable {σ τ : Type}

namespace PlaceTree

def place : PlaceTree σ → σ
  | node p _ => p

def parts : PlaceTree σ → List (PlaceTree σ)
  | node _ ts => ts

def leaf (p : σ) : PlaceTree σ := node p []

def map (f : σ → τ) : PlaceTree σ → PlaceTree τ
  | node p ts => node (f p) (ts.map (map f))

@[simp] theorem place_node (p : σ) (ts : List (PlaceTree σ)) : (node p ts).place = p := rfl

@[simp] theorem place_leaf (p : σ) : (leaf p).place = p := rfl

@[simp] theorem map_node (f : σ → τ) (p : σ) (ts : List (PlaceTree σ)) :
    (node p ts).map f = node (f p) (ts.map (map f)) := by
  simp [map]

@[simp] theorem map_leaf (f : σ → τ) (p : σ) : (leaf p).map f = leaf (f p) := map_node f p []

@[simp] theorem place_map (f : σ → τ) (t : PlaceTree σ) : (t.map f).place = f t.place := by
  cases t
  simp

inductive Nested (o : PlaceOrder σ) : PlaceTree σ → Prop where
  | node {p : σ} {ts : List (PlaceTree σ)} :
      (∀ t ∈ ts, Nested o t) → (∀ t ∈ ts, o.within t.place p) →
        ts.Pairwise (fun t u => o.before t.place u.place) → Nested o (node p ts)

theorem nested_leaf (o : PlaceOrder σ) (p : σ) : (leaf p).Nested o := .node nofun nofun .nil

/-- A tree is moved part by part. What is known of the root's place is known of all places, if it is
known of all that lie within. -/
theorem Nested.map {o : PlaceOrder σ} {o' : PlaceOrder τ} {f : σ → τ} {known : σ → Prop}
    (hknown : ∀ p q, o.within p q → known q → known p)
    (hwithin : ∀ p q, o.within p q → known q → o'.within (f p) (f q))
    (hbefore : ∀ p q, o.before p q → known p → known q → o'.before (f p) (f q))
    {t : PlaceTree σ} (h : t.Nested o) (ht : known t.place) : (t.map f).Nested o' := by
  induction h with
  | @node p ts _ hw hb ih =>
    have hts : ∀ t ∈ ts, known t.place := fun t ht' => hknown _ _ (hw t ht') ht
    rw [map_node]
    refine .node ?_ ?_ ?_
    · simp only [List.mem_map, forall_exists_index, and_imp, forall_apply_eq_imp_iff₂]
      exact fun t ht' => ih t ht' (hts t ht')
    · simp only [List.mem_map, forall_exists_index, and_imp, forall_apply_eq_imp_iff₂, place_map]
      exact fun t ht' => hwithin _ _ (hw t ht') ht
    · rw [List.pairwise_map]
      refine List.Pairwise.imp_of_mem (fun {t u} ht' hu h => ?_) hb
      simpa using hbefore _ _ h (hts t ht') (hts u hu)

end PlaceTree

open PlaceTree

/-! ## Names and references -/

def Name.placeTree (n : Name σ) : PlaceTree σ := leaf n.place

def TypeRef.placeTree (r : TypeRef σ) : PlaceTree σ :=
  node r.place (r.qualifier.toList.map Name.placeTree ++ [r.name.placeTree])

/-! ## Datatypes -/

mutual

/-- A built-in datatype has a part with a place only if it is a list. -/
def Builtin.placeTrees : Builtin σ → List (PlaceTree σ)
  | .list element _ _ => [element.placeTree]
  | _ => []

def DatatypeRef.placeTree : DatatypeRef σ → PlaceTree σ
  | .builtin type place => node place type.placeTrees
  | .named ref => ref.placeTree

end

def PlacedBuiltin.placeTree (b : PlacedBuiltin σ) : PlaceTree σ := node b.place b.type.placeTrees

/-! ## Expressions -/

mutual

def Expr.placeTree : Expr σ → PlaceTree σ
  | .literal _ p | .dollar _ p | .property _ p | .relation _ p | .datatype _ p => leaf p
  | .list es p => node p (Expr.placeTrees es)
  | .unary _ e p => node p [e.placeTree]
  | .binary _ l r p => node p [l.placeTree, r.placeTree]
  | .member e n p => node p [e.placeTree, n.placeTree]
  | .index e es p => node p (e.placeTree :: Expr.placeTrees es)
  | .ternary c t e p => node p [c.placeTree, t.placeTree, e.placeTree]
  | .pipeline s f args params body p =>
    node p (s.placeTree :: f.placeTree :: (Expr.argPlaceTrees args ++
      (params.getD []).map Name.placeTree ++ Expr.bodyPlaceTrees body))

def Expr.placeTrees : List (Expr σ) → List (PlaceTree σ)
  | [] => []
  | e :: es => e.placeTree :: Expr.placeTrees es

def Expr.argPlaceTrees : Option (List (Expr σ)) → List (PlaceTree σ)
  | none => []
  | some es => Expr.placeTrees es

def Expr.bodyPlaceTrees : Option (Expr σ) → List (PlaceTree σ)
  | none => []
  | some e => [e.placeTree]

end

theorem Expr.placeTrees_eq_map (es : List (Expr σ)) : Expr.placeTrees es = es.map Expr.placeTree := by
  induction es with
  | nil => rfl
  | cons e es ih => simp [Expr.placeTrees, ih]

/-! ## Members -/

def Property.placeTree (p : Property σ) : PlaceTree σ :=
  node p.place [p.name.placeTree, p.datatype.placeTree]

def ReverseEdge.placeTree (r : ReverseEdge σ) : PlaceTree σ := node r.place [r.name.placeTree]

def RelationBody.placeTree (b : RelationBody σ) : PlaceTree σ :=
  node b.place (b.properties.map Property.placeTree)

def Association.placeTree (a : Association σ) : PlaceTree σ :=
  node a.place (a.name.placeTree :: a.target.placeTree ::
    (a.reverse.toList.map ReverseEdge.placeTree ++ a.body.toList.map RelationBody.placeTree))

def Composition.placeTree (c : Composition σ) : PlaceTree σ :=
  node c.place (c.name.placeTree :: c.target.placeTree ::
    c.reverse.toList.map ReverseEdge.placeTree)

def Invariant.placeTree (i : Invariant σ) : PlaceTree σ := node i.place [i.constraint.placeTree]

def Member.placeTree : Member σ → PlaceTree σ
  | .property p => p.placeTree
  | .association a => a.placeTree
  | .composition c => c.placeTree
  | .invariant i => i.placeTree

/-! ## Units -/

def Import.placeTree (i : Import σ) : PlaceTree σ :=
  node i.place (i.alias_.toList.map Name.placeTree)

def TypeDecl.placeTree (t : TypeDecl σ) : PlaceTree σ :=
  node t.place (t.name.placeTree ::
    (t.parents.map TypeRef.placeTree ++ t.members.map Member.placeTree))

def DatatypeDecl.placeTree (d : DatatypeDecl σ) : PlaceTree σ :=
  node d.place [d.name.placeTree, d.datatype.placeTree]

def Declaration.placeTree : Declaration σ → PlaceTree σ
  | .type t => t.placeTree
  | .datatype d => d.placeTree

theorem Declaration.place_placeTree (d : Declaration σ) : d.placeTree.place = d.place := by
  cases d <;> rfl

/-- The unit as a tree, with its imports and declarations in the order of `entries`. -/
def SchemaUnit.placeTree (u : SchemaUnit σ) (entries : List (PlaceTree σ)) : PlaceTree σ :=
  node u.place (u.header.toList.map leaf ++ entries)

/-- The unit as a tree is nested, if its imports and declarations are taken together in the order of
the text. -/
def SchemaUnit.Nested (o : PlaceOrder σ) (u : SchemaUnit σ) : Prop :=
  ∃ entries : List (PlaceTree σ),
    entries.Perm (u.imports.map Import.placeTree ++ u.declarations.map Declaration.placeTree) ∧
      (u.imports.map Import.placeTree).Sublist entries ∧
        (u.declarations.map Declaration.placeTree).Sublist entries ∧
          (u.placeTree entries).Nested o

/-! ## Moving -/

section

variable (f : σ → τ)

@[simp] theorem Name.placeTree_map (n : Name σ) : (n.map f).placeTree = n.placeTree.map f := by
  simp [Name.placeTree, Name.map]

@[simp] theorem TypeRef.placeTree_map (r : TypeRef σ) :
    (r.map f).placeTree = r.placeTree.map f := by
  cases h : r.qualifier <;> simp [TypeRef.placeTree, TypeRef.map, h]

mutual

theorem Builtin.placeTrees_map :
    (b : Builtin σ) → (b.map f).placeTrees = b.placeTrees.map (PlaceTree.map f)
  | .integer .. | .float .. | .boolean | .string .. | .enum _ | .pattern .. | .timestamp _
  | .vector _ | .date | .uuid => by simp [Builtin.map, Builtin.placeTrees]
  | .list element .. => by
    simp [Builtin.map, Builtin.placeTrees, DatatypeRef.placeTree_map element]

@[simp] theorem DatatypeRef.placeTree_map :
    (d : DatatypeRef σ) → (d.map f).placeTree = d.placeTree.map f
  | .builtin type _ => by
    simp [DatatypeRef.map, DatatypeRef.placeTree, Builtin.placeTrees_map type]
  | .named _ => by simp [DatatypeRef.map, DatatypeRef.placeTree]

end

@[simp] theorem PlacedBuiltin.placeTree_map (b : PlacedBuiltin σ) :
    (b.map f).placeTree = b.placeTree.map f := by
  simp [PlacedBuiltin.placeTree, PlacedBuiltin.map, Builtin.placeTrees_map]

mutual

@[simp] theorem Expr.placeTree_map :
    (e : Expr σ) → (e.map f).placeTree = e.placeTree.map f
  | .literal .. | .dollar .. | .property .. | .relation .. | .datatype .. => by
    simp [Expr.map, Expr.placeTree]
  | .list es _ => by simp [Expr.map, Expr.placeTree, Expr.placeTrees_mapAll es]
  | .unary _ e _ => by simp [Expr.map, Expr.placeTree, Expr.placeTree_map e]
  | .binary _ l r _ => by
    simp [Expr.map, Expr.placeTree, Expr.placeTree_map l, Expr.placeTree_map r]
  | .member e _ _ => by simp [Expr.map, Expr.placeTree, Expr.placeTree_map e]
  | .index e es _ => by
    simp [Expr.map, Expr.placeTree, Expr.placeTree_map e, Expr.placeTrees_mapAll es]
  | .ternary c t e _ => by
    simp [Expr.map, Expr.placeTree, Expr.placeTree_map c, Expr.placeTree_map t,
      Expr.placeTree_map e]
  | .pipeline s _ args params body _ => by
    have ha : Expr.argPlaceTrees (Expr.mapArgs f args) =
        (Expr.argPlaceTrees args).map (PlaceTree.map f) := by
      cases args with
      | none => rfl
      | some es => exact Expr.placeTrees_mapAll es
    have hb : Expr.bodyPlaceTrees (Expr.mapBody f body) =
        (Expr.bodyPlaceTrees body).map (PlaceTree.map f) := by
      cases body with
      | none => rfl
      | some e => simp [Expr.mapBody, Expr.bodyPlaceTrees, Expr.placeTree_map e]
    have hp : ((params.map (List.map (Name.map f))).getD []).map Name.placeTree =
        ((params.getD []).map Name.placeTree).map (PlaceTree.map f) := by
      cases params <;> simp
    simp [Expr.map, Expr.placeTree, Expr.placeTree_map s, ha, hb, hp]

theorem Expr.placeTrees_mapAll :
    (es : List (Expr σ)) →
      Expr.placeTrees (Expr.mapAll f es) = (Expr.placeTrees es).map (PlaceTree.map f)
  | [] => rfl
  | e :: es => by
    simp [Expr.mapAll, Expr.placeTrees, Expr.placeTree_map e, Expr.placeTrees_mapAll es]

end

@[simp] theorem Property.placeTree_map (p : Property σ) :
    (p.map f).placeTree = p.placeTree.map f := by
  simp [Property.placeTree, Property.map]

@[simp] theorem ReverseEdge.placeTree_map (r : ReverseEdge σ) :
    (r.map f).placeTree = r.placeTree.map f := by
  simp [ReverseEdge.placeTree, ReverseEdge.map]

@[simp] theorem RelationBody.placeTree_map (b : RelationBody σ) :
    (b.map f).placeTree = b.placeTree.map f := by
  simp [RelationBody.placeTree, RelationBody.map]

@[simp] theorem Member.placeTree_map (m : Member σ) : (m.map f).placeTree = m.placeTree.map f := by
  cases m with
  | property p => simp [Member.map, Member.placeTree]
  | association a =>
    cases hr : a.reverse <;> cases hb : a.body <;>
      simp [Member.map, Member.placeTree, Association.placeTree, Association.map, hr, hb]
  | composition c =>
    cases hr : c.reverse <;>
      simp [Member.map, Member.placeTree, Composition.placeTree, Composition.map, hr]
  | invariant i => simp [Member.map, Member.placeTree, Invariant.placeTree, Invariant.map]

@[simp] theorem Import.placeTree_map (i : Import σ) : (i.map f).placeTree = i.placeTree.map f := by
  cases h : i.alias_ <;> simp [Import.placeTree, Import.map, h]

@[simp] theorem Declaration.placeTree_map (d : Declaration σ) :
    (d.map f).placeTree = d.placeTree.map f := by
  cases d with
  | type t =>
    simp [Declaration.map, Declaration.placeTree, TypeDecl.map, TypeDecl.placeTree,
      Function.comp_def]
  | datatype d =>
    simp [Declaration.map, Declaration.placeTree, DatatypeDecl.map, DatatypeDecl.placeTree]

/-- A unit stays nested if it is moved in a way that keeps the order of its places. -/
theorem SchemaUnit.Nested.map {o : PlaceOrder σ} {o' : PlaceOrder τ} (known : σ → Prop)
    (hknown : ∀ p q, o.within p q → known q → known p)
    (hwithin : ∀ p q, o.within p q → known q → o'.within (f p) (f q))
    (hbefore : ∀ p q, o.before p q → known p → known q → o'.before (f p) (f q))
    {u : SchemaUnit σ} (h : u.Nested o) (hu : known u.place) : (u.map f).Nested o' := by
  obtain ⟨entries, hperm, hi, hd, hn⟩ := h
  refine ⟨entries.map (PlaceTree.map f), ?_, ?_, ?_, ?_⟩
  · simpa [SchemaUnit.map, Function.comp_def] using hperm.map (PlaceTree.map f)
  · simpa [SchemaUnit.map, Function.comp_def] using hi.map (PlaceTree.map f)
  · simpa [SchemaUnit.map, Function.comp_def] using hd.map (PlaceTree.map f)
  · have := hn.map hknown hwithin hbefore hu
    cases hh : u.header <;>
      simpa [SchemaUnit.placeTree, SchemaUnit.map, hh] using this

end

end SchemaLang
