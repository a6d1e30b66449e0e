import SchemaLang.Proofs.Located.Lexical
import SchemaLang.Proofs.Nested.Reading
import SchemaLang.Proofs.Walked.Parts

/-!
# The order of a walk

* `Node.leaf?`: the place of a name, of a reference, or of an expression without parts.
* `PlaceTree.Front ts ps`: `ps` are places of the trees `ts` from left to right, where each tree gives its
  root or what its parts give.
* `PlaceOrder.Lawful`: what lies within places that lie one before the other lies so as well.
* `Span.strictOrder`: the order of spans that are not empty.

A walk goes to the parts of a node in the order in which they have been read, so the leaves that it meets are
a front of the tree of places. In a nested tree the places of a front lie one before the other.

Main statement: whatever a source holds, a walk of what is read from it meets each reference once, counts all
expressions, and comes to its leaves in the order of the text (`Registry.walk_of_find`).
-/

set_option autoImplicit false

namespace SchemaLang

variable {σ α : Type}

/-! ## Leaves -/

def Expr.isChildless : Expr σ → Bool
  | .literal .. | .list [] _ | .dollar .. | .property .. | .relation .. | .datatype .. => true
  | _ => false

def Node.leaf? : Node σ → Option σ
  | name n => some n.place
  | typeRef r => some r.place
  | expr e => if e.isChildless then some e.place else none
  | _ => none

/-- The references of a walk are some of its leaves. -/
theorem sublist_leaves (vs : List (Visit σ)) :
    ((picked Node.typeRef? vs).map TypeRef.place).Sublist (picked Node.leaf? vs) := by
  induction vs with
  | nil => exact .slnil
  | cons v vs ih =>
    rw [picked_cons, picked_cons, List.map_append]
    refine List.Sublist.append ?_ ih
    cases h : v.node <;> simp [Node.typeRef?, Node.leaf?]

/-! ## Fronts -/

namespace PlaceTree

inductive Front : List (PlaceTree σ) → List σ → Prop where
  | nil : Front [] []
  | root {t : PlaceTree σ} {ts : List (PlaceTree σ)} {ps : List σ} :
      Front ts ps → Front (t :: ts) (t.place :: ps)
  | parts {p : σ} {us ts : List (PlaceTree σ)} {ps qs : List σ} :
      Front us ps → Front ts qs → Front (node p us :: ts) (ps ++ qs)

namespace Front

variable {ts us : List (PlaceTree σ)} {ps qs : List σ}

theorem append (h : Front ts ps) (h' : Front us qs) : Front (ts ++ us) (ps ++ qs) := by
  induction h with
  | nil => exact h'
  | root _ ih => exact .root ih
  | parts hparts _ _ ih =>
    rw [List.append_assoc]
    exact .parts hparts ih

theorem leaf (p : σ) : Front [PlaceTree.leaf p] [p] := .root .nil

theorem node (p : σ) (h : Front ts ps) : Front [PlaceTree.node p ts] ps := by
  simpa using Front.parts (p := p) h .nil

theorem flatMap {tree : α → PlaceTree σ} {places : α → List σ} {as : List α}
    (h : ∀ a ∈ as, Front [tree a] (places a)) : Front (as.map tree) (as.flatMap places) := by
  induction as with
  | nil => exact .nil
  | cons a as ih =>
    rw [List.forall_mem_cons] at h
    exact h.1.append (ih h.2)

end Front

end PlaceTree

open PlaceTree

/-! ### Fronts of nested trees -/

structure PlaceOrder.Lawful (o : PlaceOrder σ) : Prop where
  within_self {p q : σ} : o.within p q → o.within p p
  within_trans {p q r : σ} : o.within p q → o.within q r → o.within p r
  before_of_within {p q p' q' : σ} :
    o.before p q → o.within p' p → o.within q' q → o.before p' q'

/-- The places of a front lie within its trees, and so one before the other. -/
theorem PlaceTree.Front.pairwise {o : PlaceOrder σ} (ho : o.Lawful) {ts : List (PlaceTree σ)} {ps : List σ}
    (h : Front ts ps) (hnested : ∀ t ∈ ts, t.Nested o) (hself : ∀ t ∈ ts, o.within t.place t.place)
    (hts : ts.Pairwise fun t u => o.before t.place u.place) :
    (∀ p ∈ ps, ∃ t ∈ ts, o.within p t.place) ∧ ps.Pairwise o.before := by
  induction h with
  | nil => exact ⟨nofun, .nil⟩
  | @root t ts ps _ ih =>
    rw [List.forall_mem_cons] at hnested hself
    rw [List.pairwise_cons] at hts
    obtain ⟨hin, hpairwise⟩ := ih hnested.2 hself.2 hts.2
    refine ⟨List.forall_mem_cons.2 ⟨⟨t, by simp, hself.1⟩, fun p hp => ?_⟩,
      .cons (fun p hp => ?_) hpairwise⟩
    · obtain ⟨u, hu, hpu⟩ := hin p hp
      exact ⟨u, by simp [hu], hpu⟩
    · obtain ⟨u, hu, hpu⟩ := hin p hp
      exact ho.before_of_within (hts.1 u hu) hself.1 hpu
  | @parts p us ts ps qs _ _ ihparts ih =>
    rw [List.forall_mem_cons] at hnested hself
    rw [List.pairwise_cons] at hts
    obtain ⟨hin, hpairwise⟩ := ih hnested.2 hself.2 hts.2
    obtain ⟨hus, hwithin, hbefore⟩ := hnested.1
    obtain ⟨hparts, hpairs⟩ := ihparts hus (fun u hu => ho.within_self (hwithin u hu)) hbefore
    have hroot : ∀ q ∈ ps, o.within q p := fun q hq => by
      obtain ⟨u, hu, hqu⟩ := hparts q hq
      exact ho.within_trans hqu (hwithin u hu)
    refine ⟨List.forall_mem_append.2 ⟨fun q hq => ⟨PlaceTree.node p us, by simp, hroot q hq⟩, fun q hq => ?_⟩,
      List.pairwise_append.2 ⟨hpairs, hpairwise, fun a ha b hb => ?_⟩⟩
    · obtain ⟨u, hu, hqu⟩ := hin q hq
      exact ⟨u, by simp [hu], hqu⟩
    · obtain ⟨u, hu, hbu⟩ := hin b hb
      exact ho.before_of_within (hts.1 u hu) (hroot a ha) hbu

/-! ## The leaves of a walk -/

section

variable (depth : Nat)

theorem front_name (n : Name σ) : Front [n.placeTree] (picked Node.leaf? (n.walk depth)) := .leaf _

theorem front_typeRef (r : TypeRef σ) : Front [r.placeTree] (picked Node.leaf? (r.walk depth)) :=
  .root .nil

theorem front_names (ns : List (Name σ)) :
    Front (ns.map Name.placeTree) (picked Node.leaf? (ns.flatMap (Name.walk depth))) := by
  rw [picked_flatMap]
  exact .flatMap fun n _ => front_name depth n

mutual

theorem front_builtin (depth : Nat) :
    (b : Builtin σ) → Front b.placeTrees (picked Node.leaf? (b.walk depth))
  | .list element _ _ => by
    simpa [Builtin.walk, Builtin.placeTrees, Node.leaf?] using front_datatypeRef (depth + 1) element
  | .integer .. | .float .. | .boolean | .string .. | .enum _ | .pattern .. | .timestamp _
  | .vector _ | .date | .uuid => by
    simpa [Builtin.walk, Builtin.placeTrees, Node.leaf?] using Front.nil

theorem front_datatypeRef (depth : Nat) :
    (d : DatatypeRef σ) → Front [d.placeTree] (picked Node.leaf? (d.walk depth))
  | .builtin type p => by
    simpa [DatatypeRef.walk, DatatypeRef.placeTree, Node.leaf?] using
      (front_builtin (depth + 1) type).node p
  | .named ref => by
    simpa [DatatypeRef.walk, DatatypeRef.placeTree, Node.leaf?] using
      front_typeRef (depth + 1) ref

end

mutual

theorem front_expr (depth : Nat) :
    (e : Expr σ) → Front [e.placeTree] (picked Node.leaf? (e.walk depth))
  | .literal _ p | .dollar _ p | .property _ p | .relation _ p | .datatype _ p => .leaf p
  | .list [] p => .leaf p
  | .list (e :: es) p => by
    simpa [Expr.walk, Expr.placeTree, Node.leaf?, Expr.isChildless] using
      (front_exprs (depth + 1) (e :: es)).node p
  | .unary _ x p => by
    simpa [Expr.walk, Expr.placeTree, Node.leaf?, Expr.isChildless] using
      (front_expr (depth + 1) x).node p
  | .binary _ l r p => by
    simpa [Expr.walk, Expr.placeTree, Node.leaf?, Expr.isChildless] using
      ((front_expr (depth + 1) l).append (front_expr (depth + 1) r)).node p
  | .member x n p => by
    simpa [Expr.walk, Expr.placeTree, Node.leaf?, Expr.isChildless] using
      ((front_expr (depth + 1) x).append (front_name (depth + 1) n)).node p
  | .index x es p => by
    simpa [Expr.walk, Expr.placeTree, Node.leaf?, Expr.isChildless] using
      ((front_expr (depth + 1) x).append (front_exprs (depth + 1) es)).node p
  | .ternary c t x p => by
    simpa [Expr.walk, Expr.placeTree, Node.leaf?, Expr.isChildless] using
      ((front_expr (depth + 1) c).append
        ((front_expr (depth + 1) t).append (front_expr (depth + 1) x))).node p
  | .pipeline s f args params body p => by
    have hargs : Front (Expr.argPlaceTrees args) (picked Node.leaf? (Expr.walkArgs (depth + 1) args)) := by
      cases args with
      | none => exact .nil
      | some es => exact front_exprs (depth + 1) es
    have hbody : Front (Expr.bodyPlaceTrees body) (picked Node.leaf? (Expr.walkBody (depth + 1) body)) := by
      cases body with
      | none => exact .nil
      | some e => exact front_expr (depth + 1) e
    have hnames := front_names (depth + 1) (params.getD [])
    have hleaf : (Node.expr (.pipeline s f args params body p)).leaf?.toList = [] := rfl
    simpa only [Expr.walk, Expr.placeTree, picked_cons, picked_append, hleaf, List.append_assoc,
      List.cons_append, List.nil_append] using
      ((front_expr (depth + 1) s).append ((front_name (depth + 1) f).append
        (hargs.append (hnames.append hbody)))).node p

theorem front_exprs (depth : Nat) :
    (es : List (Expr σ)) → Front (Expr.placeTrees es) (picked Node.leaf? (Expr.walkAll depth es))
  | [] => .nil
  | e :: es => by
    simpa [Expr.walkAll, Expr.placeTrees] using (front_expr depth e).append (front_exprs depth es)

end

theorem front_property (p : Property σ) : Front [p.placeTree] (picked Node.leaf? (p.walk depth)) := by
  simpa [Property.walk, Property.placeTree, Node.leaf?] using
    ((front_name (depth + 1) p.name).append
      (front_datatypeRef (depth + 1) p.datatype)).node p.place

theorem front_reverse (r : Option (ReverseEdge σ)) :
    Front (r.toList.map ReverseEdge.placeTree) (picked Node.leaf? (walkReverse depth r)) := by
  cases r with
  | none => exact .nil
  | some r => exact (front_name depth r.name).node r.place

theorem front_relationBody (b : Option (RelationBody σ)) :
    Front (b.toList.map RelationBody.placeTree) (picked Node.leaf? (walkRelationBody depth b)) := by
  cases b with
  | none => exact .nil
  | some b =>
    rw [walkRelationBody, picked_flatMap]
    exact (Front.flatMap fun p _ => front_property depth p).node b.place

theorem front_member (m : Member σ) : Front [m.placeTree] (picked Node.leaf? (m.walk depth)) := by
  cases m with
  | property p =>
    simpa [Member.walk, Member.placeTree, Node.leaf?] using front_property (depth + 1) p
  | association a =>
    simpa [Member.walk, Association.walk, Member.placeTree, Association.placeTree, Node.leaf?] using
      ((front_name (depth + 1 + 1) a.name).append
        ((front_typeRef (depth + 1 + 1) a.target).append
          ((front_reverse (depth + 1 + 1) a.reverse).append
            (front_relationBody (depth + 1 + 1) a.body)))).node a.place
  | composition c =>
    simpa [Member.walk, Composition.walk, Member.placeTree, Composition.placeTree, Node.leaf?] using
      ((front_name (depth + 1 + 1) c.name).append
        ((front_typeRef (depth + 1 + 1) c.target).append
          (front_reverse (depth + 1 + 1) c.reverse))).node c.place
  | invariant i =>
    simpa [Member.walk, Invariant.walk, Member.placeTree, Invariant.placeTree, Node.leaf?] using
      (front_expr (depth + 1 + 1) i.constraint).node i.place

theorem front_declaration (d : Declaration σ) :
    Front [d.placeTree] (picked Node.leaf? (d.walk depth)) := by
  cases d with
  | type t =>
    have hparents : Front (t.parents.map TypeRef.placeTree)
        (t.parents.flatMap fun r => picked Node.leaf? (r.walk (depth + 1 + 1))) :=
      .flatMap fun r _ => front_typeRef (depth + 1 + 1) r
    have hmembers : Front (t.members.map Member.placeTree)
        (t.members.flatMap fun m => picked Node.leaf? (m.walk (depth + 1 + 1))) :=
      .flatMap fun m _ => front_member (depth + 1 + 1) m
    simpa [Declaration.walk, TypeDecl.walk, Declaration.placeTree, TypeDecl.placeTree, Node.leaf?] using
      ((front_name (depth + 1 + 1) t.name).append (hparents.append hmembers)).node t.place
  | datatype d =>
    simpa [Declaration.walk, DatatypeDecl.walk, Declaration.placeTree, DatatypeDecl.placeTree,
      PlacedBuiltin.placeTree, Node.leaf?] using
      ((front_name (depth + 1 + 1) d.name).append
        ((front_builtin (depth + 1 + 1) d.datatype.type).node d.datatype.place)).node d.place

theorem front_declarations (ds : List (Declaration σ)) :
    Front (ds.map Declaration.placeTree) (picked Node.leaf? (ds.flatMap (Declaration.walk depth))) := by
  rw [picked_flatMap]
  exact .flatMap fun d _ => front_declaration depth d

end

/-- The leaves of the declarations of a nested unit lie one before the other. -/
theorem SchemaUnit.Nested.pairwise_leaves {o : PlaceOrder σ} (ho : o.Lawful) {u : SchemaUnit σ}
    (h : u.Nested o) :
    let leaves := picked Node.leaf? (u.declarations.flatMap (Declaration.walk 1))
    (∀ p ∈ leaves, o.within p p) ∧ leaves.Pairwise o.before := by
  obtain ⟨entries, -, -, hdeclarations, hnested, hwithin, hbefore⟩ := h
  have hmem : ∀ t ∈ u.declarations.map Declaration.placeTree,
      t ∈ u.header.toList.map leaf ++ entries := fun t ht =>
    List.mem_append_right _ (hdeclarations.subset ht)
  obtain ⟨hin, hpairwise⟩ := (front_declarations 1 u.declarations).pairwise ho
    (fun t ht => hnested t (hmem t ht)) (fun t ht => ho.within_self (hwithin t (hmem t ht)))
    (hbefore.sublist (hdeclarations.trans (List.sublist_append_right ..)))
  exact ⟨fun p hp => let ⟨_, _, hp⟩ := hin p hp; ho.within_self hp, hpairwise⟩

/-! ## Spans -/

def Span.strictOrder : PlaceOrder Span where
  within s t := t.start.byte ≤ s.start.byte ∧ s.start.byte < s.stop.byte ∧ s.stop.byte ≤ t.stop.byte
  before s t := s.stop.byte ≤ t.start.byte

theorem Span.lawful_strictOrder : Span.strictOrder.Lawful where
  within_self := fun ⟨_, h, _⟩ => ⟨Nat.le_refl _, h, Nat.le_refl _⟩
  within_trans := fun ⟨h₁, h, h₂⟩ ⟨h₁', _, h₂'⟩ => ⟨h₁'.trans h₁, h, h₂.trans h₂'⟩
  before_of_within := fun h ⟨_, _, h₁⟩ ⟨h₂, _, _⟩ => h₁.trans (Nat.le_trans h h₂)

/-- Only the last item may have an empty span, so the spans before it keep the strict order. -/
theorem SpanTable.Spaced.strictlyNested_map {t : SpanTable} {id : SourceId} {size : Nat}
    (h : t.Spaced id size) {u : SchemaUnit Extent} (hu : u.Nested Extent.order)
    (hplace : u.place.first ≤ u.place.last ∧ u.place.last + 1 < size) :
    (u.map t.span).Nested Span.strictOrder := by
  refine hu.map t.span (fun e => e.first ≤ e.last ∧ e.last + 1 < size) ?_ ?_ ?_ hplace
  · rintro d e ⟨-, hle, hlast⟩ ⟨-, he⟩
    exact ⟨hle, by omega⟩
  · rintro d e ⟨hfirst, hle, hlast⟩ ⟨hle', he⟩
    have hlt := h.lt d.last (d.last + 1) (Nat.lt_succ_self _) (by omega)
    show (t.at_ e.first).start.byte ≤ (t.at_ d.first).start.byte ∧
      (t.at_ d.first).start.byte < (t.span d).stop.byte ∧ (t.span d).stop.byte ≤ (t.span e).stop.byte
    rw [h.stop_span hle (by omega), h.stop_span hle' (by omega)]
    exact ⟨h.start_mono hfirst (by omega), Nat.lt_of_le_of_lt (h.start_mono hle (by omega)) hlt.1,
      h.stop_mono hlast (by omega)⟩
  · rintro d e hbefore ⟨hle, hd⟩ ⟨hle', he⟩
    show (t.span d).stop.byte ≤ (t.at_ e.first).start.byte
    rw [h.stop_span hle (by omega)]
    exact (h.lt d.last e.first hbefore (by omega)).2

/-- Nothing is declared where nothing but the end is. -/
theorem Ended.declarations_eq_nil {items : Items} (h : Ended items) (hsize : items.size ≤ 1) :
    (readUnit items).1.declarations = [] := by
  have hend : kindAt items (Rule.header items 0).next = .endOfText := (h.end_iff _).2 (by omega)
  have hpos : items.size = 0 + 1 := by
    have := h.pos
    omega
  show (wholeBody items).declarations = []
  rw [wholeBody, hpos, unitBody, if_pos hend]
  rfl

namespace Registry

variable {r : Registry} {id : SourceId} {source : Source}

/-- The leaves of a walk have spans that are not empty, one behind the other. -/
theorem exists_read_ordered (h : r.find id = .ok source) : ∃ reading, r.read id = .ok reading ∧
    let leaves := picked Node.leaf? (reading.unit.declarations.flatMap (Declaration.walk 1))
    (∀ s ∈ leaves, s.start.byte < s.stop.byte) ∧
      leaves.Pairwise fun s t => s.stop.byte ≤ t.start.byte := by
  obtain ⟨lexical, table, -, htable, hread⟩ := exists_read_eq h
  refine ⟨_, hread, ?_⟩
  have hended := ended_itemsOf (tokenize source.text).1
  by_cases hsize : (itemsOf (tokenize source.text).1).size ≤ 1
  · have hnil := hended.declarations_eq_nil hsize
    simp [SchemaUnit.map, hnil]
  · have hspaced := spaced_spanTable h (spaced_placedItems source.text) htable
    have hcount : (itemsOf (tokenize source.text).1).size =
        (placedItems (tokenize source.text).1).length := by simp [itemsOf]
    have hplace : (readUnit (itemsOf (tokenize source.text).1)).1.place =
        ⟨0, (itemsOf (tokenize source.text).1).size - 2⟩ := if_neg hsize
    have hnested := hspaced.strictlyNested_map hended.nested (by rw [hplace, ← hcount]; dsimp only; omega)
    obtain ⟨hself, hpairwise⟩ := hnested.pairwise_leaves Span.lawful_strictOrder
    exact ⟨fun s hs => (hself s hs).2.1, hpairwise⟩

/-- **A walk meets everything, in the order of the text.** Whatever a source holds, the references that are
collected from the unit are all its references, each as often as it stands there and each starting behind the
one before it; the expressions that are counted are all those of the invariants; and the names, references and
expressions without parts that a walk of the declarations meets have spans that are not empty and lie one
behind the other. -/
theorem walk_of_find (r : Registry) (id : SourceId) (source : Source) (h : r.find id = .ok source) :
    ∃ reading, r.read id = .ok reading ∧
      reading.unit.typeRefs.Perm
        (reading.unit.parents ++ (reading.unit.targets ++ reading.unit.datatypeRefs)) ∧
      reading.unit.typeRefs.Pairwise (fun s t => s.place.start.byte < t.place.start.byte) ∧
      reading.unit.exprCount = (reading.unit.invariants.map fun i => i.constraint.size).sum ∧
      let leaves := picked Node.leaf? (reading.unit.declarations.flatMap (Declaration.walk 1))
      (∀ s ∈ leaves, s.start.byte < s.stop.byte) ∧
        leaves.Pairwise fun s t => s.stop.byte ≤ t.start.byte := by
  obtain ⟨reading, hread, hspans, hpairwise⟩ := exists_read_ordered h
  refine ⟨reading, hread, reading.unit.perm_typeRefs, ?_, reading.unit.exprCount_eq, hspans, hpairwise⟩
  have hsub := sublist_leaves (reading.unit.declarations.flatMap (Declaration.walk 1))
  have hrefs : reading.unit.typeRefs = _ :=
    SchemaUnit.picked_walk (fun _ => rfl) (fun _ => rfl) reading.unit
  rw [← hrefs] at hsub
  have hstarts := hpairwise.imp_of_mem (S := fun s t => s.start.byte < t.start.byte)
    fun hs _ hle => Nat.lt_of_lt_of_le (hspans _ hs) hle
  have hrefStarts := hstarts.sublist hsub
  rwa [List.pairwise_map] at hrefStarts

/-- References for each purpose, and a constraint with every kind of part. -/
theorem walk_of_find_relation :
    let source := Source.ofText "" ("schema\"S\"import\"x\"type A extends p.B,C\x7bt List<List<D>>-->o E/r" ++
      "\x7bq F\x7d!\"m\"a.b->f([])|$x|\x7b$x>1\x7d\x7dtype L=List<M>")
    let r : Registry := ⟨#[source]⟩
    r.find ⟨1⟩ = .ok source ∧ ∃ reading, r.read ⟨1⟩ = .ok reading ∧
      reading.unit.typeRefs.map TypeRef.text = ["p.B", "C", "D", "E", "F", "M"] ∧
      reading.unit.typeRefs.Pairwise (fun s t => s.place.start.byte < t.place.start.byte) ∧
      reading.unit.exprCount = 7 ∧
      (picked Node.leaf? (reading.unit.declarations.flatMap (Declaration.walk 1))).Pairwise
        fun s t => s.stop.byte ≤ t.start.byte := by
  intro source r
  have hfind : r.find ⟨1⟩ = .ok source := rfl
  obtain ⟨reading, hread, -, hstarts, -, -, hpairwise⟩ := walk_of_find r ⟨1⟩ source hfind
  have hvalues : (r.read ⟨1⟩).toOption.map (fun x =>
      (x.unit.typeRefs.map TypeRef.text, x.unit.exprCount)) =
      some (["p.B", "C", "D", "E", "F", "M"], 7) := by decide +kernel
  rw [hread] at hvalues
  obtain ⟨hrefs, hcount⟩ := Prod.mk.inj (Option.some.inj hvalues)
  exact ⟨hfind, reading, hread, hrefs, hstarts, hcount, hpairwise⟩

end Registry

end SchemaLang
