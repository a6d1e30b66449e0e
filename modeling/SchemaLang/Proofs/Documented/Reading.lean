import SchemaLang.Proofs.Documented.Gaps
import SchemaLang.Proofs.Located.Lexical
import SchemaLang.Proofs.Nested.Reading

/-!
# Documentation of what is read

* `X.documented` are the nodes in an `X` of a schema that have documentation, or could have it, each with
  its place: declarations, properties, associations and compositions.
* `Documented items ns`: each of the nodes has the documentation of its first item.

Each rule has a lemma on what it reads; a rule that is entered in front of the end of the text starts at an
item. The documentation is looked up where the node starts, before a modifier as well.

Main statement: in whatever is read from a source, each of these nodes has the documentation of the item at
its start, and that is the one of the comments before the item (`Registry.documented_of_find`).
-/

set_option autoImplicit false

namespace SchemaLang

variable {σ τ : Type}

/-! ## Nodes -/

def Property.documented (p : Property σ) : List (Option String × σ) := [(p.doc, p.place)]

def RelationBody.documented (b : RelationBody σ) : List (Option String × σ) :=
  b.properties.flatMap Property.documented

def Member.documented : Member σ → List (Option String × σ)
  | .property p => p.documented
  | .association a => (a.doc, a.place) :: a.body.toList.flatMap RelationBody.documented
  | .composition c => [(c.doc, c.place)]
  | .invariant _ => []

def Declaration.documented : Declaration σ → List (Option String × σ)
  | .type t => (t.doc, t.place) :: t.members.flatMap Member.documented
  | .datatype d => [(d.doc, d.place)]

def Entry.documented : Entry → List (Option String × Extent)
  | .import_ _ => []
  | .declaration d => d.documented

def SchemaUnit.documented (u : SchemaUnit σ) : List (Option String × σ) :=
  u.declarations.flatMap Declaration.documented

section

variable (f : σ → τ)

@[simp] theorem Property.documented_map (p : Property σ) :
    (p.map f).documented = p.documented.map (Prod.map id f) := rfl

@[simp] theorem RelationBody.documented_map (b : RelationBody σ) :
    (b.map f).documented = b.documented.map (Prod.map id f) := by
  simp [RelationBody.map, RelationBody.documented, List.flatMap_map, List.map_flatMap]

@[simp] theorem Member.documented_map (m : Member σ) :
    (m.map f).documented = m.documented.map (Prod.map id f) := by
  cases m with
  | property p => rfl
  | association a => cases hb : a.body <;> simp [Member.map, Member.documented, Association.map, hb]
  | composition c => rfl
  | invariant i => rfl

@[simp] theorem Declaration.documented_map (d : Declaration σ) :
    (d.map f).documented = d.documented.map (Prod.map id f) := by
  cases d with
  | type t =>
    simp [Declaration.map, Declaration.documented, TypeDecl.map, List.flatMap_map, List.map_flatMap]
  | datatype d => rfl

/-- Moving a unit keeps its documentation. -/
theorem SchemaUnit.documented_map (u : SchemaUnit σ) :
    (u.map f).documented = u.documented.map (Prod.map id f) := by
  simp [SchemaUnit.map, SchemaUnit.documented, List.flatMap_map, List.map_flatMap]

end

/-! ## Rules -/

structure DocumentedAt (items : Items) (n : Option String × Extent) : Prop where
  first_lt : n.2.first < items.size
  doc_eq : n.1 = (itemAt items n.2.first).doc

def Documented (items : Items) (ns : List (Option String × Extent)) : Prop :=
  ∀ n ∈ ns, DocumentedAt items n

variable {items : Items} {i : Nat}

@[simp] theorem documented_nil : Documented items [] := nofun

@[simp] theorem documented_cons {n : Option String × Extent} {ns : List (Option String × Extent)} :
    Documented items (n :: ns) ↔ DocumentedAt items n ∧ Documented items ns := List.forall_mem_cons

theorem documented_flatMap {α : Type} {nodes : α → List (Option String × Extent)} {as : List α}
    (h : ∀ a ∈ as, Documented items (nodes a)) : Documented items (as.flatMap nodes) := by
  intro n hn
  obtain ⟨a, ha, hn⟩ := List.mem_flatMap.1 hn
  exact h a ha n hn

theorem documentedAt_of_kindAt_ne (h : kindAt items i ≠ .endOfText) (last : Nat) :
    DocumentedAt items ((itemAt items i).doc, ⟨i, last⟩) := ⟨lt_size_of_kindAt_ne h, rfl⟩

namespace Rule

theorem ensures_documented_property (h : kindAt items i ≠ .endOfText) :
    property.Ensures items i fun p _ => Documented items p.documented := by
  simp only [property, ensures_bind, ensures_position, ensures_nextDoc, ensures_takeName]
  apply ensures_of_forall
  intro datatype j
  apply ensures_of_forall
  intro modifier k
  simp [Property.documented, documentedAt_of_kindAt_ne h]

theorem ensures_documented_relationBody : relationBody.Ensures items i fun b _ =>
    Documented items (b.toList.flatMap RelationBody.documented) := by
  refine (ensures_forall_relationBody fun _ hnames =>
    ensures_documented_property (TokenKind.ne_of_allowed hnames rfl)).imp fun b j hb => ?_
  exact documented_flatMap fun r hr => documented_flatMap (hb r (Option.mem_toList.1 hr))

theorem ensures_documented_typeMember :
    typeMember.Ensures items i fun m _ => Documented items m.documented := by
  refine ensures_typeMember_of (fun hk => ?_) (fun hk => ?_) ?_ fun hnames => ?_
  · simp only [association, ensures_bind, ensures_position, ensures_nextDoc, ensures_take,
      ensures_expectName]
    intro _
    refine ensures_of_forall fun m j => ensures_of_forall fun target k => ?_
    refine ensures_of_forall fun reverse l => ensures_documented_relationBody.imp fun body o hbody => ?_
    simp [Member.documented, documentedAt_of_kindAt_ne, hk, hbody]
  · simp only [composition, ensures_bind, ensures_position, ensures_nextDoc, ensures_take,
      ensures_expectName]
    intro _
    refine ensures_of_forall fun m j => ensures_of_forall fun target k => ?_
    refine ensures_of_forall fun reverse l => ?_
    simp [Member.documented, documentedAt_of_kindAt_ne, hk]
  · exact ensures_of_forall fun invariant j => documented_nil
  · exact ensures_documented_property (TokenKind.ne_of_allowed hnames rfl)

theorem ensures_documented_declaration (h : kindAt items i ≠ .endOfText) :
    declaration.Ensures items i fun d _ => Documented items d.documented := by
  refine ensures_declaration_of (ensures_of_forall fun modifier j => ensures_of_forall fun name k => ?_)
  refine ⟨ensures_of_forall fun b l => ?_, ensures_of_forall fun ps l => ?_⟩
  · simp [Declaration.documented, documentedAt_of_kindAt_ne h]
  · refine (ensures_forall_typeBody fun _ => ensures_documented_typeMember).imp fun ms m hms => ?_
    simp [Declaration.documented, documentedAt_of_kindAt_ne h, documented_flatMap hms]

theorem ensures_documented_entry :
    entry.Ensures items i fun e _ => Documented items e.documented :=
  ensures_entry_of (fun _ => ensures_of_forall fun _ _ => documented_nil)
    ensures_documented_declaration

end Rule

/-! ## Units -/

theorem documented_readUnit (items : Items) : Documented items (readUnit items).1.documented :=
  documented_flatMap (forall_mem_unitBody fun _ => Rule.ensures_documented_entry).2

/-! ## Readings -/

namespace Registry

/-- **Documentation.** The items of a text tell what is before them. Whatever a registered source holds, it
is read, and each declaration, property, association and composition has the documentation of the item
that it starts with. -/
theorem documented_of_find (r : Registry) (id : SourceId) (source : Source)
    (h : r.find id = .ok source) :
    let placed := placedItems (tokenize source.text).1
    SideTables source.text placed ∧
      ∃ reading, r.read id = .ok reading ∧
        ∀ n ∈ reading.unit.documented, ∃ p ∈ placed, ∃ s, r.spanOf id p.start p.stop = .ok s ∧
          n.2.start = s.start ∧ n.1 = p.item.doc := by
  intro placed
  obtain ⟨lexical, table, -, htable, hread⟩ := exists_read_eq h
  refine ⟨sideTables_placedItems source.text, _, hread, fun n hn => ?_⟩
  rw [SchemaUnit.documented_map] at hn
  obtain ⟨⟨doc, place⟩, hm, rfl⟩ := List.mem_map.1 hn
  obtain ⟨hlt, hdoc⟩ := documented_readUnit _ _ hm
  have hlt : place.first < placed.length := by simpa [itemsOf] using hlt
  have hitem : itemAt (itemsOf (tokenize source.text).1) place.first = placed[place.first].item :=
    itemAt_of_getElem? (by simp [itemsOf, placed, List.getElem?_eq_getElem hlt])
  refine ⟨placed[place.first], List.getElem_mem hlt, _, spanOf_at htable hlt, rfl, ?_⟩
  exact hdoc.trans (congrArg Item.doc hitem)

/-- The type starts with its modifier, the comment before `p` is followed by one on a line, and the last
brace is missing. -/
theorem documented_of_find_modifier :
    let source := Source.ofText ""
      "/* t */ part type T \x7b /* p */ // \np Date\n/* a */ --> a U \x7b /* q */ q Date \x7d"
    let r : Registry := ⟨#[source]⟩
    let placed := placedItems (tokenize source.text).1
    r.find ⟨1⟩ = .ok source ∧ SideTables source.text placed ∧
      ∃ reading, r.read ⟨1⟩ = .ok reading ∧
        reading.unit.documented.map Prod.fst = [some "t", none, some "a", some "q"] ∧
        ∀ n ∈ reading.unit.documented, ∃ p ∈ placed, ∃ s, r.spanOf ⟨1⟩ p.start p.stop = .ok s ∧
          n.2.start = s.start ∧ n.1 = p.item.doc := by
  intro source r placed
  have hfind : r.find ⟨1⟩ = .ok source := rfl
  have hdocs : (r.read ⟨1⟩).map (fun x => x.unit.documented.map Prod.fst) =
      .ok [some "t", none, some "a", some "q"] := by decide +kernel
  obtain ⟨htables, reading, hread, hdocumented⟩ := documented_of_find r ⟨1⟩ source hfind
  rw [hread] at hdocs
  exact ⟨hfind, htables, reading, hread, Except.ok.inj hdocs, hdocumented⟩

end Registry

end SchemaLang
