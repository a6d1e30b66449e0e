import SchemaLang.Proofs.Hereditary
import SchemaLang.Proofs.Located.Names

/-!
# Names are read off items

* `Name.Spelt items n`: the name `n` is placed at an item, and its text is that of the item.
* `DollarsFirst items`: words behind a dollar sign are spelled with it, and with no other one.

Whatever a rule reads, the names in it are spelt; neither problems nor what has been skipped matter. For
expressions this is a property that passes from their parts to them (`Rule.hereditary_spelt`).

Main statement: all names of a unit are spelt (`spelt_readUnit`).
-/

set_option autoImplicit false

namespace SchemaLang

def Name.Spelt (items : Items) (n : Name Extent) : Prop :=
  ∃ k, n = ⟨(itemAt items k).text, .single k⟩

/-- All names of a list are spelt. -/
def Spelt (items : Items) (ns : List (Name Extent)) : Prop := ∀ n ∈ ns, n.Spelt items

def DollarsFirst (items : Items) : Prop :=
  ∀ i, kindAt items i = .varWord →
    "$" ++ Rule.withoutDollars (itemAt items i).text = (itemAt items i).text

variable {items : Items} {i : Nat}

@[simp] theorem Name.spelt_mk : Name.Spelt items ⟨(itemAt items i).text, .single i⟩ := ⟨i, rfl⟩

@[simp] theorem spelt_nil : Spelt items [] := nofun

@[simp] theorem spelt_cons {n : Name Extent} {ns : List (Name Extent)} :
    Spelt items (n :: ns) ↔ n.Spelt items ∧ Spelt items ns := List.forall_mem_cons

@[simp] theorem spelt_append {ns ms : List (Name Extent)} :
    Spelt items (ns ++ ms) ↔ Spelt items ns ∧ Spelt items ms := List.forall_mem_append

theorem spelt_flatMap {α : Type} {xs : List α} {f : α → List (Name Extent)} :
    Spelt items (xs.flatMap f) ↔ ∀ x ∈ xs, Spelt items (f x) := List.forall_mem_flatMap

theorem Expr.spellings_withPlace {σ : Type} (q : σ) (e : Expr σ) :
    (e.withPlace q).spellings = e.spellings := by
  cases e <;> simp [Expr.withPlace, Expr.spellings]

def Entry.spellings : Entry → List (Name Extent)
  | .import_ i => i.spellings
  | .declaration d => d.spellings

namespace Rule

/-! ## References and datatypes -/

theorem ensures_spelt_typeRef :
    typeRef.Ensures items i fun r _ => Spelt items r.spellings := by
  have hqualifier : qualifier.Ensures items i fun q _ => q.Spelt items := by
    simp [qualifier]
  simp only [typeRef, ensures_bind, ensures_position, ensures_peekKind, ensures_peekSecond,
    ensures_ite, ensures_reject, implies_true, and_true]
  refine ⟨fun _ => hqualifier.imp fun q j hq => ?_, fun _ _ => ?_⟩
  · simp [TypeRef.spellings, hq]
  · simp [TypeRef.spellings]

/-- Of all built-in datatypes, only a list has names in its parameters. -/
theorem ensures_spelt_builtinParameters {element : Rule (DatatypeRef Extent)}
    (he : ∀ j, element.Ensures items j fun d _ => Spelt items d.spellings) {keyword : Nat}
    {kind : BuiltinKind} :
    (builtinParameters element keyword kind).Ensures items i fun b _ => Spelt items b.spellings := by
  cases kind with
  | list =>
    simp only [builtinParameters, listType, ensures_bind, ensures_position, ensures_expect]
    refine fun _ => (he _).imp fun e j hspelt => ?_
    rw [ensures_close]
    refine fun _ => ensures_of_forall fun bounds k => ?_
    simpa [Builtin.spellings] using hspelt
  | boolean | date | uuid => simp [builtinParameters, Builtin.spellings]
  | integer | float | string =>
    refine ensures_bind.2 (ensures_of_forall fun bounds j => ?_)
    simp [Builtin.spellings]
  | enum =>
    simp only [builtinParameters, enum, ensures_bind, ensures_position, ensures_expect,
      ensures_remaining]
    refine fun _ => ensures_of_forall fun values j => ?_
    simp [Builtin.spellings]
  | pattern =>
    simp only [builtinParameters, pattern, ensures_bind, ensures_position, ensures_expect]
    refine fun _ => ensures_of_forall fun regex j => ?_
    simp [Builtin.spellings]
  | timestamp => simp [builtinParameters, timestamp, Builtin.spellings]
  | vector =>
    simp only [builtinParameters, vector, ensures_bind, ensures_position, ensures_expect]
    intro _ _
    split <;> simp [Builtin.spellings]

theorem ensures_spelt_builtinOf {element : Rule (DatatypeRef Extent)}
    (he : ∀ j, element.Ensures items j fun d _ => Spelt items d.spellings) {kind : BuiltinKind} :
    (builtinOf element kind).Ensures items i fun b _ => Spelt items b.type.spellings := by
  simp only [builtinOf, ensures_bind, ensures_position, ensures_take]
  refine (ensures_spelt_builtinParameters he).imp fun type j hspelt => ?_
  simpa using hspelt

theorem ensures_spelt_datatypeRef :
    datatypeRef.Ensures items i fun d _ => Spelt items d.spellings := by
  have within (n j : Nat) :
      (datatypeRefWithin n).Ensures items j fun d _ => Spelt items d.spellings := by
    induction n generalizing j with
    | zero => exact ensures_reject
    | succ n ih =>
      simp only [datatypeRefWithin, ensures_bind, ensures_peekKind]
      split
      · exact ensures_bind.2 ((ensures_spelt_builtinOf ih).imp fun _ _ h => ensures_pure.2 h)
      · exact ensures_bind.2 (ensures_spelt_typeRef.imp fun _ _ h => ensures_pure.2 h)
      · simp only [ensures_bind, ensures_peekSecond, ensures_ite, ensures_reject, implies_true,
          and_true]
        exact fun _ => ensures_spelt_typeRef.imp fun _ _ h => ensures_pure.2 h
      · exact ensures_reject
  simp only [datatypeRef, ensures_bind, ensures_remaining]
  exact within _ i

/-! ## Expressions -/

theorem hereditary_spelt (hd : DollarsFirst items) :
    Expr.Hereditary items fun e => Spelt items e.spellings where
  integer _ _ := spelt_nil
  float _ _ _ _ := spelt_nil
  string _ _ := spelt_nil
  regex _ _ _ := spelt_nil
  boolean _ _ := spelt_nil
  nil _ := spelt_nil
  dollar _ _ _ := spelt_nil
  property _ _ _ := spelt_nil
  relation _ _ _ := spelt_nil
  datatype _ _ := spelt_nil
  list es _ hes := by
    rw [Expr.spellings, Expr.allSpellings_eq_flatMap]
    exact spelt_flatMap.2 hes
  unary _ _ _ he := he
  binary _ _ _ _ hl hr := spelt_append.2 ⟨hl, hr⟩
  member _ _ _ he _ := spelt_append.2 ⟨he, spelt_cons.2 ⟨Name.spelt_mk, spelt_nil⟩⟩
  index _ es _ he hes := by
    rw [Expr.spellings, Expr.allSpellings_eq_flatMap]
    exact spelt_append.2 ⟨he, spelt_flatMap.2 hes⟩
  ternary _ _ _ _ hc ht he := spelt_append.2 ⟨spelt_append.2 ⟨hc, ht⟩, he⟩
  pipeline s i args params body _ hs _ hargs hparams hbody := by
    have spelt_args : Spelt items (Expr.argSpellings args) := by
      cases args with
      | none => exact spelt_nil
      | some es =>
        rw [Expr.argSpellings, Expr.allSpellings_eq_flatMap]
        exact spelt_flatMap.2 (hargs es rfl)
    have spelt_params : Spelt items ((params.getD []).map Name.behindDollar) := by
      cases params with
      | none => exact spelt_nil
      | some ps =>
        refine List.forall_mem_map.2 fun p hp => ?_
        obtain ⟨j, hj, rfl⟩ := (hparams ps rfl).2 p hp
        exact ⟨j, congrArg (Name.mk · _) (hd j hj)⟩
    have spelt_body : Spelt items (Expr.bodySpellings body) := by
      cases body with
      | none => exact spelt_nil
      | some e => exact hbody e rfl
    simp [Expr.spellings, hs, spelt_args, spelt_params, spelt_body]
  withPlace e p he := by rwa [Expr.spellings_withPlace]

theorem ensures_spelt_expression (hd : DollarsFirst items) :
    expression.Ensures items i fun e _ => Spelt items e.spellings :=
  ensures_hereditary_expression (hereditary_spelt hd)

/-! ## Members -/

theorem ensures_spelt_property :
    property.Ensures items i fun p _ => Spelt items p.spellings := by
  simp only [property, ensures_bind, ensures_position, ensures_nextDoc, ensures_takeName]
  refine ensures_spelt_datatypeRef.imp fun d j hd => ensures_of_forall fun m k => ?_
  simp [Property.spellings, Name.spelt_mk, hd]

theorem ensures_spelt_reverseEdge : reverseEdge.Ensures items i fun r _ =>
    Spelt items (r.toList.flatMap ReverseEdge.spellings) := by
  simp only [reverseEdge, ensures_bind, ensures_peekKind, ensures_ite, ensures_position,
    ensures_take, ensures_expectName, ensures_pure]
  refine ⟨fun _ _ => ensures_of_forall fun m j => ?_, fun _ => spelt_nil⟩
  simp [ReverseEdge.spellings, Name.spelt_mk]

theorem ensures_spelt_relationBody : relationBody.Ensures items i fun b _ =>
    Spelt items (b.toList.flatMap RelationBody.spellings) := by
  refine (ensures_forall_relationBody fun _ _ => ensures_spelt_property).imp fun b j hb => ?_
  exact spelt_flatMap.2 fun r hr => spelt_flatMap.2 (hb r (Option.mem_toList.1 hr))

theorem ensures_spelt_typeMember (hd : DollarsFirst items) :
    typeMember.Ensures items i fun m _ => Spelt items m.spellings := by
  refine ensures_typeMember_of (fun _ => ?_) (fun _ => ?_) ?_ fun _ => ensures_spelt_property
  · simp only [association, ensures_bind, ensures_position, ensures_nextDoc, ensures_take,
      ensures_expectName]
    refine fun _ => ensures_of_forall fun m j => ensures_spelt_typeRef.imp fun target k ht => ?_
    refine ensures_spelt_reverseEdge.imp fun reverse l hr => ?_
    refine ensures_spelt_relationBody.imp fun body m hb => ?_
    simp [Member.spellings, Name.spelt_mk, ht, hr, hb]
  · simp only [composition, ensures_bind, ensures_position, ensures_nextDoc, ensures_take,
      ensures_expectName]
    refine fun _ => ensures_of_forall fun m j => ensures_spelt_typeRef.imp fun target k ht => ?_
    refine ensures_spelt_reverseEdge.imp fun reverse l hr => ?_
    simp [Member.spellings, Name.spelt_mk, ht, hr]
  · simp only [invariant, ensures_bind, ensures_position, ensures_take, ensures_expect]
    refine fun _ => (ensures_spelt_expression hd).imp fun e j hspelt => ?_
    simpa [Member.spellings] using hspelt

/-! ## Entries of units -/

theorem ensures_spelt_importDecl :
    importDecl.Ensures items i fun d _ => Spelt items d.spellings := by
  simp only [importDecl, aliasName, ensures_bind, ensures_position, ensures_take, ensures_expect,
    ensures_peekKind, ensures_ite, ensures_takeName, ensures_extentFrom, ensures_report,
    ensures_reject, ensures_pure]
  simp [Import.spellings, Name.spelt_mk]

theorem ensures_spelt_parents :
    parents.Ensures items i fun rs _ => Spelt items (rs.flatMap TypeRef.spellings) := by
  simp only [parents, furtherParents_eq, ensures_bind, ensures_peekKind, ensures_ite, ensures_take,
    ensures_remaining, ensures_pure, List.flatMap_nil, spelt_nil, implies_true, and_true]
  refine fun _ => ensures_spelt_typeRef.imp fun r k hr => ?_
  refine (ensures_forall_further fun _ => ensures_spelt_typeRef).imp fun rs l hrs => ?_
  exact spelt_append.2 ⟨hr, spelt_flatMap.2 hrs⟩

theorem ensures_spelt_declaredDatatype :
    declaredDatatype.Ensures items i fun b _ => Spelt items b.type.spellings := by
  simp only [declaredDatatype, ensures_bind, ensures_peekKind]
  split
  · exact ensures_spelt_builtinOf fun _ => ensures_spelt_datatypeRef
  · exact ensures_rejectBehind

theorem ensures_spelt_declaration (hd : DollarsFirst items) :
    declaration.Ensures items i fun d _ => Spelt items d.spellings := by
  have hnames (j : Nat) : declarationName.Ensures items j fun n _ => n.Spelt items := by
    simp [declarationName]
  refine ensures_declaration_of (ensures_of_forall fun modifier j => ?_)
  refine (hnames j).imp fun name k hname => ⟨?_, ?_⟩
  · refine ensures_spelt_declaredDatatype.imp fun b l hb => ?_
    simp [Declaration.spellings, hname, hb]
  · refine ensures_spelt_parents.imp fun ps l hps => ?_
    refine (ensures_forall_typeBody fun _ => ensures_spelt_typeMember hd).imp fun ms m hms => ?_
    simp [Declaration.spellings, hname, hps, spelt_flatMap.2 hms]

theorem ensures_spelt_entry (hd : DollarsFirst items) :
    entry.Ensures items i fun e _ => Spelt items e.spellings :=
  ensures_entry_of (fun _ => ensures_spelt_importDecl) fun _ => ensures_spelt_declaration hd

end Rule

/-! ## Units -/

theorem spelt_unitBody (hd : DollarsFirst items) {n : Nat} {aliases : AliasTable}
    {declared : Bool} :
    Spelt items ((unitBody items n aliases declared i).imports.flatMap Import.spellings) ∧
      Spelt items
        ((unitBody items n aliases declared i).declarations.flatMap Declaration.spellings) := by
  have hentry (j : Nat) : Rule.entry.Ensures items j fun e _ => Spelt items e.spellings :=
    Rule.ensures_spelt_entry hd
  exact ⟨spelt_flatMap.2 (forall_mem_unitBody hentry).1, spelt_flatMap.2 (forall_mem_unitBody hentry).2⟩

/-- Whatever is wrong with the items, the names of the unit are words of theirs. -/
theorem spelt_readUnit (hd : DollarsFirst items) :
    Spelt items (readUnit items).1.spellings :=
  have h : Spelt items ((wholeBody items).imports.flatMap Import.spellings) ∧
      Spelt items ((wholeBody items).declarations.flatMap Declaration.spellings) :=
    spelt_unitBody hd
  spelt_append.2 h

end SchemaLang
