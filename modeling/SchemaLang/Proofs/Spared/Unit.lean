import SchemaLang.Proofs.Spared.Member

/-!
# Units keep off malformed text

Problems with imports are placed at the import or at its alias; an import has been read as a whole, so that
both are clear (`ensures_clear_importDecl`).

Main statement: all problems of a unit are placed clear of malformed text (`clear_readUnit`).
-/

set_option autoImplicit false

namespace SchemaLang

open SchemaLang.Rule

variable {items : Items} {i : Nat}

namespace Rule

theorem spares_header : header.Spares items i := by
  simp [header]

/-! ## Imports -/

/-- The places of an import that problems may have. -/
structure ClearImport (items : Items) (d : Import Extent) : Prop where
  place : d.place.Clear items
  alias_ : ∀ a ∈ d.alias_, a.place.Clear items

theorem ClearImport.aliasPlace {d : Import Extent} (h : ClearImport items d) :
    d.aliasPlace.Clear items := by
  unfold Import.aliasPlace
  split
  · rename_i a ha
    exact h.alias_ a ha
  · exact h.place

theorem spares_aliasName : aliasName.Spares items i := by
  have hkeyword (hk : (kindAt items i).isKeyword = true) : kindAt items i ≠ .invalid :=
    TokenKind.ne_of_allowed hk rfl
  simp +contextual [aliasName, hkeyword]

theorem ensures_valid_aliasName : aliasName.Ensures items i fun a j =>
    Valid items i j ∧ ∀ n ∈ a, n.place.Clear items := by
  have hword (hk : (kindAt items i).isWord = true) : kindAt items i ≠ .invalid :=
    TokenKind.ne_of_allowed hk rfl
  have hkeyword (hk : (kindAt items i).isKeyword = true) : kindAt items i ≠ .invalid :=
    TokenKind.ne_of_allowed hk rfl
  simp +contextual [aliasName, hword, hkeyword]

theorem spares_importDecl : importDecl.Spares items i := by
  simp [importDecl, spares_aliasName]

theorem ensures_clear_importDecl (hk : kindAt items i ≠ .invalid) :
    importDecl.Ensures items i fun d _ => ClearImport items d := by
  have hfirst : Valid items i (i + 1) := valid_succ.2 hk
  simp only [importDecl, ensures_bind, ensures_position, ensures_take, ensures_expect,
    ensures_peekKind, ensures_ite, ensures_extentFrom, ensures_pure]
  intro hpath
  have hbehind : Valid items i (i + 1 + 1) := hfirst.succ (by simp [hpath])
  refine ⟨fun has => ensures_valid_aliasName.imp fun a j halias => ⟨?_, halias.2⟩, fun _ => ⟨?_, by simp⟩⟩
  · have hread := (hbehind.succ (by simp [has])).trans halias.1
    have := halias.1.le
    exact hread.clear (by omega)
  · exact hbehind.clear (by omega)

/-! ## Declarations -/

theorem spares_typeModifier : typeModifier.Spares items i := by
  simp only [typeModifier, spares_bind, spares_peekKind, ensures_peekKind, true_and]
  split <;> simp

/-- A modifier is a word. -/
theorem ensures_ne_invalid_typeModifier : typeModifier.Ensures items i fun m _ =>
    m ≠ .none → kindAt items i ≠ .invalid := by
  simp only [typeModifier, ensures_bind, ensures_peekKind]
  split
  · rename_i hk
    simp [hk]
  · rename_i hk
    simp [hk]
  · simp

theorem spares_declarationName : declarationName.Spares items i := by
  simp [declarationName]

theorem spares_furtherParents {n : Nat} : (furtherParents n).Spares items i := by
  rw [furtherParents_eq]
  exact reports_further fun _ => spares_typeRef

theorem spares_parents : parents.Spares items i := by
  simp [parents, spares_typeRef, spares_furtherParents]

theorem spares_declaredDatatype : declaredDatatype.Spares items i := by
  simp only [declaredDatatype, spares_bind, spares_peekKind, ensures_peekKind, true_and]
  split
  · rename_i hk
    exact spares_builtin (by simp [hk])
  · simp

theorem spares_declaration (h : Ended items) : declaration.Spares items i := by
  simp only [declaration, spares_bind, spares_position, ensures_position, spares_peek, ensures_peek,
    spares_typeModifier, true_and]
  refine ensures_ne_invalid_typeModifier.imp fun m j hm => ⟨spares_declarationName, fun name _ => ?_⟩
  simp only [spares_peekKind, ensures_peekKind, true_and]
  split
  · simpa [spares_declaredDatatype] using hm
  · simp [spares_parents, spares_typeBody h]
  · simp [spares_parents, spares_typeBody h]
  · simp

theorem spares_entry (h : Ended items) : entry.Spares items i := by
  simp only [entry, spares_bind, spares_peekKind, ensures_peekKind, true_and]
  split
  · simp [spares_importDecl]
  · simp [spares_declaration h]
  · simp [spares_declaration h]
  · simp [spares_declaration h]
  · simp
  · simp

/-- The imports that are read are clear. -/
def ClearEntry (items : Items) : Entry → Prop
  | .import_ d => ClearImport items d
  | .declaration _ => True

theorem ensures_clear_entry : entry.Ensures items i fun e _ => ClearEntry items e :=
  ensures_entry_of ensures_clear_importDecl fun _ => ensures_of_forall fun _ _ => trivial

end Rule

/-! ## Units -/

theorem AliasTable.clear_add {t : AliasTable} {d : Import Extent} (h : ClearImport items d) :
    ∀ p ∈ (t.add d).1, p.place.Clear items := by
  unfold AliasTable.add
  dsimp only
  split
  · simpa using h.place
  · split
    · simpa using h.aliasPlace
    · simp

theorem clear_unitBody (h : Ended items) {n : Nat} {aliases : AliasTable} {declared : Bool} :
    ∀ p ∈ (unitBody items n aliases declared i).problems, p.place.Clear items := by
  induction n generalizing i aliases declared with
  | zero => simp [unitBody, UnitBody.empty]
  | succ n ih =>
    have hspares := spares_entry h (i := i)
    have hclear := @ensures_clear_entry items i
    unfold Spares at hspares
    unfold Ensures at hclear
    unfold unitBody
    split
    · simp [UnitBody.empty]
    generalize entry items i = reply at hspares hclear
    obtain ⟨v, j, ps⟩ := reply
    cases v with
    | none =>
      simp only [UnitBody.addProblems, List.forall_mem_append]
      exact ⟨hspares, ih⟩
    | some e =>
      cases e with
      | import_ d =>
        have hd : ClearImport items d := hclear _ rfl
        simp only [UnitBody.addProblems, UnitBody.addImport, List.forall_mem_append]
        refine ⟨⟨⟨hspares, ?_⟩, AliasTable.clear_add hd⟩, ih⟩
        split
        · simpa using hd.place
        · simp
      | declaration d =>
        simp only [UnitBody.addProblems, UnitBody.addDeclaration, List.forall_mem_append]
        exact ⟨hspares, ih⟩

/-- No problem of a unit is placed at malformed text. -/
theorem clear_readUnit (h : Ended items) : ∀ p ∈ (readUnit items).2, p.place.Clear items := by
  simp only [readUnit, List.forall_mem_append]
  exact ⟨spares_header, clear_unitBody h⟩

end SchemaLang
