import SchemaLang.Proofs.Nested.Unit
import SchemaLang.Proofs.Overlap.Member
import SchemaLang.Proofs.Units

/-!
# Imports and declarations in common

An import or a declaration is read from what it consists of (`Overlap.carries_entry`). If the closing brace
of a type is left out, and a declaration or the end of the text is next, the same type is read, at the cost
of one problem (`Overlap.endsAt_declaration`).
-/

set_option autoImplicit false

namespace SchemaLang

/-- A declaration is placed at the items that the entry is read from. -/
theorem Rule.place_of_yields_entry {items : Items} {i j : Nat} {d : Declaration Extent}
    (h : ReadWithin items) (hd : entry.Yields items i (.declaration d) j) :
    i < j ∧ d.place = ⟨i, j - 1⟩ := by
  have hcover : d.placeTree.Covers i j := (ensures_entry h).of_yields hd
  exact ⟨hcover.lt, d.place_placeTree.symm.trans hcover.place_eq⟩

namespace Overlap

open SchemaLang.Rule

variable {S : Overlap} {k : Nat}

/-! ## Imports -/

theorem carries_aliasName : S.Carries aliasName aliasName
    fun a a' => a'.map (Name.map forget) = a.map (Name.map forget) := by
  refine carries_peekKind_bind ?_
  rintro κ κ' (rfl | ⟨rfl, -⟩)
  · refine carries_ite (fun _ => ?_) fun _ => carries_ite (fun _ => ?_) fun _ => carries_reject
    · exact carries_takeName.bind (fun _ => rfl) fun n n' hn =>
        carries_pure (congrArg some (SameText.map_eq hn))
    · refine carries_takeName.bind (fun _ => rfl) ?_
      rintro ⟨text, p⟩ ⟨_, p'⟩ rfl
      exact carries_ite (fun _ => carries_pure rfl) fun _ => carries_report_bind
  · exact carries_reject

theorem carries_importDecl :
    S.Carries importDecl importDecl fun d d' => d'.map forget = d.map forget := by
  refine carries_position_bind fun _ _ => carries_take_bind fun _ _ _ => ?_
  refine carries_expect_bind fun t t' ht => carries_peekKind_ite (by simp [Unwalled]) ?_ ?_
  · refine carries_take_bind fun _ _ _ => carries_aliasName.bind (fun _ => rfl) fun a a' ha => ?_
    refine carries_extentFrom_bind fun _ _ => carries_pure ?_
    rw [Import.map, Import.map, ha, ht.text_eq]
  · refine carries_extentFrom_bind fun _ _ => carries_pure ?_
    rw [Import.map, Import.map, ht.text_eq]

/-! ## Declarations -/

theorem carries_typeModifier : S.Carries typeModifier typeModifier Eq := by
  refine carries_of_lt (fun _ => ensures_typeModifier) fun k hk => carriesAt_peekKind_bind hk ?_
  split
  · exact carries_take_bind (fun _ _ _ => carries_expect_bind fun _ _ _ => carries_pure rfl) k
  · exact carries_take_bind (fun _ _ _ => carries_expect_bind fun _ _ _ => carries_pure rfl) k
  · exact carries_take_bind (fun _ _ _ => carries_pure rfl) k

theorem carries_declarationName : S.Carries declarationName declarationName SameText := by
  refine carries_of_lt (fun _ => ensures_declarationName.imp fun _ _ h => h.lt) fun k hk => ?_
  refine carriesAt_peek_bind hk fun t t' ht => ?_
  rw [ht.kind_eq]
  exact carriesAt_ite Iff.rfl (fun _ => carries_rejectBehind k) fun _ => carries_expectName k

/-- Lists of references that only differ in their places. -/
def SameRefs (rs rs' : List (TypeRef Extent)) : Prop :=
  rs'.map (TypeRef.map forget) = rs.map (TypeRef.map forget)

theorem carries_furtherParents {n : Nat} :
    S.Carries (furtherParents n) (furtherParents n) SameRefs := by
  rw [furtherParents_eq]
  exact carries_further (by simp [Unwalled]) carries_typeRef

theorem carries_parents : S.Carries parents parents SameRefs := by
  refine carries_peekKind_ite (by simp [Unwalled]) ?_ (carries_pure rfl)
  refine carries_take_bind fun _ _ _ => carries_typeRef.bind (fun _ => rfl) fun r r' hr => ?_
  refine carries_remaining_bind fun n => carries_furtherParents.bind (fun _ => rfl) fun rs rs' hrs => ?_
  exact carries_pure (List.cons_eq_cons.2 ⟨hr, hrs⟩)

theorem carries_declaredDatatype : S.Carries declaredDatatype declaredDatatype
    fun b b' => b'.map forget = b.map forget := by
  refine carries_of_lt (fun _ => ensures_declaredDatatype.imp fun _ _ h => h.lt) fun k hk => ?_
  refine carriesAt_peekKind_bind hk ?_
  split
  · exact carries_builtin k
  · exact carries_rejectBehind k

/-- Declarations that only differ in their places. -/
def SameDeclaration (d d' : Declaration Extent) : Prop := d'.map forget = d.map forget

/-- A type behind its name. -/
def typeRest (doc : Option String) (name : Name Extent) (modifier : TypeModifier) (start : Nat) :
    Rule (Declaration Extent) := do
  let ps ← parents
  let opened ← position
  let _ ← expect (.symbol .lBrace)
  let members ← typeBody name.text opened
  return .type ⟨doc, name, modifier, ps, members, ← extentFrom start⟩

section

variable {doc : Option String} {name name' : Name Extent} {m : TypeModifier} {i i' : Nat}
  (hname : SameText name name')

include hname

theorem same_type {ps ps' : List (TypeRef Extent)} {ms ms' : List (Member Extent)} {e e' : Extent}
    (hps : SameRefs ps ps') (hms : ms'.map (Member.map forget) = ms.map (Member.map forget)) :
    SameDeclaration (.type ⟨doc, name, m, ps, ms, e⟩) (.type ⟨doc, name', m, ps', ms', e'⟩) := by
  unfold SameRefs at hps
  unfold SameDeclaration
  rw [Declaration.map, Declaration.map, TypeDecl.map, TypeDecl.map, hname.map_eq, hps, hms]

theorem carries_typeRest :
    S.Carries (typeRest doc name m i) (typeRest doc name' m i') SameDeclaration := by
  refine carries_parents.bind (fun _ => rfl) fun ps ps' hps => carries_position_bind fun o o' => ?_
  refine carries_expect_bind fun _ _ _ => ?_
  rw [hname]
  refine carries_typeBody.bind (fun _ => rfl) fun ms ms' hms => carries_extentFrom_bind fun _ _ => ?_
  exact carries_pure (same_type hname hps hms)

end

theorem carries_declaration : S.Carries declaration declaration SameDeclaration := by
  have hlt (i : Nat) : declaration.Ensures S.left i fun _ j => i < j :=
    (ensures_declaration S.reads).imp fun _ _ h => h.lt
  refine carries_of_lt hlt fun k hk => carriesAt_position_bind fun i i' => ?_
  refine carriesAt_peek_bind hk fun t t' ht => (carries_typeModifier k).bind (fun _ => rfl) ?_
  rintro m _ rfl
  refine carries_declarationName.bind (fun _ => rfl) fun name name' hname => carries_peekKind_bind ?_
  rw [ht.doc_eq]
  rintro κ κ' (rfl | ⟨rfl, -⟩)
  · split
    · refine carries_ite (fun _ => carries_report_bind) fun _ => carries_take_bind fun _ _ _ => ?_
      refine carries_declaredDatatype.bind (fun _ => rfl) fun b b' hb => ?_
      refine carries_extentFrom_bind fun _ _ => carries_pure ?_
      unfold SameDeclaration
      rw [Declaration.map, Declaration.map, DatatypeDecl.map, DatatypeDecl.map, hname.map_eq, hb]
    · exact carries_typeRest hname
    · exact carries_typeRest hname
    · exact carries_rejectBehind
  · exact carries_rejectBehind

section

variable {items : Items} {i j l : Nat} {m : TypeModifier} {t : TypeDecl Extent}

/-- A type behind the item `l` that is its name. -/
def typeFrom (items : Items) (i l : Nat) (m : TypeModifier) : Rule (Declaration Extent) :=
  typeRest (itemAt items i).doc ⟨(itemAt items l).text, .single l⟩ m i

/-- A type is its modifier, its name, and what is behind the name. -/
theorem exists_of_yields_declaration (h : declaration.Yields items i (.type t) j) :
    ∃ m l, typeModifier.Yields items i m l ∧ kindAt items l = .upperWord ∧
      (kindAt items (l + 1) = .keyword .extendsWord ∨ kindAt items (l + 1) = .symbol .lBrace) ∧
      t.name.text = (itemAt items l).text ∧
      (typeFrom items i l m).Yields items (l + 1) (.type t) j := by
  have hstart : (typeModifier >>= fun m => _ : Rule (Declaration Extent)).Yields items i (.type t) j :=
    h
  obtain ⟨m, l, hm, h⟩ := yields_bind.1 hstart
  obtain ⟨name, l', hname, h⟩ := yields_bind.1 h
  obtain ⟨hn, rfl, rfl⟩ := yields_declarationName.1 hname
  have hrest (h : (typeFrom items i l m).Yields items (l + 1) (.type t) j) :
      t.name.text = (itemAt items l).text := by
    simp [typeFrom, typeRest] at h
    grind
  rw [yields_peekKind_bind] at h
  split at h
  · simp at h
  · rename_i hk
    exact ⟨m, l, hm, hn, .inl hk, hrest h, h⟩
  · rename_i hk
    exact ⟨m, l, hm, hn, .inr hk, hrest h, h⟩
  · simp at h

theorem declaration_eq (hm : typeModifier.Yields items i m l) (hn : kindAt items l = .upperWord)
    (hk : kindAt items (l + 1) = .keyword .extendsWord ∨ kindAt items (l + 1) = .symbol .lBrace) :
    declaration items i = typeFrom items i l m items (l + 1) := by
  have hname : declarationName.Yields items l ⟨(itemAt items l).text, .single l⟩ (l + 1) :=
    yields_declarationName.2 ⟨hn, rfl, rfl⟩
  have hkind : peekKind.Yields items (l + 1) (kindAt items (l + 1)) (l + 1) := rfl
  have hstart : declaration items i = (typeModifier >>= fun m => _) items i := rfl
  rw [hstart, hm.bind_eq, hname.bind_eq, hkind.bind_eq]
  rcases hk with hk | hk <;> rw [hk] <;> rfl

end

/-! ## Types that are not closed -/

section

variable {doc : Option String} {name name' : Name Extent} {m : TypeModifier} {i i' j : Nat}
  {d : Declaration Extent}

theorem lt_of_yields_typeRest (h : (typeRest doc name m i).Yields S.left i' d j) : i' < j := by
  obtain ⟨ps, l, hps, h⟩ := yields_bind.1 h
  obtain ⟨t, l', ht, h⟩ := yields_bind.1 (yields_position_bind.1 h)
  obtain ⟨-, -, rfl⟩ := yields_expect.1 ht
  obtain ⟨ms, l'', hms, h⟩ := yields_bind.1 h
  have hle := (ensures_parents.of_yields hps).le
  have hlt := lt_of_yields_typeBody hms
  have hend : (pure _ : Rule (Declaration Extent)).Yields S.left l'' d j := h
  obtain ⟨-, rfl⟩ := yields_pure.1 hend
  omega

variable (hwall : kindAt S.right (S.start' + S.size) = .endOfText ∨
  atDeclaration S.right (S.start' + S.size) = true)

include hwall

theorem endsAt_typeRest (hname : SameText name name') :
    S.EndsAt k (typeRest doc name m i) (typeRest doc name' m i') fun d d' what =>
      SameDeclaration d d' ∧ what = .typeBody name.text := by
  have hbody (ps : List (TypeRef Extent)) (o l : Nat) (d : Declaration Extent) (l' : Nat)
      (h : (do
        let members ← typeBody name.text o
        return (.type ⟨doc, name, m, ps, members, ← extentFrom i⟩ : Declaration Extent)).Yields
          S.left l d l') : l < l' := by
    obtain ⟨ms, l'', hms, h⟩ := yields_bind.1 h
    have hend : (pure _ : Rule (Declaration Extent)).Yields S.left l'' d l' := h
    obtain ⟨-, rfl⟩ := yields_pure.1 hend
    exact lt_of_yields_typeBody hms
  refine (carries_parents k).endsAt_bind (fun ps l d l' h => ?_) fun ps ps' l hps => ?_
  · obtain ⟨t, l', ht, h⟩ := yields_bind.1 (yields_position_bind.1 h)
    obtain ⟨-, -, rfl⟩ := yields_expect.1 ht
    exact Nat.lt_of_succ_lt (hbody ps _ _ _ _ h)
  · refine endsAt_position_bind fun o o' => ?_
    refine (carries_expect l).endsAt_bind (fun _ => hbody ps o) fun _ _ l' _ => ?_
    rw [hname]
    refine (endsAt_typeBody hwall).extent ?_
    rintro ms ms' e e' _ ⟨hms, rfl⟩
    exact ⟨same_type hname hps hms, rfl⟩

/-- A type of which only the closing brace is left out is read nevertheless. -/
theorem endsAt_declaration {t : TypeDecl Extent}
    (hclose : kindAt S.left (S.start + S.size) = .symbol .rBrace)
    (h : declaration.Yields S.left (S.start + k) (.type t) (S.start + S.size + 1)) :
    ∃ d' opened, declaration S.right (S.start' + k) = ⟨some d', S.start' + S.size,
        [⟨.unclosed .rBrace (.typeBody t.name.text) (.single opened), .single (S.start' + S.size)⟩]⟩ ∧
      SameDeclaration (.type t) d' := by
  obtain ⟨m, l, hm, hn, hk, htext, hrest⟩ := exists_of_yields_declaration h
  have hlt := lt_of_yields_typeRest hrest
  rcases carries_typeModifier k m l hm with hcross | ⟨n, _, hkn, hnw, rfl, hm', rfl⟩
  · omega
  · -- the name and the item behind it are before the wall, where a closing brace is
    have hn_lt : n < S.size := by
      refine Nat.lt_of_le_of_ne hnw fun he => ?_
      rw [he, hclose] at hn
      cases hn
    have hsucc_lt : n + 1 < S.size := by
      refine Nat.lt_of_le_of_ne hn_lt fun he => ?_
      rw [Nat.add_assoc, he, hclose] at hk
      simp at hk
    have hn' := (S.kindAt_eq hn_lt).trans hn
    have hk' := S.kindAt_eq hsucc_lt
    rw [← Nat.add_assoc, ← Nat.add_assoc] at hk'
    rw [← hk'] at hk
    have hname : SameText ⟨(itemAt S.left (S.start + n)).text, .single (S.start + n)⟩
        ⟨(itemAt S.right (S.start' + n)).text, .single (S.start' + n)⟩ := (S.same n hn_lt).text_eq
    obtain ⟨d', what, opened, hd', hsame, rfl⟩ :=
      endsAt_typeRest (k := n + 1) hwall hname (.type t) hrest
    refine ⟨d', opened, ?_, hsame⟩
    rw [declaration_eq hm' hn' hk, typeFrom, (S.same k (by omega)).doc_eq, htext]
    exact hd'

end

/-- Entries that only differ in their places. -/
def SameEntry : Entry → Entry → Prop
  | .import_ d, .import_ d' => d'.map forget = d.map forget
  | .declaration d, .declaration d' => SameDeclaration d d'
  | _, _ => False

theorem carries_entry : S.Carries entry entry SameEntry := by
  have hlt (i : Nat) : entry.Ensures S.left i fun _ j => i < j :=
    (ensures_entry S.reads).imp fun _ _ h => h.lt
  have hdeclaration : S.Carries (do return Entry.declaration (← declaration))
      (do return Entry.declaration (← declaration)) SameEntry :=
    carries_declaration.bind (fun _ => rfl) fun _ _ hd => carries_pure hd
  refine carries_of_lt hlt fun k hk => carriesAt_peekKind_bind hk ?_
  split
  · exact carries_importDecl.bind (fun _ => rfl) (fun _ _ hd => carries_pure hd) k
  · exact hdeclaration k
  · exact hdeclaration k
  · exact hdeclaration k
  · exact carries_reject k
  · exact carries_reject k

end Overlap

end SchemaLang
