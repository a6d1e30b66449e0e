import SchemaLang.Grammar.Unit
import SchemaLang.Proofs.Confined.Member

/-!
# Units are confined

* `Frame.HoldsImport` and `Frame.HoldsBody`: an import and a body with places of the items alone.

Main statement: the loop over the entries of a unit comes to the end of the text, whatever stands behind
that and however many rounds it may have (`Frame.holds_unitBody`).
-/

set_option autoImplicit false

namespace SchemaLang.Frame

open SchemaLang.Rule

variable {τ : Type} {F : Frame τ} {floor i : Nat}

/-! ## Headers and imports -/

theorem confined_header :
    F.Confined 0 header header 0 fun h _ => h.place.map F.f = h.place.map F.g := by
  simp only [header, confined_peekKind_bind, confined_ite, confined_position_bind,
    confined_nextDoc_bind]
  refine ⟨fun hk => ?_, fun _ => confined_blame_bind (fun _ => rfl) (confined_pure.2 fun _ => rfl)⟩
  refine confined_take_bind (by simp [hk]) (confined_of_le fun hi => ?_)
  rw [confined_peekKind_bind, confined_ite]
  refine ⟨fun hk' => confined_take_bind (by simp [hk']) (confined_of_le fun hi' => ?_), fun _ => ?_⟩
  · exact confined_extentFrom_bind.2
      (confined_pure.2 fun _ => congrArg some (F.place_from (Nat.zero_le _) hi'))
  · exact confined_blame_bind (fun _ => rfl) (confined_extentFrom_bind.2
      (confined_pure.2 fun _ => congrArg some (F.place_from (Nat.zero_le _) hi)))

theorem confined_aliasName (hl : floor ≤ i) :
    F.Confined floor aliasName aliasName i
      fun n j => i < j ∧ ∀ a ∈ n, F.Inside a.place := by
  refine confined_of_le fun hi => ?_
  have place := F.inside_single hi
  simp only [aliasName, confined_peekKind_bind, confined_ite]
  refine ⟨fun h => ?_, fun _ => ⟨fun h => ?_, fun _ => confined_reject (fun _ => rfl) hl⟩⟩
  · refine confined_takeName_bind (TokenKind.ne_of_allowed h rfl) ?_
    exact confined_pure.2 fun _ => ⟨by omega, by simpa using place⟩
  · refine confined_takeName_bind (fun he => by simp [he, TokenKind.isKeyword] at h) ?_
    rw [confined_ite]
    refine ⟨fun _ => confined_pure.2 fun _ => ⟨by omega, by simp⟩, fun _ => ?_⟩
    exact confined_report_bind rfl place.eq (confined_pure.2 fun _ => ⟨by omega, by simp⟩)

structure HoldsImport (F : Frame τ) (d : Import Extent) : Prop where
  place : F.Inside d.place
  alias_ : ∀ a ∈ d.alias_, F.Inside a.place

theorem HoldsImport.aliasPlace {d : Import Extent} (h : F.HoldsImport d) :
    F.Inside d.aliasPlace := by
  unfold Import.aliasPlace
  split
  · rename_i a ha
    exact h.alias_ a ha
  · exact h.place

theorem HoldsImport.map_eq {d : Import Extent} (h : F.HoldsImport d) : d.map F.f = d.map F.g := by
  have ha : d.alias_.map (Name.map F.f) = d.alias_.map (Name.map F.g) := by
    refine Option.map_congr fun a ha => ?_
    rw [Name.map, (h.alias_ a ha).eq, Name.map]
  simp only [Import.map, ha, h.place.eq]

theorem confined_importDecl (hl : floor ≤ i) (hk : kindAt F.items i ≠ .endOfText) :
    F.Confined floor importDecl importDecl i fun d j => i < j ∧ F.HoldsImport d := by
  have hi := Nat.le_of_lt (F.lt_last hk)
  simp only [importDecl, confined_position_bind]
  refine confined_take_bind hk ?_
  refine confined_expect_bind (by omega) (by simp) fun _ => ?_
  rw [confined_peekKind_bind, confined_ite]
  refine ⟨fun hk => confined_take_bind (by simp [hk]) ?_, fun _ => confined_of_le fun hj => ?_⟩
  · refine (confined_aliasName (by omega)).bind ?_
    rintro n j hj' ⟨hj, hplace⟩
    exact confined_extentFrom_bind.2
      (confined_pure.2 fun _ => ⟨by omega, F.inside_from hi hj', hplace⟩)
  · exact confined_extentFrom_bind.2
      (confined_pure.2 fun _ => ⟨by omega, F.inside_from hi hj, by simp⟩)

/-! ## Declarations -/

theorem confined_typeModifier (hl : floor ≤ i) (hk : kindAt F.items i ≠ .endOfText) :
    F.Confined floor typeModifier typeModifier i fun _ j => i < j := by
  simp only [typeModifier, confined_peekKind_bind]
  split
  · refine confined_take_bind hk (confined_expect_bind (by omega) (by simp) fun _ => ?_)
    exact confined_pure.2 fun _ => by omega
  · refine confined_take_bind hk (confined_expect_bind (by omega) (by simp) fun _ => ?_)
    exact confined_pure.2 fun _ => by omega
  · exact confined_take_bind hk (confined_pure.2 fun _ => by omega)

theorem confined_declarationName (hl : floor < i) :
    F.Confined floor declarationName declarationName i
      fun n j => i < j ∧ n.map F.f = n.map F.g := by
  refine confined_of_le fun hi => ?_
  simp only [declarationName, confined_peek_bind, confined_ite]
  refine ⟨fun _ => confined_rejectBehind (fun _ => rfl) hl, fun _ => ?_⟩
  refine (confined_expectName hl rfl).imp ?_
  rintro _ _ ⟨-, rfl, rfl⟩
  exact ⟨by omega, by simp only [Name.map, F.place_single hi]⟩

theorem confined_furtherParents {n n' : Nat} (hl : floor < i) (hn : F.last < n + i)
    (hn' : F.last < n' + i) :
    F.Confined floor (furtherParents n) (furtherParents n') i
      fun ps j => i ≤ j ∧ ps.map (TypeRef.map F.f) = ps.map (TypeRef.map F.g) := by
  simp only [furtherParents_eq]
  exact confined_further (m := TypeRef.map) (fun j hj => confined_typeRef (by omega)) hn hn'

theorem confined_parents (hl : floor < i) :
    F.Confined floor parents parents i
      fun ps j => i ≤ j ∧ ps.map (TypeRef.map F.f) = ps.map (TypeRef.map F.g) := by
  have hsize := F.size_eq
  have hle := F.size_le
  simp only [parents, confined_peekKind_bind, confined_ite]
  refine ⟨fun hk => ?_, fun _ => confined_pure.2 fun _ => ⟨Nat.le_refl i, rfl⟩⟩
  refine confined_take_bind (by simp [hk]) ((confined_typeRef (by omega)).bind ?_)
  rintro r j hj' ⟨hj, hmap⟩
  rw [confined_remaining_bind]
  refine (confined_furtherParents (by omega) (by omega) (by omega)).bind ?_
  rintro rs k - ⟨hk, hmaps⟩
  exact confined_pure.2 fun _ => ⟨by omega, by simp [hmap, hmaps]⟩

theorem confined_declaredDatatype (hl : floor < i) :
    F.Confined floor declaredDatatype declaredDatatype i
      fun b j => i < j ∧ b.map F.f = b.map F.g := by
  simp only [declaredDatatype, confined_peekKind_bind]
  split
  · rename_i kind hk
    refine (confined_builtin (by omega) (by simp [hk])).imp ?_
    rintro _ _ ⟨hj, htype, hplace⟩
    exact ⟨hj, by simp only [PlacedBuiltin.map, htype, hplace]⟩
  · exact confined_rejectBehind (fun _ => rfl) hl

theorem confined_declaration (hl : floor ≤ i) (hk : kindAt F.items i ≠ .endOfText) :
    F.Confined floor declaration declaration i
      fun d j => i < j ∧ d.map F.f = d.map F.g := by
  have hi := Nat.le_of_lt (F.lt_last hk)
  simp only [declaration, confined_position_bind, confined_peek_bind]
  refine (confined_typeModifier hl hk).bind fun m j _ hj => ?_
  refine (confined_declarationName (by omega)).bind ?_
  rintro name k - ⟨hk, hname⟩
  have type :
      let r : Rule (Declaration Extent) := do
        let ps ← parents
        let opened ← position
        let _ ← expect (.symbol .lBrace)
        let members ← typeBody name.text opened
        return .type ⟨(itemAt F.items i).doc, name, m, ps, members, ← extentFrom i⟩
      F.Confined floor r r k fun d j => i < j ∧ d.map F.f = d.map F.g := by
    refine (confined_parents (by omega)).bind ?_
    rintro ps l hl' ⟨hl, hps⟩
    rw [confined_position_bind]
    refine confined_expect_bind (by omega) (by simp) fun _ => ?_
    refine (confined_typeBody hl').bind ?_
    rintro ms n hn' ⟨hn, hms⟩
    refine confined_extentFrom_bind.2 (confined_pure.2 fun _ => ⟨by omega, ?_⟩)
    simp only [Declaration.map, TypeDecl.map, hname, hps, hms, F.place_from hi hn']
  rw [confined_peekKind_bind]
  split
  · rename_i hassign
    rw [confined_ite]
    refine ⟨fun _ => confined_report_bind rfl (F.place_single hi) ?_, fun _ => ?_⟩
    all_goals
      refine confined_take_bind (by simp [hassign]) ((confined_declaredDatatype (by omega)).bind ?_)
      rintro b l hl' ⟨hl, hmap⟩
      refine confined_extentFrom_bind.2 (confined_pure.2 fun _ => ⟨by omega, ?_⟩)
      simp only [Declaration.map, DatatypeDecl.map, hname, hmap, F.place_from hi hl']
  · exact type
  · exact type
  · exact confined_rejectBehind (fun _ => rfl) (by omega)

/-! ## Entries -/

/-- An entry with places of the items alone. -/
def HoldsEntry (F : Frame τ) : Entry → Prop
  | .import_ d => F.HoldsImport d
  | .declaration d => d.map F.f = d.map F.g

theorem confined_entry : F.Confined i entry entry i fun e j => i < j ∧ F.HoldsEntry e := by
  have hl := Nat.le_refl i
  have declared (hk : kindAt F.items i ≠ .endOfText) :
      let r : Rule Entry := do return .declaration (← declaration)
      F.Confined i r r i fun e j => i < j ∧ F.HoldsEntry e := by
    refine (confined_declaration hl hk).bind ?_
    rintro d j - ⟨hj, hmap⟩
    exact confined_pure.2 fun _ => ⟨hj, hmap⟩
  simp only [entry, confined_peekKind_bind]
  split
  · rename_i hk
    refine (confined_importDecl hl (by simp [hk])).bind ?_
    rintro d j - ⟨hj, hd⟩
    exact confined_pure.2 fun _ => ⟨hj, hd⟩
  · rename_i hk
    exact declared (by simp [hk])
  · rename_i hk
    exact declared (by simp [hk])
  · rename_i hk
    exact declared (by simp [hk])
  · exact confined_reject (fun _ => rfl) hl
  · exact confined_reject (fun _ => rfl) hl

/-! ## Aliases -/

/-- All aliases taken have places of the items alone. -/
def HoldsAliases (F : Frame τ) (t : AliasTable) : Prop := ∀ e ∈ t.entries, F.Inside e.2

theorem HoldsAliases.inside_of_find? {t : AliasTable} {name : String} {first : Extent}
    (h : F.HoldsAliases t) (hf : t.find? name = some first) : F.Inside first := by
  obtain ⟨before, after, he, -⟩ := List.lookup_eq_some_iff.1 hf
  exact h (name, first) (by simp [he])

theorem HoldsAliases.add {t : AliasTable} {d : Import Extent} (h : F.HoldsAliases t)
    (hd : F.HoldsImport d) :
    (∀ p ∈ (t.add d).1, p.map F.f = p.map F.g) ∧ F.HoldsAliases (t.add d).2 := by
  unfold AliasTable.add
  dsimp only
  split
  · exact ⟨by simp [Problem.map, Cause.map, hd.place.eq], h⟩
  · split
    · rename_i first hf
      exact ⟨by simp [Problem.map, Cause.map, hd.aliasPlace.eq, (h.inside_of_find? hf).eq], h⟩
    · exact ⟨by simp, List.forall_mem_cons.2 ⟨hd.aliasPlace, h⟩⟩

/-! ## Bodies of units -/

structure HoldsBody (F : Frame τ) (b : UnitBody) : Prop where
  imports : b.imports.map (Import.map F.f) = b.imports.map (Import.map F.g)
  declarations :
    b.declarations.map (Declaration.map F.f) = b.declarations.map (Declaration.map F.g)
  problems : ∀ p ∈ b.problems, p.map F.f = p.map F.g
  stop : b.stop = F.last

theorem holdsBody_empty (h : i = F.last) : F.HoldsBody (.empty i) :=
  ⟨rfl, rfl, by simp [UnitBody.empty], h⟩

theorem HoldsBody.addProblems {b : UnitBody} {ps : List (Problem Extent)} (h : F.HoldsBody b)
    (hp : ∀ p ∈ ps, p.map F.f = p.map F.g) : F.HoldsBody (b.addProblems ps) :=
  ⟨h.imports, h.declarations,
    fun p hmem => (List.mem_append.1 hmem).elim (hp p) (h.problems p), h.stop⟩

theorem HoldsBody.addImport {b : UnitBody} {d : Import Extent} (h : F.HoldsBody b)
    (hd : F.HoldsImport d) : F.HoldsBody (b.addImport d) :=
  ⟨by simp [UnitBody.addImport, hd.map_eq, h.imports], h.declarations, h.problems, h.stop⟩

theorem HoldsBody.addDeclaration {b : UnitBody} {d : Declaration Extent} (h : F.HoldsBody b)
    (hd : d.map F.f = d.map F.g) : F.HoldsBody (b.addDeclaration d) :=
  ⟨h.imports, by simp [UnitBody.addDeclaration, hd, h.declarations], h.problems, h.stop⟩

/-- Each round reads an item at least, or skips one. There are more rounds than items left. -/
theorem holds_unitBody {n n' : Nat} {aliases : AliasTable} {declared : Bool} (hi : i ≤ F.last)
    (hn : F.last < n + i) (hn' : F.last < n' + i) (ha : F.HoldsAliases aliases) :
    unitBody F.more n' aliases declared i = unitBody F.items n aliases declared i ∧
      F.HoldsBody (unitBody F.items n aliases declared i) := by
  induction n generalizing i n' aliases declared with
  | zero => omega
  | succ n ih =>
    obtain ⟨n', rfl⟩ : ∃ m, n' = m + 1 := ⟨n' - 1, by omega⟩
    unfold unitBody
    rw [F.kindAt_eq hi]
    split
    · rename_i hk
      exact ⟨rfl, F.holdsBody_empty (Nat.le_antisymm hi ((F.end_iff i).1 hk))⟩
    · rename_i hk
      obtain ⟨he, hout⟩ := confined_entry hi
      rw [he]
      generalize entry F.items i = reply at hout
      obtain ⟨v, j, ps⟩ := reply
      obtain ⟨hj, hp, hv, hf⟩ := outcome_mk.1 hout
      cases v with
      | none =>
        have hij := lt_skip F.items .declaration (hf rfl)
        obtain ⟨hskip, hle⟩ := F.skip_eq .declaration (F.lt_last hk) hj
        obtain ⟨hb, hholds⟩ := @ih _ n' aliases declared hle (by omega) (by omega) ha
        simp only [hskip, hb]
        exact ⟨trivial, hholds.addProblems hp⟩
      | some e =>
        obtain ⟨hij, hholds⟩ := hv e rfl
        cases e with
        | import_ d =>
          obtain ⟨hclash, ha'⟩ := ha.add hholds
          obtain ⟨hb, hbody⟩ := @ih j n' _ declared hj (by omega) (by omega) ha'
          simp only [hb]
          refine ⟨trivial, (hbody.addImport hholds).addProblems fun p hmem => ?_⟩
          rcases List.mem_append.1 hmem with hmem | hmem
          · rcases List.mem_append.1 hmem with hmem | hmem
            · exact hp p hmem
            · split at hmem
              · obtain rfl := List.mem_singleton.1 hmem
                simp [Problem.map, Cause.map, hholds.place.eq]
              · cases hmem
          · exact hclash p hmem
        | declaration d =>
          obtain ⟨hb, hbody⟩ := @ih j n' aliases true hj (by omega) (by omega) ha
          simp only [hb]
          exact ⟨trivial, (hbody.addDeclaration hholds).addProblems hp⟩

/-! ## Units -/

theorem header_eq : header F.more 0 = header F.items 0 := (confined_header (Nat.zero_le _)).1

theorem holds_header :
    (header F.items 0).next ≤ F.last ∧
      (∀ h ∈ (header F.items 0).value, h.place.map F.f = h.place.map F.g) ∧
        ∀ p ∈ (header F.items 0).problems, p.map F.f = p.map F.g :=
  have h := (confined_header (F := F) (Nat.zero_le _)).2
  ⟨h.next_le, h.value, h.problems⟩

/-- The loop from the header on has enough rounds if it has one for each item. -/
theorem holds_body {n n' : Nat} (hn : F.items.size ≤ n) (hn' : F.items.size ≤ n') :
    unitBody F.more n' .empty false (header F.items 0).next =
        unitBody F.items n .empty false (header F.items 0).next ∧
      F.HoldsBody (unitBody F.items n .empty false (header F.items 0).next) := by
  have hsize := F.size_eq
  exact F.holds_unitBody F.holds_header.1 (by omega) (by omega) nofun

theorem inside_unitExtent : F.Inside (unitExtent F.items) := by
  have hsize := F.size_eq
  unfold unitExtent
  split
  · exact ⟨by simp only [Extent.single]; omega, by simp only [Extent.single]; omega⟩
  · exact ⟨Nat.zero_le _, by dsimp only; omega⟩

/-- All places of a unit and of its problems are extents of the items. -/
theorem map_readUnit_eq :
    (readUnit F.items).1.map F.f = (readUnit F.items).1.map F.g ∧
      (readUnit F.items).2.map (Problem.map F.f) = (readUnit F.items).2.map (Problem.map F.g) := by
  have hsize := F.size_le
  obtain ⟨-, hheader, hproblems⟩ := F.holds_header
  have hbody : F.HoldsBody (wholeBody F.items) := (F.holds_body (Nat.le_refl _) hsize).2
  unfold readUnit
  constructor
  · have hplace : ((header F.items 0).value.getD ⟨"", none, none⟩).place.map F.f =
        ((header F.items 0).value.getD ⟨"", none, none⟩).place.map F.g := by
      cases hv : (header F.items 0).value with
      | none => rfl
      | some a => exact hheader a hv
    simp only [SchemaUnit.map, hplace, hbody.imports, hbody.declarations, F.inside_unitExtent.eq]
  · refine List.map_congr_left fun p hmem => ?_
    rcases List.mem_append.1 hmem with hmem | hmem
    · exact hproblems p hmem
    · exact hbody.problems p hmem

end SchemaLang.Frame
