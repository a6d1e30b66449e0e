import SchemaLang.Proofs.Nested.Member

/-!
# Places of units

* `Entry.placeTree`: the tree of an import or a declaration.
* `UnitBody.Filled`: imports and declarations, taken together in the order of the text, lie one behind the
  other up to the item where reading stops.

Main statement: what is read from items up to an end is nested, whatever is wrong with it
(`Ended.nested`).
-/

set_option autoImplicit false

namespace SchemaLang

open PlaceTree

def Entry.placeTree : Entry → PlaceTree Extent
  | .import_ i => i.placeTree
  | .declaration d => d.placeTree

namespace Rule

variable {items : Items} {i : Nat}

theorem ensures_header :
    header.Ensures items i fun h j => Fill (h.place.toList.map leaf) i j := by
  simp only [header, ensures_bind, ensures_peekKind, ensures_ite, ensures_position, ensures_nextDoc,
    ensures_take, ensures_extentFrom, ensures_blame, ensures_pure]
  exact ⟨fun _ => ⟨fun _ => (covers_leaf (by omega)).fill, fun _ => (covers_leaf (by omega)).fill⟩,
    fun _ => Nat.le_refl i⟩

theorem ensures_aliasName :
    aliasName.Ensures items i fun a j => Fill (a.toList.map Name.placeTree) i j := by
  simp only [aliasName, ensures_bind, ensures_peekKind, ensures_ite, ensures_takeName, ensures_report,
    ensures_reject, ensures_pure, implies_true, and_true]
  exact ⟨fun _ => (covers_name _ i).fill, fun _ _ => ⟨fun _ => Nat.le_succ i, fun _ => Nat.le_succ i⟩⟩

theorem ensures_importDecl : importDecl.Ensures items i fun d j => d.placeTree.Covers i j := by
  simp only [importDecl, ensures_bind, ensures_position, ensures_take, ensures_expect,
    ensures_peekKind, ensures_ite, ensures_extentFrom, ensures_pure]
  refine fun _ => ⟨fun _ => ensures_aliasName.imp fun alias_ j hfill => ?_, fun _ => ?_⟩
  · have hle := hfill.le
    exact (hfill.mono (by omega) (Nat.le_refl j)).covers_node (by omega)
  · exact covers_leaf (by omega)

theorem ensures_typeModifier : typeModifier.Ensures items i fun _ j => i < j := by
  simp only [typeModifier, ensures_bind, ensures_peekKind]
  split <;> simp only [ensures_bind, ensures_take, ensures_expect, ensures_pure]
  · exact fun _ => by omega
  · exact fun _ => by omega
  · exact Nat.lt_succ_self i

theorem ensures_declarationName :
    declarationName.Ensures items i fun n j => n.placeTree.Covers i j := by
  simp only [declarationName, ensures_bind, ensures_peek, ensures_ite, ensures_rejectBehind,
    ensures_expectName, implies_true, true_and]
  exact fun _ _ => covers_name _ i

theorem ensures_furtherParents {n : Nat} :
    (furtherParents n).Ensures items i fun rs j => Fill (rs.map TypeRef.placeTree) i j := by
  rw [furtherParents_eq]
  exact ensures_fill_further fun _ => ensures_typeRef

theorem ensures_parents :
    parents.Ensures items i fun rs j => Fill (rs.map TypeRef.placeTree) i j := by
  simp only [parents, ensures_bind, ensures_peekKind, ensures_ite, ensures_take, ensures_remaining,
    ensures_pure]
  refine ⟨fun _ => ?_, fun _ => Nat.le_refl i⟩
  exact ensures_typeRef.imp fun r j hr =>
    ensures_furtherParents.imp fun rs k hrs => Fill.cons hr hrs (Nat.le_succ i)

theorem ensures_declaredDatatype :
    declaredDatatype.Ensures items i fun b j => b.placeTree.Covers i j := by
  simp only [declaredDatatype, ensures_bind, ensures_peekKind]
  split
  · exact ensures_builtin
  · exact ensures_rejectBehind

section

variable (h : ReadWithin items)

include h

theorem ensures_declaration : declaration.Ensures items i fun d j => d.placeTree.Covers i j := by
  refine ensures_declaration_of (ensures_typeModifier.imp fun modifier j hj => ?_)
  refine ensures_declarationName.imp fun name k hname => ⟨?_, ?_⟩
  · refine ensures_declaredDatatype.imp fun b l hb => ?_
    have hname' := hname.lt
    have hlt := hb.lt
    exact (Fill.cons hname (hb.fill.mono (Nat.le_succ k) (Nat.le_refl l))
      (Nat.le_of_lt hj)).covers_node (by omega)
  · refine ensures_parents.imp fun ps l hps => (ensures_typeBody h).imp fun members m hmembers => ?_
    have hparts := Fill.cons hname ((hps.mono (Nat.le_refl k) (Nat.le_succ l)).append hmembers)
      (Nat.le_of_lt hj)
    have hname' := hname.lt
    have hle := hps.le
    have hle' := hmembers.le
    exact hparts.covers_node (by omega)

theorem ensures_entry : entry.Ensures items i fun e j => e.placeTree.Covers i j :=
  ensures_entry_of (fun _ => ensures_importDecl) fun _ => ensures_declaration h

end

end Rule

/-! ## Bodies of units -/

structure UnitBody.FilledBy (b : UnitBody) (entries : List (PlaceTree Extent)) (i : Nat) : Prop where
  perm : entries.Perm
    (b.imports.map Import.placeTree ++ b.declarations.map Declaration.placeTree)
  imports : (b.imports.map Import.placeTree).Sublist entries
  declarations : (b.declarations.map Declaration.placeTree).Sublist entries
  fill : Fill entries i b.stop

namespace UnitBody

variable {b : UnitBody} {entries : List (PlaceTree Extent)} {i j : Nat}

theorem filledBy_empty (i : Nat) : (empty i).FilledBy [] i := ⟨.nil, .slnil, .slnil, Nat.le_refl i⟩

theorem FilledBy.mono (h : b.FilledBy entries j) (hij : i ≤ j) : b.FilledBy entries i :=
  ⟨h.perm, h.imports, h.declarations, h.fill.mono hij (Nat.le_refl _)⟩

theorem FilledBy.addProblems (h : b.FilledBy entries i) (ps : List (Problem Extent)) :
    (b.addProblems ps).FilledBy entries i := ⟨h.perm, h.imports, h.declarations, h.fill⟩

theorem FilledBy.addImport {d : Import Extent} (hd : d.placeTree.Covers i j)
    (h : b.FilledBy entries j) : (b.addImport d).FilledBy (d.placeTree :: entries) i :=
  ⟨h.perm.cons _, h.imports.cons_cons _, h.declarations.cons _, Fill.cons hd h.fill (Nat.le_refl i)⟩

theorem FilledBy.addDeclaration {d : Declaration Extent} (hd : d.placeTree.Covers i j)
    (h : b.FilledBy entries j) : (b.addDeclaration d).FilledBy (d.placeTree :: entries) i :=
  ⟨(h.perm.cons _).trans List.perm_middle.symm, h.imports.cons _, h.declarations.cons_cons _,
    Fill.cons hd h.fill (Nat.le_refl i)⟩

theorem FilledBy.le_import (h : b.FilledBy entries i) : ∀ d ∈ b.imports, i ≤ d.place.first := by
  intro d hd
  exact (h.fill.bounds _ (h.imports.subset (List.mem_map_of_mem hd))).2.1

theorem FilledBy.le_declaration (h : b.FilledBy entries i) :
    ∀ d ∈ b.declarations, i ≤ d.place.last := by
  intro d hd
  obtain ⟨-, hfirst, hle, -⟩ := h.fill.bounds _ (h.declarations.subset (List.mem_map_of_mem hd))
  rw [d.place_placeTree] at hfirst hle
  exact hfirst.trans hle

end UnitBody

/-- Each round puts an entry before those of the rest, or skips something. -/
theorem exists_filledBy_unitBody {items : Items} (h : ReadWithin items) {n i : Nat}
    {aliases : AliasTable} {declared : Bool} :
    ∃ entries, (unitBody items n aliases declared i).FilledBy entries i := by
  induction n generalizing i aliases declared with
  | zero => exact ⟨[], UnitBody.filledBy_empty i⟩
  | succ n ih =>
    unfold unitBody
    split
    · exact ⟨[], UnitBody.filledBy_empty i⟩
    · rename_i hk
      have hj := (h.forward i (lt_size_of_kindAt_ne hk)).1
      have hcover := Rule.ensures_entry (i := i) h
      unfold Rule.Ensures at hcover
      generalize Rule.entry items i = reply at hj hcover
      obtain ⟨v, j, ps⟩ := reply
      cases v with
      | none =>
        obtain ⟨entries, hrest⟩ := @ih (skip items .declaration i j) aliases declared
        have hskip := Nat.le_of_lt (lt_skip items .declaration hj)
        exact ⟨entries, (hrest.mono hskip).addProblems ps⟩
      | some e =>
        have hcover := hcover e rfl
        cases e with
        | import_ d =>
          obtain ⟨entries, hrest⟩ := @ih j (aliases.add d).2 declared
          exact ⟨_, (hrest.addImport hcover).addProblems _⟩
        | declaration d =>
          obtain ⟨entries, hrest⟩ := @ih j aliases true
          exact ⟨_, (hrest.addDeclaration hcover).addProblems _⟩

/-! ## Units -/

/-- All that is read lies before the end of the text, which the unit leaves out unless it is alone. -/
theorem Ended.nested {items : Items} (h : Ended items) :
    (readUnit items).1.Nested Extent.order := by
  have hread := h.readWithin
  have hstop := hread.stop
  obtain ⟨entries, hbody⟩ : ∃ entries,
      (wholeBody items).FilledBy entries (Rule.header items 0).next :=
    exists_filledBy_unitBody hread
  refine ⟨entries, hbody.perm, hbody.imports, hbody.declarations, ?_⟩
  have hhead : Fill ((((Rule.header items 0).value.getD ⟨"", none, none⟩).place).toList.map leaf) 0
      (Rule.header items 0).next := by
    cases hv : (Rule.header items 0).value with
    | none => exact Nat.zero_le _
    | some head => exact Rule.ensures_header head hv
  have hfill := hhead.append hbody.fill
  show (node (unitExtent items) _).Nested Extent.order
  unfold unitExtent
  split
  · have hempty := hfill.bounds
    refine .node (fun t ht => (hempty t ht).1) (fun t ht => ?_) hfill.pairwise
    have := hempty t ht
    omega
  · have hlast : items.size - 2 = (wholeBody items).stop - 1 := by omega
    rw [hlast]
    exact (hfill.covers_node (by omega)).nested

end SchemaLang
