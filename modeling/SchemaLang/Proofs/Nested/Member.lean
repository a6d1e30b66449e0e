import SchemaLang.Proofs.Totality
import SchemaLang.Proofs.Nested.Expr

/-!
# Places of members and bodies

The entries of a body lie one behind the other, whichever of them give up in between: recovery goes on
behind the start of what gave up, if that has not gone back behind its start (`Rule.ensures_block`).

Main statement: a member covers the items that it is read from (`Rule.ensures_typeMember`).
-/

set_option autoImplicit false

namespace SchemaLang.Rule

open PlaceTree

variable {items : Items} {i : Nat}

theorem ensures_block {α : Type} {entry : Rule α} {tree : α → PlaceTree Extent} {what : Enclosure}
    {opened n : Nat} (hentry : ∀ j, entry.Ensures items j fun a k => (tree a).Covers j k)
    (hforward : ∀ j < items.size, j ≤ (entry items j).next) :
    (block entry what opened n).Ensures items i fun as j => Fill (as.map tree) i j := by
  induction n generalizing i with
  | zero =>
    rintro as ⟨⟩
    exact Nat.le_refl i
  | succ n ih =>
    unfold Ensures block
    split
    · rintro as ⟨⟩
      exact Nat.le_succ i
    · split
      · rintro as ⟨⟩
        exact Nat.le_refl i
      · rename_i hend
        have hi := lt_size_of_kindAt_ne fun he => hend (.inl he)
        have hj := hforward i hi
        have hcover := hentry i
        unfold Ensures at hcover
        generalize entry items i = reply at hj hcover
        obtain ⟨v, j, ps⟩ := reply
        intro as has
        cases v with
        | some a =>
          obtain ⟨rest, hrest, rfl⟩ := Option.map_eq_some_iff.1 has
          exact Fill.cons (hcover a rfl) (ih rest hrest) (Nat.le_refl i)
        | none =>
          exact (ih as has).mono (Nat.le_of_lt (lt_skip items .member hj)) (Nat.le_refl _)

/-! ## Properties -/

theorem ensures_propertyModifier : propertyModifier.Ensures items i fun _ j => i ≤ j := by
  simp only [propertyModifier, ensures_bind, ensures_peekKind]
  split <;> simp

theorem ensures_property : property.Ensures items i fun p j => p.placeTree.Covers i j := by
  simp only [property, ensures_bind, ensures_position, ensures_nextDoc, ensures_takeName]
  refine ensures_datatypeRef.imp fun d j hd => ensures_propertyModifier.imp fun m k hk => ?_
  simp only [ensures_extentFrom, ensures_pure]
  have hlt := hd.lt
  have hname := covers_name (itemAt items i).text i
  exact (Fill.cons hname (hd.fill.mono (Nat.le_refl _) hk) (Nat.le_refl i)).covers_node (by omega)

theorem ensures_edgeProperty : edgeProperty.Ensures items i fun p j => p.placeTree.Covers i j := by
  simp only [edgeProperty, ensures_bind, ensures_peekKind, ensures_ite, ensures_reject,
    implies_true, and_true]
  exact fun _ => ensures_property

/-! ## Parts of relations -/

theorem ensures_cardinality : cardinality.Ensures items i fun _ j => i ≤ j := by
  simp only [cardinality, ensures_bind, ensures_peekKind, ensures_ite, ensures_take, ensures_pure,
    Nat.le_refl, implies_true, and_true]
  intro _
  split <;> simp <;> omega

theorem ensures_multiplicityForm : multiplicityForm.Ensures items i fun _ j => i ≤ j := by
  have behind : cardinality.Ensures items (i + 1) fun _ j => i ≤ j :=
    ensures_cardinality.imp fun _ _ h => by omega
  simp only [multiplicityForm, ensures_bind, ensures_peekKind]
  split <;> simp [behind]

theorem ensures_multiplicity : multiplicity.Ensures items i fun _ j => i ≤ j := by
  simp only [multiplicity, ensures_bind, ensures_peekKind, ensures_ite, ensures_take, ensures_pure,
    Nat.le_refl, implies_true, and_true, ensures_rejectBehind]
  exact fun _ => ensures_multiplicityForm.imp fun _ _ _ _ => by omega

theorem ensures_reverseEdge :
    reverseEdge.Ensures items i fun r j => Fill (r.toList.map ReverseEdge.placeTree) i j := by
  simp only [reverseEdge, ensures_bind, ensures_peekKind, ensures_ite, ensures_position,
    ensures_take, ensures_expectName, ensures_pure]
  refine ⟨fun _ _ => ensures_multiplicity.imp fun m j hj => ?_, fun _ => Nat.le_refl i⟩
  rw [ensures_extentFrom]
  have hname := covers_name (itemAt items (i + 1)).text (i + 1)
  exact ((hname.fill.mono (Nat.le_succ i) hj).covers_node (by omega)).fill

section

variable (h : ReadWithin items)

include h

theorem ensures_relationBody :
    relationBody.Ensures items i fun b j => Fill (b.toList.map RelationBody.placeTree) i j := by
  simp only [relationBody, ensures_bind, ensures_peekKind, ensures_ite, ensures_position,
    ensures_take, ensures_remaining, ensures_pure]
  refine ⟨fun _ => ?_, fun _ => Nat.le_refl i⟩
  refine (ensures_block (fun _ => ensures_edgeProperty) fun j hj => (h.forward j hj).2.2).imp ?_
  intro ps j hfill
  rw [ensures_extentFrom]
  have hle := hfill.le
  exact ((hfill.mono (Nat.le_succ i) (Nat.le_refl j)).covers_node (by omega)).fill

/-! ## Members -/

omit h in
/-- Behind an arrow, the parts of a relation fill what is read up to its reverse edge. -/
theorem ensures_relation {α : Type} {rest : Nat → Option String → Name Extent → Multiplicity →
      TypeRef Extent → Option (ReverseEdge Extent) → Rule α} {Q : α → Nat → Prop}
    (hrest : ∀ doc name m target reverse j, i < j → Fill (name.placeTree :: target.placeTree ::
        reverse.toList.map ReverseEdge.placeTree) i j →
      (rest i doc name m target reverse).Ensures items j Q) : (relation rest).Ensures items i Q := by
  simp only [relation, ensures_bind, ensures_position, ensures_nextDoc, ensures_take,
    ensures_expectName]
  refine fun _ => ensures_multiplicity.imp fun m j hj => ?_
  refine ensures_typeRef.imp fun target k htarget => ?_
  refine ensures_reverseEdge.imp fun reverse l hreverse => ?_
  have hparts := Fill.cons htarget hreverse hj
  have hle := hparts.le
  exact hrest _ _ m target reverse l (by omega)
    (Fill.cons (covers_name _ (i + 1)) hparts (Nat.le_succ i))

theorem ensures_association : association.Ensures items i fun a j => a.placeTree.Covers i j := by
  rw [association_eq]
  refine ensures_relation fun doc name m target reverse j hj hparts => ?_
  rw [ensures_bind]
  refine (ensures_relationBody h).imp fun body k hbody => ?_
  rw [ensures_bind, ensures_extentFrom, ensures_pure]
  have hle := hbody.le
  exact (hparts.append hbody).covers_node (by omega)

omit h in
theorem ensures_composition : composition.Ensures items i fun c j => c.placeTree.Covers i j := by
  rw [composition_eq]
  refine ensures_relation fun doc name m target reverse j hj hparts => ?_
  simp only [ensures_peekKind, ensures_ite, ensures_rejectBehind, ensures_bind, ensures_extentFrom,
    ensures_pure, implies_true, true_and]
  exact fun _ => hparts.covers_node hj

omit h in
theorem ensures_invariant : invariant.Ensures items i fun v j => v.placeTree.Covers i j := by
  simp only [invariant, ensures_bind, ensures_position, ensures_take, ensures_expect]
  refine fun _ => ensures_expression.imp fun e j he => ?_
  simp only [ensures_extentFrom, ensures_pure]
  have hlt := he.lt
  exact (he.fill.mono (by omega) (Nat.le_refl j)).covers_node (by omega)

theorem ensures_typeMember : typeMember.Ensures items i fun m j => m.placeTree.Covers i j :=
  ensures_typeMember_of (fun _ => ensures_association h) (fun _ => ensures_composition) ensures_invariant
    fun _ => ensures_property

theorem ensures_typeBody {name : String} {opened : Nat} :
    (typeBody name opened).Ensures items i
      fun ms j => Fill (ms.map Member.placeTree) i j := by
  simp only [typeBody, ensures_bind, ensures_remaining]
  exact ensures_block (fun _ => ensures_typeMember h) fun j hj => (h.forward j hj).2.1

end

end SchemaLang.Rule
