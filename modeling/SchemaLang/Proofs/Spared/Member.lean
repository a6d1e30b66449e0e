import SchemaLang.Proofs.Spared.Expr
import SchemaLang.Proofs.Totality

/-!
# Members and bodies keep off malformed text

* `Advances r items`: from each item on, `r` reads an item at least or starts recovery no further back.

A body that lacks its brace is complained about at the item where it ends. That is a declaration or the end
of the text, and it is also the end of the text if a body runs out of rounds, since each round advances.

Main statement: `spares_typeBody`.
-/

set_option autoImplicit false

namespace SchemaLang

open SchemaLang.Rule

variable {items : Items} {i : Nat}

/-! ## Bodies -/

structure Advances {α : Type} (r : Rule α) (items : Items) : Prop where
  le_next : ∀ i < items.size, i ≤ (r items i).next
  lt_next : ∀ i < items.size, ∀ a, (r items i).value = some a → i < (r items i).next

theorem Ended.advances (h : Ended items) {α : Type} {r : Rule α} {Q : α → Nat → Prop}
    (hr : ∀ i, (h.frame #[] forget forget fun _ _ _ => rfl).Confined i r r i fun a j =>
      i < j ∧ Q a j) : Advances r items := by
  have hlast {i : Nat} (hi : i < items.size) : i ≤ items.size - 1 := Nat.le_sub_one_of_lt hi
  refine ⟨fun i hi => ?_, fun i hi a ha => ?_⟩
  · exact (hr i).le_next (hlast hi) fun _ _ hlt => Nat.le_of_lt hlt.1
  · exact ((hr i (hlast hi)).2.value a ha).1

theorem Ended.advances_typeMember (h : Ended items) : Advances typeMember items :=
  h.advances fun _ => Frame.confined_typeMember

theorem Ended.advances_edgeProperty (h : Ended items) : Advances edgeProperty items :=
  h.advances fun _ => Frame.confined_edgeProperty

/-- What starts a declaration is not malformed. -/
theorem ne_invalid_of_atDeclaration (h : atDeclaration items i = true) :
    kindAt items i ≠ .invalid := by
  intro hk
  simp [atDeclaration, hk] at h

namespace Rule

theorem spares_block {α : Type} {entry : Rule α} {what : Enclosure} {opened n : Nat}
    (hentry : ∀ i, entry.Spares items i) (hadvances : Advances entry items)
    (hn : items.size ≤ n + i) : (block entry what opened n).Spares items i := by
  induction n generalizing i with
  | zero =>
    have hk : kindAt items i = .endOfText := kindAt_of_size_le (by omega)
    simp [Spares, block, hk]
  | succ n ih =>
    unfold Spares block
    split
    · simp
    rename_i hclose
    split
    · rename_i hstop
      have hk : kindAt items i ≠ .invalid := by
        rcases hstop with hstop | hstop
        · simp [hstop]
        · exact ne_invalid_of_atDeclaration hstop
      simpa using hk
    · rename_i hgo
      have hlt : i < items.size := lt_size_of_kindAt_ne fun hk => hgo (.inl hk)
      have hspares := hentry i
      have hle := hadvances.le_next i hlt
      have hvalue := hadvances.lt_next i hlt
      unfold Spares at hspares
      generalize entry items i = reply at hspares hle hvalue
      obtain ⟨v, j, ps⟩ := reply
      cases v with
      | some a =>
        have hij : i < j := hvalue a rfl
        simp only [thenRest]
        exact List.forall_mem_append.2 ⟨hspares, ih (by omega)⟩
      | none =>
        have hij : i < skip items .member i j := lt_skip items .member hle
        simp only [thenRest]
        exact List.forall_mem_append.2 ⟨hspares, ih (by omega)⟩

/-! ## Members -/

theorem spares_propertyModifier : propertyModifier.Spares items i := by
  simp only [propertyModifier, spares_bind, spares_peekKind, ensures_peekKind, true_and]
  split <;> simp

theorem spares_property : property.Spares items i := by
  simp [property, spares_datatypeRef, spares_propertyModifier]

theorem spares_edgeProperty : edgeProperty.Spares items i := by
  simp [edgeProperty, spares_property]

theorem spares_cardinality : cardinality.Spares items i := by
  simp only [cardinality, spares_bind, spares_peekKind, ensures_peekKind, spares_ite, spares_take,
    ensures_take, spares_pure, true_and, implies_true, and_true]
  intro _
  split <;> simp

theorem spares_multiplicityForm : multiplicityForm.Spares items i := by
  simp only [multiplicityForm, spares_bind, spares_peekKind, ensures_peekKind, true_and]
  split <;> simp [spares_cardinality]

theorem spares_multiplicity : multiplicity.Spares items i := by
  simp [multiplicity, spares_multiplicityForm]

theorem spares_reverseEdge : reverseEdge.Spares items i := by
  simp [reverseEdge, spares_multiplicity]

theorem spares_relationBody (h : Ended items) : relationBody.Spares items i := by
  have hblock {opened : Nat} : (block edgeProperty .relationBody opened
      (items.size - (i + 1))).Spares items (i + 1) :=
    spares_block (fun _ => spares_edgeProperty) h.advances_edgeProperty (by omega)
  simp [relationBody, hblock]

theorem spares_association (h : Ended items) : association.Spares items i := by
  simp [association, spares_multiplicity, spares_typeRef, spares_reverseEdge, spares_relationBody h]

theorem spares_composition : composition.Spares items i := by
  simp [composition, spares_multiplicity, spares_typeRef, spares_reverseEdge]

theorem spares_invariant : invariant.Spares items i := by
  simp [invariant, spares_expression]

theorem spares_typeMember (h : Ended items) : typeMember.Spares items i := by
  simp only [typeMember, spares_bind, spares_peekKind, ensures_peekKind, true_and]
  split
  · simp [spares_association h]
  · simp [spares_composition]
  · simp [spares_invariant]
  · simp [spares_property]

theorem spares_typeBody (h : Ended items) {name : String} {opened : Nat} :
    (typeBody name opened).Spares items i := by
  have hblock : (block typeMember (.typeBody name) opened (items.size - i)).Spares items i :=
    spares_block (fun _ => spares_typeMember h) h.advances_typeMember (by omega)
  simp [typeBody, hblock]

end Rule

end SchemaLang
