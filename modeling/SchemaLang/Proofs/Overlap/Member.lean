import SchemaLang.Proofs.Members
import SchemaLang.Proofs.Nested.Member
import SchemaLang.Proofs.Overlap.Expr

/-!
# Members and bodies in common

Members take two items at least. So what recovery looks at, an item and the two behind it, is before the
wall or at it wherever a member stands that does not go beyond (`Overlap.atDeclaration_eq`).

A body that ends at the wall, with the closing brace there, is not closed in the second sequence if
something else stands there. It has the same entries then, and costs one problem (`Overlap.endsAt_block`).
-/

set_option autoImplicit false

namespace SchemaLang

namespace Rule

variable {items : Items} {i : Nat}

theorem ensures_property_two : property.Ensures items i fun _ j => i + 2 ≤ j := by
  simp only [property, ensures_bind, ensures_position, ensures_nextDoc, ensures_takeName]
  refine ensures_datatypeRef.imp fun d j hd => ensures_propertyModifier.imp fun m k hk => ?_
  have hlt := hd.lt
  rw [ensures_extentFrom, ensures_pure]
  omega

theorem ensures_relation_two {α : Type} {rest : Nat → Option String → Name Extent → Multiplicity →
      TypeRef Extent → Option (ReverseEdge Extent) → Rule α}
    (h : ∀ start doc name m target reverse i,
      (rest start doc name m target reverse).Ensures items i fun _ j => i ≤ j) :
    (relation rest).Ensures items i fun _ j => i + 2 ≤ j := by
  simp only [relation, ensures_bind, ensures_position, ensures_nextDoc, ensures_take, ensures_expectName]
  refine fun _ => ensures_multiplicity.imp fun m j hj => ensures_typeRef.imp fun target k htarget => ?_
  refine ensures_reverseEdge.imp fun reverse l hreverse => (h _ _ _ _ _ _ _).imp fun _ _ hrest => ?_
  have hlt := htarget.lt
  have hle := hreverse.le
  omega

theorem ensures_invariant_two : invariant.Ensures items i fun _ j => i + 2 ≤ j := by
  simp only [invariant, ensures_bind, ensures_position, ensures_take, ensures_expect]
  refine fun _ => ensures_expression.imp fun e j he => ?_
  have hlt := he.lt
  rw [ensures_extentFrom, ensures_pure]
  omega

theorem ensures_edgeProperty_two : edgeProperty.Ensures items i fun _ j => i + 2 ≤ j := by
  simp only [edgeProperty, ensures_bind, ensures_peekKind, ensures_ite, ensures_reject,
    implies_true, and_true]
  exact fun _ => ensures_property_two

section

variable (h : ReadWithin items)

include h

theorem ensures_association_two : association.Ensures items i fun _ j => i + 2 ≤ j := by
  rw [association_eq]
  refine ensures_relation_two fun _ _ _ _ _ _ _ => ?_
  rw [ensures_bind]
  refine (ensures_relationBody h).imp fun b k hb => ?_
  rw [ensures_bind, ensures_extentFrom, ensures_pure]
  exact hb.le

omit h in
theorem ensures_composition_two : composition.Ensures items i fun _ j => i + 2 ≤ j := by
  rw [composition_eq]
  exact ensures_relation_two fun _ _ _ _ _ _ _ => by simp

theorem ensures_typeMember_two : typeMember.Ensures items i fun _ j => i + 2 ≤ j :=
  ensures_typeMember_of (fun _ => ensures_association_two h) (fun _ => ensures_composition_two)
    ensures_invariant_two fun _ => ensures_property_two

end

end Rule

namespace Overlap

open SchemaLang.Rule

variable {S : Overlap} {k : Nat}

theorem reads : ReadWithin S.left := S.ended.readWithin

/-! ## Properties -/

theorem carries_propertyModifier : S.Carries propertyModifier propertyModifier Eq := by
  refine carries_peekKind_bind ?_
  rintro κ κ' (rfl | ⟨rfl, rfl | rfl | rfl | rfl⟩)
  · split
    · exact carries_take_bind fun _ _ _ => carries_pure rfl
    · exact carries_take_bind fun _ _ _ => carries_pure rfl
    · exact carries_pure rfl
  all_goals exact carries_pure rfl

/-- Properties that only differ in their places. -/
def SameProperty (p p' : Property Extent) : Prop := p'.map forget = p.map forget

theorem carries_property : S.Carries property property SameProperty := by
  have hlt (i : Nat) : property.Ensures S.left i fun _ j => i < j :=
    ensures_property_two.imp fun _ _ h => by omega
  refine carries_of_lt hlt fun k hk => carriesAt_position_bind fun i i' => ?_
  refine carriesAt_nextDoc_bind hk fun doc => (carries_takeName k).bind (fun _ => rfl) ?_
  rintro ⟨text, p⟩ ⟨_, p'⟩ rfl
  refine carries_datatypeRef.bind (fun _ => rfl) fun d d' hd => ?_
  refine carries_propertyModifier.bind (fun _ => rfl) ?_
  rintro m _ rfl
  refine carries_extentFrom_bind fun _ _ => carries_pure ?_
  unfold SameProperty
  rw [Property.map, Property.map, hd]
  rfl

theorem carries_edgeProperty : S.Carries edgeProperty edgeProperty SameProperty := by
  have hlt (i : Nat) : edgeProperty.Ensures S.left i fun _ j => i < j :=
    ensures_edgeProperty_two.imp fun _ _ h => by omega
  refine carries_of_lt hlt fun k hk => carriesAt_peekKind_bind hk ?_
  exact carriesAt_ite Iff.rfl (fun _ => carries_property k) fun _ => carries_reject k

/-! ## Multiplicities -/

theorem carries_cardinality : S.Carries cardinality cardinality Eq := by
  refine carries_peekKind_ite (by simp [Unwalled]) ?_ (carries_pure rfl)
  refine carries_take_bind fun _ _ _ => carries_peekKind_bind ?_
  rintro κ κ' (rfl | ⟨rfl, -⟩)
  · split
    · exact carries_take_bind fun _ _ _ => carries_pure rfl
    · exact carries_take_bind fun _ _ _ => carries_pure rfl
    · exact carries_rejectBehind
  · exact carries_rejectBehind

/-- A form with a cardinality behind its first word. -/
theorem carries_form {many : Bool} :
    S.Carries (do let _ ← take; return .of many (← cardinality))
      (do let _ ← take; return Multiplicity.of many (← cardinality)) Eq := by
  refine carries_take_bind fun _ _ _ => carries_cardinality.bind (fun _ => rfl) ?_
  rintro m _ rfl
  exact carries_pure rfl

theorem carries_multiplicityForm : S.Carries multiplicityForm multiplicityForm Eq := by
  refine carries_peekKind_bind ?_
  rintro κ κ' (rfl | ⟨rfl, -⟩)
  · split
    · exact carries_form
    · exact carries_form
    · exact carries_take_bind fun _ _ _ => carries_pure rfl
    · exact carries_reject
  · exact carries_reject

theorem carries_multiplicity : S.Carries multiplicity multiplicity Eq := by
  refine carries_peekKind_ite (by simp [Unwalled]) ?_ (carries_pure rfl)
  refine carries_take_bind fun _ _ _ => carries_multiplicityForm.bind (fun _ => rfl) ?_
  rintro m _ rfl
  refine carries_peekKind_ite (by simp [Unwalled]) ?_ carries_rejectBehind
  exact carries_take_bind fun _ _ _ => carries_pure rfl

theorem carries_reverseEdge : S.Carries reverseEdge reverseEdge
    fun r r' => r'.map (ReverseEdge.map forget) = r.map (ReverseEdge.map forget) := by
  refine carries_peekKind_ite (by simp [Unwalled]) ?_ (carries_pure rfl)
  refine carries_position_bind fun _ _ => carries_take_bind fun _ _ _ => ?_
  refine carries_expectName_bind fun text p p' => carries_multiplicity.bind (fun _ => rfl) ?_
  rintro m _ rfl
  exact carries_extentFrom_bind fun _ _ => carries_pure rfl

/-! ## Bodies -/

/-- Recovery finds the same, unless it would look beyond the wall. -/
theorem atDeclaration_eq (hk : k + 2 ≤ S.size) :
    atDeclaration S.right (S.start' + k) = atDeclaration S.left (S.start + k) := by
  have hsecond : kindAt S.right (S.start' + k + 1) = kindAt S.left (S.start + k + 1) :=
    S.kindAt_eq (k := k + 1) hk
  have hthird := S.kindAt_iff (k := k + 2)
    (p := (· ∈ [.symbol .lBrace, .symbol .assign, .keyword .extendsWord])) (by simp [Unwalled]) hk
  rw [← Nat.add_assoc, ← Nat.add_assoc] at hthird
  unfold atDeclaration
  rw [S.kindAt_eq (Nat.lt_of_succ_lt hk), hsecond]
  split
  · rfl
  · rfl
  · exact decide_eq_decide.2 (and_congr_right' hthird)
  · rfl

section

variable {α β : Type} {entry entry' : Rule α} {F : α → β} {what : Enclosure} {opened opened' n : Nat}

/-- An entry without problems is put before the rest of the body. -/
theorem block_of_yields {items : Items} {i j : Nat} {a : α} (hk : kindAt items i ≠ .symbol .rBrace)
    (he : kindAt items i ≠ .endOfText) (hd : atDeclaration items i = false)
    (ha : entry.Yields items i a j) :
    block entry what opened (n + 1) items i =
      ⟨(block entry what opened n items j).value.map (a :: ·),
        (block entry what opened n items j).next,
        (block entry what opened n items j).problems⟩ := by
  rw [block_entry hk (by simp [he, hd]), ha]
  rfl

variable (hs : ∀ i, ¬ entry.Silent S.left i) (htwo : ∀ i, entry.Ensures S.left i fun _ j => i + 2 ≤ j)

include hs htwo

theorem lt_of_yields_block {i j : Nat} {as : List α}
    (h : (block entry what opened n).Yields S.left i as j) : i < j := by
  induction n generalizing i as with
  | zero => simp [block, Yields] at h
  | succ n ih =>
    rcases (yields_block_succ (hs i)).1 h with ⟨-, -, rfl⟩ | ⟨-, -, -, a, l, rest, ha, hrest, -⟩
    · exact Nat.lt_succ_self i
    · exact Nat.lt_trans (Nat.lt_of_succ_lt ((htwo i).of_yields ha)) (ih hrest)

variable (hentry : S.Carries entry entry' fun a a' => F a' = F a)

include hentry

/-- An entry that is not next to the wall is read in both sequences, and in both before the rest. -/
theorem carries_block : S.Carries (block entry what opened n) (block entry' what opened' n)
    fun as as' => as'.map F = as.map F := by
  induction n with
  | zero =>
    refine carries_of_not_yields fun i as j h => ?_
    simp [block, Yields] at h
  | succ n ih =>
    intro k as j h
    rcases (yields_block_succ (hs _)).1 h with
      ⟨hk, rfl, rfl⟩ | ⟨hk, he, hd, a, l, rest, ha, hrest, rfl⟩
    · rcases Nat.lt_or_ge k S.size with hlt | hge
      · have hk' := (S.kindAt_eq hlt).trans hk
        exact .inr ⟨k + 1, [], Nat.le_succ k, hlt, rfl, block_closed hk', rfl⟩
      · exact .inl (by omega)
    · have hl := (htwo _).of_yields ha
      rcases hentry k a l ha with hcross | ⟨m, a', hkm, hm, rfl, ha', hF⟩
      · exact .inl (Nat.lt_trans hcross (lt_of_yields_block hs htwo hrest))
      · rcases ih m rest j hrest with hcross | ⟨m', rest', hmm', hm', rfl, hrest', hF'⟩
        · exact .inl hcross
        · have hkind := S.kindAt_eq (k := k) (by omega)
          refine .inr ⟨m', a' :: rest', Nat.le_trans hkm hmm', hm', rfl, ?_,
            List.cons_eq_cons.2 ⟨hF, hF'⟩⟩
          unfold Yields at hrest' ⊢
          rw [block_of_yields (hkind ▸ hk) (hkind ▸ he) (by rw [S.atDeclaration_eq (by omega), hd]) ha',
            hrest']
          rfl

end

/-! ## Members -/

theorem carries_relationBody : S.Carries relationBody relationBody
    fun b b' => b'.map (RelationBody.map forget) = b.map (RelationBody.map forget) := by
  refine carries_peekKind_ite (by simp [Unwalled]) ?_ (carries_pure rfl)
  refine carries_position_bind fun _ _ => carries_take_bind fun _ _ _ => ?_
  refine carries_remaining_bind fun n => ?_
  refine (carries_block (fun _ => not_silent_edgeProperty S.noInvalid)
    (fun _ => ensures_edgeProperty_two) carries_edgeProperty).bind (fun _ => rfl) fun ps ps' hps => ?_
  refine carries_extentFrom_bind fun _ _ => carries_pure (congrArg some ?_)
  rw [RelationBody.map, RelationBody.map, hps]

/-- Members that only differ in their places. -/
def SameMember (m m' : Member Extent) : Prop := m'.map forget = m.map forget

theorem SameText.map_eq {n n' : Name Extent} (h : SameText n n') : n'.map forget = n.map forget := by
  unfold SameText at h
  rw [Name.map, Name.map, h]

theorem carriesAt_relation {α : Type} {rest rest' : Nat → Option String → Name Extent → Multiplicity →
      TypeRef Extent → Option (ReverseEdge Extent) → Rule α} {Q : α → α → Prop} (hk : k < S.size)
    (h : ∀ i i' doc name name' m target target' reverse reverse', name'.map forget = name.map forget →
      target'.map forget = target.map forget →
      reverse'.map (ReverseEdge.map forget) = reverse.map (ReverseEdge.map forget) →
      S.Carries (rest i doc name m target reverse) (rest' i' doc name' m target' reverse') Q) :
    S.CarriesAt k (relation rest) (relation rest') Q := by
  refine carriesAt_position_bind fun i i' => carriesAt_nextDoc_bind hk fun doc => ?_
  refine (carries_take k).bind Item.same_refl fun _ _ _ => ?_
  refine carries_expectName.bind (fun _ => rfl) fun name name' hname => ?_
  refine carries_multiplicity.bind (fun _ => rfl) ?_
  rintro m _ rfl
  refine carries_typeRef.bind (fun _ => rfl) fun r r' hr => ?_
  refine carries_reverseEdge.bind (fun _ => rfl) fun e e' he => ?_
  exact h i i' doc name name' m r r' e e' hname.map_eq hr he

theorem carriesAt_association (hk : k < S.size) : S.CarriesAt k association association
    fun a a' => a'.map forget = a.map forget := by
  rw [association_eq]
  refine carriesAt_relation hk fun _ _ _ _ _ _ _ _ _ _ hname htarget hreverse => ?_
  refine carries_relationBody.bind (fun _ => rfl) fun b b' hb => ?_
  refine carries_extentFrom_bind fun _ _ => carries_pure ?_
  rw [Association.map, Association.map, hname, htarget, hreverse, hb]

theorem carriesAt_composition (hk : k < S.size) : S.CarriesAt k composition composition
    fun c c' => c'.map forget = c.map forget := by
  rw [composition_eq]
  refine carriesAt_relation hk fun _ _ _ _ _ _ _ _ _ _ hname htarget hreverse => ?_
  refine carries_peekKind_ite (by simp [Unwalled]) carries_rejectBehind ?_
  refine carries_extentFrom_bind fun _ _ => carries_pure ?_
  rw [Composition.map, Composition.map, hname, htarget, hreverse]

theorem carries_invariant : S.Carries invariant invariant fun v v' => v'.map forget = v.map forget := by
  refine carries_position_bind fun _ _ => carries_take_bind fun _ _ _ => ?_
  refine carries_expect_bind fun t t' ht => carries_expression.bind (fun _ => rfl) fun e e' he => ?_
  refine carries_extentFrom_bind fun _ _ => carries_pure ?_
  unfold SameExpr at he
  rw [Invariant.map, Invariant.map, he, ht.text_eq]

theorem carries_typeMember : S.Carries typeMember typeMember SameMember := by
  have hlt (i : Nat) : typeMember.Ensures S.left i fun _ j => i < j :=
    (ensures_typeMember_two S.reads).imp fun _ _ h => by omega
  refine carries_of_lt hlt fun k hk => carriesAt_peekKind_bind hk ?_
  split
  · exact (carriesAt_association hk).bind (fun _ => rfl) fun a a' ha =>
      carries_pure (congrArg Member.association ha)
  · exact (carriesAt_composition hk).bind (fun _ => rfl) fun c c' hc =>
      carries_pure (congrArg Member.composition hc)
  · exact (carries_invariant k).bind (fun _ => rfl) fun v v' hv =>
      carries_pure (congrArg Member.invariant hv)
  · refine carriesAt_ite Iff.rfl (fun _ => ?_) fun _ => carries_reject k
    exact (carries_property k).bind (fun _ => rfl) fun p p' hp =>
      carries_pure (congrArg Member.property hp)

theorem carries_typeBody {name : String} {opened opened' : Nat} :
    S.Carries (typeBody name opened) (typeBody name opened')
      fun ms ms' => ms'.map (Member.map forget) = ms.map (Member.map forget) :=
  carries_remaining_bind fun _ => carries_block (fun _ => not_silent_typeMember S.noInvalid)
    (fun _ => ensures_typeMember_two S.reads) carries_typeMember

/-! ## Bodies that are not closed -/

section

variable {α β : Type} {r r' : Rule α} {P : α → α → Prop} {Q : α → α → Enclosure → Prop}

variable (S) in
/-- If `r` ends with the item at the wall, `r'` ends before it and complains that what it reads is not
closed. -/
def EndsAt (k : Nat) (r r' : Rule α) (Q : α → α → Enclosure → Prop) : Prop :=
  ∀ a, r.Yields S.left (S.start + k) a (S.start + S.size + 1) → ∃ a' what opened,
    r' S.right (S.start' + k) = ⟨some a', S.start' + S.size,
      [⟨.unclosed .rBrace what (.single opened), .single (S.start' + S.size)⟩]⟩ ∧ Q a a' what

/-- The first rule does not go beyond the wall, as the second one does not go back. -/
theorem CarriesAt.endsAt_bind {f f' : α → Rule β} {Q : β → β → Enclosure → Prop}
    (hr : S.CarriesAt k r r' P) (hlt : ∀ a i b j, (f a).Yields S.left i b j → i < j)
    (hf : ∀ a a' m, P a a' → S.EndsAt m (f a) (f' a') Q) : S.EndsAt k (r >>= f) (r' >>= f') Q := by
  intro b hb
  obtain ⟨a, l, ha, hb⟩ := yields_bind.1 hb
  rcases hr a l ha with hcross | ⟨m, a', hkm, hm, rfl, ha', hP⟩
  · have := hlt a l b _ hb
    omega
  · obtain ⟨b', what, opened, hb', hQ⟩ := hf a a' m hP b hb
    exact ⟨b', what, opened, by rw [ha'.bind_eq, hb'], hQ⟩

theorem endsAt_position_bind {f f' : Nat → Rule β} {Q : β → β → Enclosure → Prop}
    (h : ∀ i i', S.EndsAt k (f i) (f' i') Q) : S.EndsAt k (position >>= f) (position >>= f') Q :=
  h _ _

/-- Nothing is read behind the body. -/
theorem EndsAt.extent {g g' : α → Extent → β} {i i' : Nat} {Q' : β → β → Enclosure → Prop}
    (h : S.EndsAt k r r' Q) (hg : ∀ a a' e e' what, Q a a' what → Q' (g a e) (g' a' e') what) :
    S.EndsAt k (do let a ← r; return g a (← extentFrom i))
      (do let a ← r'; return g' a (← extentFrom i')) Q' := by
  intro b hb
  obtain ⟨a, l, ha, hb⟩ := yields_bind.1 hb
  obtain ⟨rfl, rfl⟩ := yields_pure.1 (show (pure (g a ⟨i, l - 1⟩) : Rule β).Yields S.left l b _ from hb)
  obtain ⟨a', what, opened, ha', hQ⟩ := h a ha
  refine ⟨g' a' ⟨i', S.start' + S.size - 1⟩, what, opened, ?_, hg _ _ _ _ _ hQ⟩
  show Rule.andThen r' _ S.right (S.start' + k) = _
  rw [andThen, ha']
  rfl

variable {entry entry' : Rule α} {F : α → β} {what : Enclosure} {opened opened' n : Nat}
  (hs : ∀ i, ¬ entry.Silent S.left i) (htwo : ∀ i, entry.Ensures S.left i fun _ j => i + 2 ≤ j)
  (hentry : S.Carries entry entry' fun a a' => F a' = F a)
  (hwall : kindAt S.right (S.start' + S.size) = .endOfText ∨
    atDeclaration S.right (S.start' + S.size) = true)

include hs htwo hentry hwall

theorem endsAt_block : S.EndsAt k (block entry what opened n) (block entry' what opened' n)
    fun as as' w => as'.map F = as.map F ∧ w = what := by
  induction n generalizing k with
  | zero =>
    intro as h
    simp [block, Yields] at h
  | succ n ih =>
    intro as h
    rcases (yields_block_succ (hs _)).1 h with
      ⟨hk, rfl, hend⟩ | ⟨hk, he, hd, a, l, rest, ha, hrest, rfl⟩
    · obtain rfl : k = S.size := by omega
      have hopen : kindAt S.right (S.start' + S.size) ≠ .symbol .rBrace := by
        intro hr
        simp [atDeclaration, hr] at hwall
      exact ⟨[], what, opened', block_unclosed hopen hwall, rfl, rfl⟩
    · have hl := (htwo _).of_yields ha
      have hforward := lt_of_yields_block hs htwo hrest
      rcases hentry k a l ha with hcross | ⟨m, a', hkm, hm, rfl, ha', hF⟩
      · omega
      · obtain ⟨rest', w, o, hrest', hF', rfl⟩ := ih rest hrest
        have hkind := S.kindAt_eq (k := k) (by omega)
        refine ⟨a' :: rest', w, o, ?_, List.cons_eq_cons.2 ⟨hF, hF'⟩, rfl⟩
        rw [block_of_yields (hkind ▸ hk) (hkind ▸ he) (by rw [S.atDeclaration_eq (by omega), hd]) ha',
          hrest']
        rfl

end

theorem lt_of_yields_typeBody {name : String} {opened i j : Nat} {ms : List (Member Extent)}
    (h : (typeBody name opened).Yields S.left i ms j) : i < j :=
  lt_of_yields_block (fun _ => not_silent_typeMember S.noInvalid)
    (fun _ => ensures_typeMember_two S.reads) (yields_remaining_bind.1 h)

theorem endsAt_typeBody {name : String} {opened opened' : Nat}
    (hwall : kindAt S.right (S.start' + S.size) = .endOfText ∨
      atDeclaration S.right (S.start' + S.size) = true) :
    S.EndsAt k (typeBody name opened) (typeBody name opened') fun ms ms' what =>
      ms'.map (Member.map forget) = ms.map (Member.map forget) ∧ what = .typeBody name := by
  have hright : typeBody name opened' S.right (S.start' + k) =
      block typeMember (.typeBody name) opened' (S.left.size - (S.start + k)) S.right
        (S.start' + k) := by
    rw [← S.remaining_eq]
    rfl
  intro ms h
  rw [hright]
  exact endsAt_block (fun _ => not_silent_typeMember S.noInvalid)
    (fun _ => ensures_typeMember_two S.reads) carries_typeMember hwall ms h

end Overlap

end SchemaLang
