import SchemaLang.Proofs.Window.Expr

/-!
# Members in a body

What gives up in a body is left behind within the body: the braces that recovery counts are those that
the body has open, so the next boundary it finds is at the depth at which it has started
(`Window.skip_eq`). So a block ends at its own closing brace (`Window.block_ends`).

Main statement: the members of a type are read from its body alone (`Window.typeBody_ends`).
-/

set_option autoImplicit false

namespace SchemaLang.Window

open SchemaLang.Rule

variable {W : Window} {floor d i : Nat}

/-! ## Recovery -/

theorem atDeclaration_body (h : i ≤ W.size) : atDeclaration W.body i = false := by
  rcases Nat.lt_or_eq_of_le h with hlt | rfl
  · exact W.noDeclaration i hlt
  · simp [atDeclaration, W.closed_body]

/-- Declarations start where three items tell so, none of which is a brace but the last. -/
theorem atDeclaration_eq (h : i ≤ W.size) :
    atDeclaration W.text (W.start + i) = atDeclaration W.body i := by
  unfold atDeclaration
  rw [W.kindAt_eq h]
  have behind {j : Nat} (hj : j ≤ W.size) (hk : (kindAt W.body j).isPlain = true) :
      kindAt W.text (W.start + j + 1) = kindAt W.body (j + 1) :=
    W.kindAt_eq (lt_size_of_isPlain hj hk)
  split
  · rename_i hk
    rw [behind h (by simp [hk])]
  · rename_i hk
    rw [behind h (by simp [hk])]
  · rename_i hk
    rw [behind h (by simp [hk])]
    by_cases hup : kindAt W.body (i + 1) = .upperWord
    · have hi := lt_size_of_isPlain h (by simp [hk])
      have hlast := behind hi (by simp [hup])
      rw [show W.start + (i + 1) + 1 = W.start + i + 2 by omega] at hlast
      rw [hlast]
    · simp [hup]
  · rfl

theorem atMember_eq (h : i ≤ W.size) : atMember W.text (W.start + i) = atMember W.body i := by
  rcases Nat.lt_or_eq_of_le h with hlt | rfl
  · unfold atMember
    rw [W.kindAt_eq h, W.itemAt_eq i hlt]
    split
    · rfl
    · rfl
    · rfl
    · rename_i hk
      have : kindAt W.text (W.start + i + 1) = kindAt W.body (i + 1) := W.kindAt_eq hlt
      rw [this]
    · rfl
  · simp [atMember, W.closed_text, W.closed_body]

/-- In a body, recovery looks for members outside the braces opened since. -/
theorem isBoundary_eq (h : i ≤ W.size) (depth : Nat) :
    isBoundary W.text .member depth (W.start + i) = (depth == 0 && atMember W.body i) ∧
      isBoundary W.body .member depth i = (depth == 0 && atMember W.body i) := by
  simp [isBoundary, W.kindAt_eq h, atDeclaration_eq h, atMember_eq h, atDeclaration_body h,
    kindAt_body_ne h]

theorem braceDepth_eq (hp : W.Path floor i) (hp' : W.Path floor (i + 1)) :
    braceDepth (W.depth i - W.depth floor) (kindAt W.body i) =
      W.depth (i + 1) - W.depth floor := by
  have hi := hp'.le_size
  have hle := hp.depth_le
  have hle' := hp'.depth_le
  unfold braceDepth
  split
  · have := W.depth_open i hi ‹_›
    omega
  · have := W.depth_close i hi ‹_›
    omega
  · rename_i hl hr
    rw [W.depth_plain i hi]
    unfold TokenKind.isPlain
    split
    · exact absurd ‹_› (kindAt_body_ne (Nat.le_of_lt hi))
    · exact absurd ‹_› hl
    · exact absurd ‹_› hr
    · rfl

/-- The braces that recovery counts are the open ones of the body. -/
theorem depthFrom_eq (hp : W.Path floor i) :
    depthFrom W.text (W.start + floor) (W.start + i) = W.depth i - W.depth floor ∧
      depthFrom W.body floor i = W.depth i - W.depth floor := by
  obtain ⟨n, rfl⟩ : ∃ n, i = floor + n := ⟨i - floor, (Nat.add_sub_of_le hp.le).symm⟩
  induction n with
  | zero => simp [depthFrom]
  | succ n ih =>
    have hp' : W.Path floor (floor + n) := hp.pred (by omega)
    obtain ⟨htext, hbody⟩ := ih hp'
    refine ⟨?_, ?_⟩
    · rw [← Nat.add_assoc, ← Nat.add_assoc, depthFrom_succ _ (by omega), Nat.add_assoc, htext,
        W.kindAt_eq hp'.le_size]
      exact braceDepth_eq hp' hp
    · rw [← Nat.add_assoc, depthFrom_succ _ (by omega), hbody]
      exact braceDepth_eq hp' hp

/-- The search ends within the body, as its closing brace is a boundary at the latest. -/
theorem skipFrom_eq {count count' : Nat} (hp : W.Path floor i) (hc : W.size < count + i)
    (hc' : W.size < count' + i) :
    ∃ j, skipFrom W.text .member count (W.depth i - W.depth floor) (W.start + i) = W.start + j ∧
      skipFrom W.body .member count' (W.depth i - W.depth floor) i = j ∧ W.Path floor j ∧
        i ≤ j ∧ W.depth j = W.depth floor := by
  have hi := hp.le_size
  induction count generalizing i count' with
  | zero => omega
  | succ count ih =>
    obtain ⟨count', rfl⟩ : ∃ m, count' = m + 1 := ⟨count' - 1, by omega⟩
    obtain ⟨htext, hbody⟩ := isBoundary_eq hi (W.depth i - W.depth floor)
    unfold skipFrom
    rw [htext, hbody, W.kindAt_eq hi]
    split
    · rename_i hb
      have hle := hp.depth_le
      simp only [Bool.and_eq_true, beq_iff_eq] at hb
      exact ⟨i, rfl, rfl, hp, Nat.le_refl i, by omega⟩
    · rename_i hb
      have hle := hp.depth_le
      have hp' : W.Path floor (i + 1) := by
        by_cases hk : kindAt W.body i = .symbol .rBrace
        · have hd : W.depth floor < W.depth i := by
            have hmember : atMember W.body i = true := by simp [atMember, hk]
            simp only [hmember, Bool.and_true, beq_iff_eq] at hb
            omega
          exact (hp.closing hk (d := W.depth i - 1) (by omega) (by omega)).1
        · exact hp.step hk
      obtain ⟨j, hj, hj', hpj, hle', hdepth⟩ :=
        @ih (i + 1) count' hp' (by omega) (by omega) hp'.le_size
      rw [braceDepth_eq hp hp']
      exact ⟨j, hj, hj', hpj, by omega, hdepth⟩

/-- After an entry that gives up, reading goes on within the same braces. -/
theorem skip_eq (hk : kindAt W.body i ≠ .symbol .rBrace) {j : Nat} (hj : W.Path i j) :
    ∃ k, skip W.text .member (W.start + i) (W.start + j) = W.start + k ∧
      skip W.body .member i j = k ∧ W.Path i k ∧ i < k ∧ W.depth k = W.depth i := by
  have htext : W.start + W.size < W.text.size := lt_size_of_kindAt_ne (by simp [W.closed_text])
  have hbody : W.size < W.body.size := lt_size_of_kindAt_ne (by simp [W.closed_body])
  have hle := hj.le
  have hsize := hj.le_size
  have search {m : Nat} (hm : W.Path i m) (hlt : i < m) :
      ∃ k, skipFrom W.text .member (W.text.size - (W.start + m))
          (depthFrom W.text (W.start + i) (W.start + m)) (W.start + m) = W.start + k ∧
        skipFrom W.body .member (W.body.size - m) (depthFrom W.body i m) m = k ∧
        W.Path i k ∧ i < k ∧ W.depth k = W.depth i := by
    have hms := hm.le_size
    obtain ⟨hd, hd'⟩ := depthFrom_eq hm
    obtain ⟨k, hk, hk', hp, hmk, hdepth⟩ :=
      @skipFrom_eq W i m (W.text.size - (W.start + m)) (W.body.size - m) hm (by omega) (by omega)
    rw [hd, hd']
    exact ⟨k, hk, hk', hp, by omega, hdepth⟩
  unfold skip
  dsimp only
  by_cases heq : j = i
  · subst heq
    rw [if_pos (Nat.le_refl _), if_pos (Nat.le_refl _), Nat.add_assoc]
    exact search (hj.step hk) (Nat.lt_succ_self j)
  · rw [if_neg (by omega), if_neg (by omega)]
    exact search hj (by omega)

/-! ## Blocks -/

/-- A block ends behind the brace that closes it, whatever its entries are. There are more rounds than
items left. -/
theorem block_ends {α β : Type} {entry : Rule α} (what what' : Enclosure) (opened opened' : Nat)
    (map : α → β)
    (hentry : ∀ j d, W.Alike j d d entry entry j fun a a' k => j < k ∧ map a = map a')
    {n n' : Nat} (hi : i ≤ W.size) (hn : W.size < n + i) (hn' : W.size < n' + i) :
    ∃ as as' k, W.Path i k ∧ W.depth k = W.depth i ∧ kindAt W.body k = .symbol .rBrace ∧
      as.map map = as'.map map ∧
      (block entry what opened n W.text (W.start + i)).value = some as ∧
      (block entry what opened n W.text (W.start + i)).next = W.start + k + 1 ∧
      (block entry what' opened' n' W.body i).value = some as' ∧
      (block entry what' opened' n' W.body i).next = k + 1 := by
  induction n generalizing i n' with
  | zero => omega
  | succ n ih =>
    obtain ⟨n', rfl⟩ : ∃ m, n' = m + 1 := ⟨n' - 1, by omega⟩
    unfold block
    rw [W.kindAt_eq hi, atDeclaration_eq hi, atDeclaration_body hi]
    split
    · rename_i hk
      exact ⟨[], [], i, path_refl hi, rfl, hk, rfl, rfl, rfl, rfl, rfl⟩
    · rename_i hk
      have hopen : ¬ (kindAt W.body i = .endOfText ∨ false = true) := by
        simp [kindAt_body_ne hi]
      rw [if_neg hopen, if_neg hopen]
      obtain ⟨hnext, hp, hv⟩ := hentry i (W.depth i) (path_refl hi) rfl
      generalize entry W.text (W.start + i) = x at hnext hv
      generalize entry W.body i = x' at hnext hp hv
      obtain ⟨v, j, ps⟩ := x
      obtain ⟨v', j', ps'⟩ := x'
      dsimp only at hnext hp hv
      subst hnext
      rcases hv with ⟨rfl, rfl⟩ | ⟨a, a', rfl, rfl, hdepth, hlt, hmap⟩
      · obtain ⟨m, hm, hm', hpm, hlt, hdepth⟩ := skip_eq hk hp
        have hle := hpm.le_size
        obtain ⟨as, as', k, hpk, hdk, hk, hmaps, hvalue, hend, hvalue', hend'⟩ :=
          @ih m n' hle (by omega) (by omega)
        refine ⟨as, as', k, hpm.trans hpk, hdk.trans hdepth, hk, hmaps, ?_⟩
        simp only [thenRest, hm, hm']
        exact ⟨hvalue, hend, hvalue', hend'⟩
      · obtain ⟨as, as', k, hpk, hdk, hk, hmaps, hvalue, hend, hvalue', hend'⟩ :=
          @ih j' n' hp.le_size (by omega) (by omega)
        refine ⟨a :: as, a' :: as', k, hp.trans hpk, hdk.trans hdepth, hk, ?_, ?_⟩
        · simp [hmap, hmaps]
        · simp only [thenRest, hvalue, hvalue', Option.map_some]
          exact ⟨trivial, hend, trivial, hend'⟩

/-! ## Properties -/

theorem alike_propertyModifier :
    W.Alike floor d d propertyModifier propertyModifier i fun m m' j => m = m' ∧ i ≤ j := by
  simp only [propertyModifier, alike_peekKind_bind]
  split
  · rename_i hk
    exact alike_take_bind (by simp [hk]) (alike_pure ⟨rfl, by omega⟩)
  · rename_i hk
    exact alike_take_bind (by simp [hk]) (alike_pure ⟨rfl, by omega⟩)
  · exact alike_pure ⟨rfl, Nat.le_refl i⟩

theorem allowsPlain_namesProperty : AllowsPlain TokenKind.namesProperty := ⟨rfl, rfl, rfl⟩

theorem alike_property (hk : (kindAt W.body i).namesProperty = true) :
    W.Alike floor d d property property i
      fun p p' j => i < j ∧ p.map forget = p'.map forget := by
  have hplain := allowsPlain_namesProperty.isPlain hk
  refine alike_of_le fun hi => ?_
  simp only [property, alike_position_bind]
  refine alike_nextDoc_bind (lt_size_of_isPlain hi hplain) ?_
  refine alike_takeName_bind hplain fun p p' => alike_datatypeRef.bind ?_
  rintro t t' j ⟨hj, hmap⟩
  refine alike_propertyModifier.bind ?_
  rintro m _ k ⟨rfl, hk⟩
  rw [alike_extentFrom_bind]
  exact alike_pure ⟨by omega, by simp [Property.map, Name.map, hmap, forget]⟩

theorem alike_edgeProperty :
    W.Alike floor d d edgeProperty edgeProperty i
      fun p p' j => i < j ∧ p.map forget = p'.map forget := by
  simp only [edgeProperty, alike_peekKind_bind, alike_ite]
  exact ⟨fun hk => alike_property hk, fun _ => alike_reject⟩

/-! ## Parts of relations -/

theorem alike_cardinality (hl : floor < i) :
    W.Alike floor d d cardinality cardinality i fun c c' j => c = c' ∧ i ≤ j := by
  simp only [cardinality, alike_peekKind_bind, alike_ite]
  refine ⟨fun hk => alike_take_bind (by simp [hk]) ?_, fun _ => alike_pure ⟨rfl, Nat.le_refl i⟩⟩
  rw [alike_peekKind_bind]
  split
  · rename_i hk
    exact alike_take_bind (by simp [hk]) (alike_pure ⟨rfl, by omega⟩)
  · rename_i hk
    exact alike_take_bind (by simp [hk]) (alike_pure ⟨rfl, by omega⟩)
  · exact alike_rejectBehind (by omega)

theorem alike_multiplicityForm (hl : floor < i) :
    W.Alike floor d d multiplicityForm multiplicityForm i fun m m' j => m = m' ∧ i < j := by
  simp only [multiplicityForm, alike_peekKind_bind]
  split
  · rename_i hk
    refine alike_take_bind (by simp [hk]) ((alike_cardinality (by omega)).bind ?_)
    rintro c _ j ⟨rfl, hj⟩
    exact alike_pure ⟨rfl, by omega⟩
  · rename_i hk
    refine alike_take_bind (by simp [hk]) ((alike_cardinality (by omega)).bind ?_)
    rintro c _ j ⟨rfl, hj⟩
    exact alike_pure ⟨rfl, by omega⟩
  · rename_i hk
    exact alike_take_bind (by simp [hk]) (alike_pure ⟨rfl, by omega⟩)
  · exact alike_reject

theorem alike_multiplicity (hl : floor < i) :
    W.Alike floor d d multiplicity multiplicity i fun m m' j => m = m' ∧ i ≤ j := by
  simp only [Rule.multiplicity, alike_peekKind_bind, alike_ite]
  refine ⟨fun hk => alike_take_bind (by simp [hk]) ?_, fun _ => alike_pure ⟨rfl, Nat.le_refl i⟩⟩
  refine (alike_multiplicityForm (by omega)).bind ?_
  rintro m _ j ⟨rfl, hj⟩
  rw [alike_peekKind_bind, alike_ite]
  refine ⟨fun hk => ?_, fun _ => alike_rejectBehind (by omega)⟩
  exact alike_take_bind (by simp [hk]) (alike_pure ⟨rfl, by omega⟩)

theorem alike_reverseEdge (hl : floor < i) :
    W.Alike floor d d reverseEdge reverseEdge i fun r r' j =>
      i ≤ j ∧ r.map (ReverseEdge.map forget) = r'.map (ReverseEdge.map forget) := by
  simp only [reverseEdge, alike_peekKind_bind, alike_ite, alike_position_bind]
  refine ⟨fun hk => alike_take_bind (by simp [hk]) ?_, fun _ => alike_pure ⟨Nat.le_refl i, rfl⟩⟩
  refine alike_expectName_bind (by omega) ⟨rfl, rfl, rfl⟩ fun p p' => ?_
  refine (alike_multiplicity (by omega)).bind ?_
  rintro m _ j ⟨rfl, hj⟩
  rw [alike_extentFrom_bind]
  exact alike_pure ⟨by omega, by simp [ReverseEdge.map, Name.map, forget]⟩

/-- The block closes the brace that is opened here. -/
theorem alike_relationBody :
    W.Alike floor d d relationBody relationBody i fun b b' j =>
      i ≤ j ∧ b.map (RelationBody.map forget) = b'.map (RelationBody.map forget) := by
  refine alike_of_path fun hp hd => ?_
  have hle : W.depth floor ≤ d := hd ▸ hp.depth_le
  simp only [relationBody, alike_peekKind_bind, alike_ite, alike_position_bind]
  refine ⟨fun hk => ?_, fun _ => alike_pure ⟨Nat.le_refl i, rfl⟩⟩
  refine (alike_takeOpening hk).bind ?_
  rintro _ _ _ rfl
  refine alike_remaining_bind fun n n' hn hn' => ?_
  refine Alike.bind (e := d)
    (P := fun ps ps' j => i < j ∧ ps.map (Property.map forget) = ps'.map (Property.map forget)) ?_ ?_
  · intro hp' hd'
    obtain ⟨ps, ps', k, hpk, hdk, hk, hmaps, hvalue, hend, hvalue', hend'⟩ :=
      block_ends .relationBody .relationBody (W.start + i) i (Property.map forget)
        (fun _ _ => alike_edgeProperty) hp'.le_size hn hn'
    obtain ⟨hclose, hdepth⟩ := (hp'.trans hpk).closing hk (hdk.trans hd') hle
    have hik := hpk.le
    exact ⟨by rw [hend, hend', Nat.add_assoc], hend' ▸ hclose,
      .inr ⟨ps, ps', hvalue, hvalue', hend' ▸ hdepth, by omega, hmaps⟩⟩
  · rintro ps ps' j ⟨hj, hmaps⟩
    rw [alike_extentFrom_bind]
    exact alike_pure ⟨by omega, by simp [RelationBody.map, hmaps, forget]⟩

/-! ## Members -/

section

variable (hl : floor ≤ i) (hk : (kindAt W.body i).isPlain = true)

include hl hk

/-- What stands behind a relation has to be alike, given that the relation is. -/
theorem alike_relation {α : Type} {rest rest' : Nat → Option String → Name Extent → Multiplicity →
      TypeRef Extent → Option (ReverseEdge Extent) → Rule α} {d' : Nat} {Q : α → α → Nat → Prop}
    (h : ∀ start start' doc name name' m target target' reverse reverse' j, i + 2 < j →
      name.map forget = name'.map forget → target.map forget = target'.map forget →
      reverse.map (ReverseEdge.map forget) = reverse'.map (ReverseEdge.map forget) →
      W.Alike floor d d' (rest start doc name m target reverse)
        (rest' start' doc name' m target' reverse') j Q) :
    W.Alike floor d d' (relation rest) (relation rest') i Q := by
  refine alike_of_le fun hi => ?_
  simp only [relation, alike_position_bind]
  refine alike_nextDoc_bind (lt_size_of_isPlain hi hk) (alike_take_bind hk ?_)
  refine alike_expectName_bind (by omega) ⟨rfl, rfl, rfl⟩ fun p p' => ?_
  refine (alike_multiplicity (by omega)).bind ?_
  rintro m _ j ⟨rfl, hj⟩
  refine alike_typeRef.bind ?_
  rintro t t' k ⟨hk, htarget⟩
  refine (alike_reverseEdge (by omega)).bind ?_
  rintro r r' l ⟨hl, hreverse⟩
  exact h _ _ _ _ _ m t t' r r' l (by omega) (by simp [Name.map, forget]) htarget hreverse

theorem alike_association :
    W.Alike floor d d association association i
      fun a a' j => i < j ∧ a.map forget = a'.map forget := by
  rw [association_eq]
  refine alike_relation hl hk fun _ _ _ _ _ m _ _ _ _ j hj hname htarget hreverse => ?_
  refine alike_relationBody.bind ?_
  rintro b b' k ⟨hk, hbody⟩
  rw [alike_extentFrom_bind]
  exact alike_pure ⟨by omega, by simp [Association.map, hname, htarget, hreverse, hbody, forget]⟩

theorem alike_composition :
    W.Alike floor d d composition composition i
      fun c c' j => i < j ∧ c.map forget = c'.map forget := by
  rw [composition_eq]
  refine alike_relation hl hk fun _ _ _ _ _ m _ _ _ _ j hj hname htarget hreverse => ?_
  rw [alike_peekKind_bind, alike_ite]
  refine ⟨fun _ => alike_rejectBehind (by omega), fun _ => ?_⟩
  rw [alike_extentFrom_bind]
  exact alike_pure ⟨by omega, by simp [Composition.map, hname, htarget, hreverse, forget]⟩

theorem alike_invariant :
    W.Alike floor d d invariant invariant i
      fun v v' j => i < j ∧ v.map forget = v'.map forget := by
  simp only [invariant, alike_position_bind]
  refine alike_take_bind hk (alike_expect_bind (by omega) rfl fun _ => alike_expression.bind ?_)
  rintro e e' j ⟨hj, hmap⟩
  rw [alike_extentFrom_bind]
  exact alike_pure ⟨by omega, by simp [Invariant.map, hmap, forget]⟩

end

theorem alike_typeMember :
    W.Alike i d d typeMember typeMember i
      fun m m' j => i < j ∧ m.map forget = m'.map forget := by
  have hl := Nat.le_refl i
  simp only [typeMember, alike_peekKind_bind]
  split
  · rename_i hk
    refine (alike_association hl (by simp [hk])).bind ?_
    rintro a a' j ⟨hj, hmap⟩
    exact alike_pure ⟨hj, congrArg Member.association hmap⟩
  · rename_i hk
    refine (alike_composition hl (by simp [hk])).bind ?_
    rintro c c' j ⟨hj, hmap⟩
    exact alike_pure ⟨hj, congrArg Member.composition hmap⟩
  · rename_i hk
    refine (alike_invariant hl (by simp [hk])).bind ?_
    rintro v v' j ⟨hj, hmap⟩
    exact alike_pure ⟨hj, congrArg Member.invariant hmap⟩
  · rw [alike_ite]
    refine ⟨fun hk => (alike_property hk).bind ?_, fun _ => alike_reject⟩
    rintro p p' j ⟨hj, hmap⟩
    exact alike_pure ⟨hj, congrArg Member.property hmap⟩

/-- The members of a type are the same whatever the body stands in, and end behind its closing brace. -/
theorem typeBody_ends (name name' : String) (opened opened' : Nat) :
    ∃ ms ms', ms.map (Member.map forget) = ms'.map (Member.map forget) ∧
      (typeBody name opened W.text W.start).value = some ms ∧
      (typeBody name opened W.text W.start).next = W.start + W.size + 1 ∧
      (typeBody name' opened' W.body 0).value = some ms' := by
  have htext : W.start + W.size < W.text.size := lt_size_of_kindAt_ne (by simp [W.closed_text])
  have hbody : W.size < W.body.size := lt_size_of_kindAt_ne (by simp [W.closed_body])
  obtain ⟨ms, ms', k, hp, hdepth, hk, hmaps, hvalue, hend, hvalue', -⟩ :=
    @block_ends W 0 _ _ typeMember (.typeBody name) (.typeBody name') opened opened'
      (Member.map forget) (fun _ _ => alike_typeMember) (W.text.size - W.start) W.body.size
      (Nat.zero_le _) (by omega) (by omega)
  have hsize : k = W.size := by
    apply Classical.byContradiction
    intro hne
    have := W.depth_close k (Nat.lt_of_le_of_ne hp.le_size hne) hk
    rw [W.depth_zero] at hdepth
    omega
  subst hsize
  exact ⟨ms, ms', hmaps, hvalue, hend, hvalue'⟩

end SchemaLang.Window
