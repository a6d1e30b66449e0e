import SchemaLang.Proofs.Confined.Expr

/-!
# Members and bodies are confined

Recovery is the same for the longer sequence of items, since it ends at the end of the text at the latest
(`Frame.skip_eq`). It starts where the entry that gave up has started, or behind that, so each round of a
body reads an item at least (`Frame.confined_block`).
-/

set_option autoImplicit false

namespace SchemaLang.Frame

open SchemaLang.Rule

variable {τ : Type} {F : Frame τ} {floor i : Nat}

/-! ## Recovery -/

/-- What stands behind an item that is not the end. -/
theorem kindAt_succ_eq (h : kindAt F.items i ≠ .endOfText) :
    kindAt F.more (i + 1) = kindAt F.items (i + 1) := F.kindAt_eq (F.lt_last h)

theorem atDeclaration_eq (h : i ≤ F.last) : atDeclaration F.more i = atDeclaration F.items i := by
  unfold atDeclaration
  rw [F.kindAt_eq h]
  split
  · rename_i hk
    rw [F.kindAt_succ_eq (by simp [hk])]
  · rename_i hk
    rw [F.kindAt_succ_eq (by simp [hk])]
  · rename_i hk
    rw [F.kindAt_succ_eq (by simp [hk])]
    by_cases hup : kindAt F.items (i + 1) = .upperWord
    · rw [F.kindAt_succ_eq (i := i + 1) (by simp [hup])]
    · simp [hup]
  · rfl

theorem atMember_eq (h : i ≤ F.last) : atMember F.more i = atMember F.items i := by
  unfold atMember
  rw [F.kindAt_eq h, F.itemAt_eq i h]
  split
  · rfl
  · rfl
  · rfl
  · rename_i hk
    rw [F.kindAt_succ_eq (by simp [hk])]
  · rfl

theorem isBoundary_eq (h : i ≤ F.last) (goal : Boundary) (depth : Nat) :
    isBoundary F.more goal depth i = isBoundary F.items goal depth i := by
  unfold isBoundary
  rw [F.kindAt_eq h, F.atDeclaration_eq h, F.atMember_eq h]

theorem depthFrom_eq {start : Nat} (h : i ≤ F.last) :
    depthFrom F.more start i = depthFrom F.items start i :=
  depthFrom_congr fun _ hk => F.kindAt_eq (by omega)

/-- The search for a boundary ends at the end of the text. -/
theorem skipFrom_eq {goal : Boundary} {count count' depth : Nat} (h : i ≤ F.last)
    (hc : F.last < count + i) (hc' : F.last < count' + i) :
    skipFrom F.more goal count' depth i = skipFrom F.items goal count depth i ∧
      skipFrom F.items goal count depth i ≤ F.last := by
  induction count generalizing i count' depth with
  | zero => omega
  | succ count ih =>
    obtain ⟨count', rfl⟩ : ∃ m, count' = m + 1 := ⟨count' - 1, by omega⟩
    unfold skipFrom
    rw [F.isBoundary_eq h, F.kindAt_eq h]
    split
    · exact ⟨rfl, h⟩
    · rename_i hb
      have hk : kindAt F.items i ≠ .endOfText := by
        intro he
        simp [isBoundary, he] at hb
      exact ih (F.lt_last hk) (by omega) (by omega)

theorem skip_eq (goal : Boundary) {start resume : Nat} (hs : start < F.last)
    (hr : resume ≤ F.last) :
    skip F.more goal start resume = skip F.items goal start resume ∧
      skip F.items goal start resume ≤ F.last := by
  have hsize := F.size_eq
  have hle := F.size_le
  unfold skip
  dsimp only
  split
  · rw [F.depthFrom_eq (by omega)]
    exact F.skipFrom_eq (by omega) (by omega) (by omega)
  · rw [F.depthFrom_eq hr]
    exact F.skipFrom_eq hr (by omega) (by omega)

/-! ## Bodies -/

/-- The entries of a body, each of which goes back no further than to its start. There are more rounds
than items left. -/
theorem confined_block {α β : Type} {entry : Rule α} {what : Enclosure} {opened : Nat}
    (mapF mapG : α → β) (ho : opened ≤ F.last)
    (hentry : ∀ j, F.Confined j entry entry j fun a k => j < k ∧ mapF a = mapG a) {n n' : Nat}
    (hn : F.last < n + i) (hn' : F.last < n' + i) :
    F.Confined floor (block entry what opened n) (block entry what opened n') i
      fun as j => i ≤ j ∧ as.map mapF = as.map mapG := by
  induction n generalizing i n' with
  | zero => exact confined_of_le fun hi => by omega
  | succ n ih =>
    intro hi
    obtain ⟨n', rfl⟩ : ∃ m, n' = m + 1 := ⟨n' - 1, by omega⟩
    unfold block
    rw [F.kindAt_eq hi, F.atDeclaration_eq hi]
    split
    · rename_i hk
      exact ⟨rfl, F.lt_last (by simp [hk]), by simp, by simp, nofun⟩
    · split
      · refine ⟨rfl, hi, ?_, by simp, nofun⟩
        simp [Problem.map, Cause.map, F.place_single hi, F.place_single ho]
      · rename_i hk hd
        have hlt : i < F.last := F.lt_last fun he => hd (.inl he)
        obtain ⟨he, hout⟩ := hentry i hi
        rw [he]
        generalize entry F.items i = reply at hout
        obtain ⟨v, j, ps⟩ := reply
        obtain ⟨hj, hp, hv, hf⟩ := outcome_mk.1 hout
        have both {rest : Reply (List α)} (hrest : ∀ p ∈ rest.problems, p.map F.f = p.map F.g) :
            ∀ p ∈ ps ++ rest.problems, p.map F.f = p.map F.g := fun p hmem =>
          (List.mem_append.1 hmem).elim (hp p) (hrest p)
        cases v with
        | some a =>
          obtain ⟨hij, ha⟩ := hv a rfl
          obtain ⟨hr, hout⟩ := @ih j n' (by omega) (by omega) hj
          simp only [thenRest, hr]
          generalize block entry what opened n F.items j = rest at hout
          refine ⟨trivial, hout.next_le, both hout.problems, fun as has => ?_, fun h => ?_⟩
          · obtain ⟨bs, hbs, rfl⟩ := Option.map_eq_some_iff.1 has
            obtain ⟨hle, hmap⟩ := hout.value bs hbs
            exact ⟨Nat.le_trans (Nat.le_of_lt hij) hle, by simp [ha, hmap]⟩
          · exact hout.floor_le (Option.map_eq_none_iff.1 h)
        | none =>
          have hij := lt_skip F.items .member (hf rfl)
          obtain ⟨hskip, hle⟩ := F.skip_eq .member hlt hj
          obtain ⟨hr, hout⟩ := @ih (skip F.items .member i j) n' (by omega) (by omega) hle
          simp only [thenRest, hskip, hr]
          generalize block entry what opened n F.items (skip F.items .member i j) = rest at hout
          refine ⟨trivial, hout.next_le, both hout.problems, fun as has => ?_, hout.floor_le⟩
          obtain ⟨hle, hmap⟩ := hout.value as has
          exact ⟨Nat.le_trans (Nat.le_of_lt hij) hle, hmap⟩

/-! ## Properties -/

theorem confined_propertyModifier :
    F.Confined floor propertyModifier propertyModifier i fun _ j => i ≤ j := by
  simp only [propertyModifier, confined_peekKind_bind]
  split
  · rename_i hk
    exact confined_take_bind (by simp [hk]) (confined_pure.2 fun _ => by omega)
  · rename_i hk
    exact confined_take_bind (by simp [hk]) (confined_pure.2 fun _ => by omega)
  · exact confined_pure.2 fun _ => Nat.le_refl i

theorem confined_property (hl : floor ≤ i) (hk : kindAt F.items i ≠ .endOfText) :
    F.Confined floor property property i fun p j => i < j ∧ p.map F.f = p.map F.g := by
  have hi := Nat.le_of_lt (F.lt_last hk)
  simp only [property, confined_position_bind, confined_nextDoc_bind]
  refine confined_takeName_bind hk ((confined_datatypeRef (by omega)).bind ?_)
  rintro d j - ⟨hj, hmap⟩
  refine confined_propertyModifier.bind ?_
  rintro m k hk' hk
  rw [confined_extentFrom_bind, confined_pure]
  refine fun _ => ⟨by omega, ?_⟩
  simp only [Property.map, Name.map, F.place_single hi, hmap, F.place_from hi hk']

theorem confined_edgeProperty :
    F.Confined i edgeProperty edgeProperty i fun p j => i < j ∧ p.map F.f = p.map F.g := by
  simp only [edgeProperty, confined_peekKind_bind, confined_ite]
  exact ⟨fun h => confined_property (Nat.le_refl i) (TokenKind.ne_of_allowed h rfl),
    fun _ => confined_reject (fun _ => rfl) (Nat.le_refl i)⟩

/-! ## Relations -/

theorem confined_cardinality (hl : floor < i) :
    F.Confined floor cardinality cardinality i fun _ j => i ≤ j := by
  simp only [cardinality, confined_peekKind_bind, confined_ite]
  refine ⟨fun hk => ?_, fun _ => confined_pure.2 fun _ => Nat.le_refl i⟩
  refine confined_take_bind (by simp [hk]) ?_
  rw [confined_peekKind_bind]
  split
  · rename_i hk
    exact confined_take_bind (by simp [hk]) (confined_pure.2 fun _ => by omega)
  · rename_i hk
    exact confined_take_bind (by simp [hk]) (confined_pure.2 fun _ => by omega)
  · exact confined_rejectBehind (fun _ => rfl) (by omega)

theorem confined_multiplicityForm (hl : floor ≤ i) :
    F.Confined floor multiplicityForm multiplicityForm i fun _ j => i < j := by
  simp only [multiplicityForm, confined_peekKind_bind]
  split
  · rename_i hk
    refine confined_take_bind (by simp [hk]) ((confined_cardinality (by omega)).bind ?_)
    exact fun _ j _ hj => confined_pure.2 fun _ => by omega
  · rename_i hk
    refine confined_take_bind (by simp [hk]) ((confined_cardinality (by omega)).bind ?_)
    exact fun _ j _ hj => confined_pure.2 fun _ => by omega
  · rename_i hk
    exact confined_take_bind (by simp [hk]) (confined_pure.2 fun _ => by omega)
  · exact confined_reject (fun _ => rfl) hl

theorem confined_multiplicity (hl : floor ≤ i) :
    F.Confined floor multiplicity multiplicity i fun _ j => i ≤ j := by
  simp only [Rule.multiplicity, confined_peekKind_bind, confined_ite]
  refine ⟨fun hk => ?_, fun _ => confined_pure.2 fun _ => Nat.le_refl i⟩
  refine confined_take_bind (by simp [hk]) ((confined_multiplicityForm (by omega)).bind ?_)
  intro m j _ hj
  rw [confined_peekKind_bind, confined_ite]
  refine ⟨fun hk => ?_, fun _ => confined_rejectBehind (fun _ => rfl) (by omega)⟩
  exact confined_take_bind (by simp [hk]) (confined_pure.2 fun _ => by omega)

theorem confined_reverseEdge (hl : floor ≤ i) :
    F.Confined floor reverseEdge reverseEdge i fun r j =>
      i ≤ j ∧ r.map (ReverseEdge.map F.f) = r.map (ReverseEdge.map F.g) := by
  refine confined_of_le fun hi => ?_
  simp only [reverseEdge, confined_peekKind_bind, confined_ite, confined_position_bind]
  refine ⟨fun hk => ?_, fun _ => confined_pure.2 fun _ => ⟨Nat.le_refl i, rfl⟩⟩
  refine confined_take_bind (by simp [hk]) (confined_of_le fun hi' => ?_)
  refine confined_expectName_bind (by omega) rfl fun _ => ?_
  refine (confined_multiplicity (by omega)).bind fun m j hj' hj => ?_
  rw [confined_extentFrom_bind, confined_pure]
  refine fun _ => ⟨by omega, ?_⟩
  simp only [Option.map, ReverseEdge.map, Name.map, F.place_single hi', F.place_from hi hj']

theorem confined_relationBody :
    F.Confined floor relationBody relationBody i fun b j =>
      i ≤ j ∧ b.map (RelationBody.map F.f) = b.map (RelationBody.map F.g) := by
  have hsize := F.size_eq
  have hle := F.size_le
  refine confined_of_le fun hi => ?_
  simp only [relationBody, confined_peekKind_bind, confined_ite, confined_position_bind]
  refine ⟨fun hk => ?_, fun _ => confined_pure.2 fun _ => ⟨Nat.le_refl i, rfl⟩⟩
  refine confined_take_bind (by simp [hk]) ?_
  rw [confined_remaining_bind]
  refine (confined_block (Property.map F.f) (Property.map F.g) hi
    (fun _ => confined_edgeProperty) (by omega) (by omega)).bind ?_
  rintro ps j hj' ⟨hj, hmap⟩
  rw [confined_extentFrom_bind, confined_pure]
  refine fun _ => ⟨by omega, ?_⟩
  simp only [Option.map, RelationBody.map, hmap, F.place_from hi hj']

section

variable (hl : floor ≤ i) (hk : kindAt F.items i ≠ .endOfText)

include hl hk

/-- What stands behind a relation has to be confined, given that the relation is. -/
theorem confined_relation {α : Type} {rest rest' : Nat → Option String → Name Extent → Multiplicity →
      TypeRef Extent → Option (ReverseEdge Extent) → Rule α} {Q : α → Nat → Prop}
    (h : ∀ doc name m target reverse j, i + 2 < j → name.map F.f = name.map F.g →
      target.map F.f = target.map F.g →
      reverse.map (ReverseEdge.map F.f) = reverse.map (ReverseEdge.map F.g) →
      F.Confined floor (rest i doc name m target reverse) (rest' i doc name m target reverse) j Q) :
    F.Confined floor (relation rest) (relation rest') i Q := by
  simp only [relation, confined_position_bind, confined_nextDoc_bind]
  refine confined_take_bind hk (confined_of_le fun hi' => ?_)
  refine confined_expectName_bind (by omega) rfl fun _ => ?_
  refine (confined_multiplicity (by omega)).bind fun m j _ hj => ?_
  refine (confined_typeRef (by omega)).bind ?_
  rintro t k - ⟨hk, htarget⟩
  refine (confined_reverseEdge (by omega)).bind ?_
  rintro r l - ⟨hl, hreverse⟩
  exact h _ _ m t r l (by omega) (by simp only [Name.map, F.place_single hi']) htarget hreverse

theorem confined_association :
    F.Confined floor association association i fun a j => i < j ∧ a.map F.f = a.map F.g := by
  have hi := Nat.le_of_lt (F.lt_last hk)
  rw [association_eq]
  refine confined_relation hl hk fun doc name m target reverse j hj hname htarget hreverse => ?_
  refine confined_relationBody.bind ?_
  rintro b k hk' ⟨hjk, hbody⟩
  rw [confined_extentFrom_bind, confined_pure]
  refine fun _ => ⟨by omega, ?_⟩
  simp only [Association.map, hname, htarget, hreverse, hbody, F.place_from hi hk']

theorem confined_composition :
    F.Confined floor composition composition i fun c j => i < j ∧ c.map F.f = c.map F.g := by
  have hi := Nat.le_of_lt (F.lt_last hk)
  rw [composition_eq]
  refine confined_relation hl hk fun doc name m target reverse j hj hname htarget hreverse => ?_
  rw [confined_peekKind_bind, confined_ite]
  refine ⟨fun _ => confined_rejectBehind (fun _ => rfl) (by omega), fun _ => ?_⟩
  rw [confined_extentFrom_bind, confined_pure]
  refine fun hj' => ⟨by omega, ?_⟩
  simp only [Composition.map, hname, htarget, hreverse, F.place_from hi hj']

theorem confined_invariant :
    F.Confined floor invariant invariant i fun v j => i < j ∧ v.map F.f = v.map F.g := by
  have hi := Nat.le_of_lt (F.lt_last hk)
  simp only [invariant, confined_position_bind]
  refine confined_take_bind hk ?_
  refine confined_expect_bind (by omega) (by simp) fun _ => ?_
  refine (confined_expression (by omega)).bind ?_
  rintro e j hj' ⟨hj, hholds⟩
  rw [confined_extentFrom_bind, confined_pure]
  exact fun _ => ⟨by omega, by simp only [Invariant.map, hholds.map_eq, F.place_from hi hj']⟩

end

/-! ## Members -/

theorem confined_typeMember :
    F.Confined i typeMember typeMember i fun m j => i < j ∧ m.map F.f = m.map F.g := by
  have hl := Nat.le_refl i
  simp only [typeMember, confined_peekKind_bind]
  split
  · rename_i hk
    refine (confined_association hl (by simp [hk])).bind ?_
    rintro a j - ⟨hj, hmap⟩
    exact confined_pure.2 fun _ => ⟨hj, congrArg Member.association hmap⟩
  · rename_i hk
    refine (confined_composition hl (by simp [hk])).bind ?_
    rintro c j - ⟨hj, hmap⟩
    exact confined_pure.2 fun _ => ⟨hj, congrArg Member.composition hmap⟩
  · rename_i hk
    refine (confined_invariant hl (by simp [hk])).bind ?_
    rintro v j - ⟨hj, hmap⟩
    exact confined_pure.2 fun _ => ⟨hj, congrArg Member.invariant hmap⟩
  · rw [confined_ite]
    refine ⟨fun hn => ?_, fun _ => confined_reject (fun _ => rfl) hl⟩
    refine (confined_property hl (TokenKind.ne_of_allowed hn rfl)).bind ?_
    rintro p j - ⟨hj, hmap⟩
    exact confined_pure.2 fun _ => ⟨hj, congrArg Member.property hmap⟩

theorem confined_typeBody {name : String} {opened : Nat} (ho : opened ≤ F.last) :
    F.Confined floor (typeBody name opened) (typeBody name opened) i fun ms j =>
      i ≤ j ∧ ms.map (Member.map F.f) = ms.map (Member.map F.g) := by
  have hsize := F.size_eq
  have hle := F.size_le
  refine confined_of_le fun hi => confined_remaining_bind.2 ?_
  exact confined_block _ _ ho (fun _ => confined_typeMember) (by omega) (by omega)

end SchemaLang.Frame
