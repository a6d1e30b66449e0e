import SchemaLang.Proofs.Cut.Expr
import SchemaLang.Proofs.Members

/-!
# Members and bodies before a declaration

Recovery does not go beyond the wall, since a declaration is a boundary at any depth of braces
(`Cut.skip_eq`). So a body ends there at the latest (`Cut.stops_block`).
-/

set_option autoImplicit false

namespace SchemaLang.Cut

open SchemaLang.Rule

variable {C : Cut} {i : Nat}

/-! ## Recovery -/

/-- No declaration starts before the wall and goes beyond. -/
theorem atDeclaration_eq (h : i < C.wall) : atDeclaration C.right i = atDeclaration C.left i := by
  have hsecond := C.kindAt_iff (i := i + 1) (p := (· = .upperWord)) ⟨by simp, by simp⟩ h
  unfold atDeclaration
  rw [C.kindAt_eq h]
  rcases Nat.lt_or_eq_of_le (Nat.succ_le_of_lt h) with hlt | hwall
  · have hthird := C.kindAt_iff (i := i + 2)
      (p := (· ∈ [.symbol .lBrace, .symbol .assign, .keyword .extendsWord])) ⟨by simp, by simp⟩ hlt
    rw [C.kindAt_eq hlt]
    split
    · rfl
    · rfl
    · exact decide_eq_decide.2 (and_congr_right' hthird)
    · rfl
  · obtain ⟨habstract, hpart⟩ := C.unmodified i hwall
    have hend : kindAt C.left (i + 1) ≠ .upperWord := by
      rw [C.kindAt_of_le (Nat.le_of_eq hwall.symm)]
      decide
    split
    · exact absurd ‹_› habstract
    · exact absurd ‹_› hpart
    · exact decide_eq_decide.2 (iff_of_false (fun h => hend (hsecond.1 h.1)) fun h => hend h.1)
    · rfl

theorem atMember_eq (h : i < C.wall) : atMember C.right i = atMember C.left i := by
  have hsecond := C.kindAt_iff (i := i + 1) (p := (· = .stringLit)) ⟨by simp, by simp⟩ h
  unfold atMember
  rw [C.kindAt_eq h, C.same i h]
  split
  · rfl
  · rfl
  · rfl
  · exact decide_eq_decide.2 hsecond
  · rfl

theorem isBoundary_eq (h : i < C.wall) (goal : Boundary) (depth : Nat) :
    isBoundary C.right goal depth i = isBoundary C.left goal depth i := by
  unfold isBoundary
  rw [C.kindAt_eq h, C.atDeclaration_eq h, C.atMember_eq h]

/-- The wall is a boundary in both. -/
theorem isBoundary_wall (goal : Boundary) (depth : Nat) :
    isBoundary C.left goal depth C.wall = true ∧ isBoundary C.right goal depth C.wall = true := by
  unfold isBoundary
  rw [C.kindAt_of_le (Nat.le_refl _), C.declares]
  simp

theorem depthFrom_eq {start : Nat} (h : i ≤ C.wall) :
    depthFrom C.right start i = depthFrom C.left start i :=
  depthFrom_congr fun _ hk => C.kindAt_eq (by omega)

theorem skipFrom_eq {goal : Boundary} {count depth : Nat} (h : i ≤ C.wall) :
    skipFrom C.right goal count depth i = skipFrom C.left goal count depth i ∧
      skipFrom C.left goal count depth i ≤ C.wall := by
  induction count generalizing i depth with
  | zero => exact ⟨rfl, h⟩
  | succ count ih =>
    unfold skipFrom
    rcases Nat.lt_or_eq_of_le h with hlt | rfl
    · rw [C.isBoundary_eq hlt, C.kindAt_eq hlt]
      split
      · exact ⟨rfl, h⟩
      · exact ih hlt
    · obtain ⟨hl, hr⟩ := C.isBoundary_wall goal depth
      rw [if_pos hl, if_pos hr]
      exact ⟨rfl, h⟩

theorem skip_eq (goal : Boundary) {start resume : Nat} (hs : start < C.wall)
    (hr : resume ≤ C.wall) :
    skip C.right goal start resume = skip C.left goal start resume ∧
      skip C.left goal start resume ≤ C.wall := by
  unfold skip
  dsimp only
  rw [C.size_eq]
  split
  · rw [C.depthFrom_eq (by omega)]
    exact C.skipFrom_eq (by omega)
  · rw [C.depthFrom_eq hr]
    exact C.skipFrom_eq hr

/-! ## Bodies -/

/-- What recovery finds, the rest of a body goes on from. -/
theorem alike_thenRest {α : Type} {rest : Rule (List α)} (hrest : C.Stops rest) (hi : i < C.wall)
    {x x' : Reply α} (hx : Lacks C.wall x.problems ∨ C.Alike x x') :
    Lacks C.wall (thenRest .member C.left i x (rest C.left)).problems ∨
      C.Alike (thenRest .member C.left i x (rest C.left))
        (thenRest .member C.right i x' (rest C.right)) := by
  obtain ⟨v, j, ps⟩ := x
  obtain ⟨v', j', ps'⟩ := x'
  rcases hx with hlacks | ⟨rfl, rfl, hle⟩
  · left
    cases v with
    | none => exact hlacks.mono (List.subset_append_left ..)
    | some a => exact hlacks.mono (List.subset_append_left ..)
  · cases v' with
    | none =>
      obtain ⟨hskip, hle⟩ := C.skip_eq .member hi hle
      dsimp only [thenRest]
      rw [hskip]
      exact (hrest _ hle).imp (·.mono (List.subset_append_right ..)) fun ⟨hv, hn, hle⟩ => ⟨hv, hn, hle⟩
    | some a =>
      refine (hrest _ hle).imp (·.mono (List.subset_append_right ..)) fun ⟨hv, hn, hle⟩ => ?_
      exact ⟨congrArg (Option.map (a :: ·)) hv, hn, hle⟩

section

variable {α : Type} {entry : Rule α} (he : C.StopsBelow entry) {what : Enclosure} {opened n : Nat}

include he

theorem stops_block : C.Stops (block entry what opened n) := by
  induction n with
  | zero => exact fun i hi => .inr ⟨rfl, rfl, hi⟩
  | succ n ih =>
    intro i hi
    rcases Nat.lt_or_eq_of_le hi with hlt | rfl
    · unfold StopsAt block
      rw [C.kindAt_eq hlt, C.atDeclaration_eq hlt]
      split
      · exact .inr ⟨rfl, rfl, hlt⟩
      · split
        · exact .inr ⟨rfl, rfl, hi⟩
        · exact alike_thenRest ih hlt (he i hlt)
    · have hleft : kindAt C.left C.wall ≠ .symbol .rBrace := by simp [C.kindAt_of_le]
      have hright : kindAt C.right C.wall ≠ .symbol .rBrace := by simp [C.starts]
      unfold StopsAt
      rw [block_unclosed hleft (.inl (C.kindAt_of_le hi)), block_unclosed hright (.inr C.declares)]
      exact .inr ⟨rfl, rfl, hi⟩

end

/-! ## Properties -/

theorem stops_propertyModifier : C.Stops propertyModifier := by
  refine stops_peekKind_bind (fun κ => ?_) (.inr ⟨rfl, rfl, Nat.le_refl _⟩)
  split
  · exact stopsBelow_take_bind fun _ => stops_pure
  · exact stopsBelow_take_bind fun _ => stops_pure
  · exact stops_pure.below

theorem stopsBelow_property : C.StopsBelow property := by
  refine stopsBelow_position_bind fun _ => stopsBelow_nextDoc_bind fun doc => ?_
  refine stopsBelow_takeName.bind fun name => stops_datatypeRef.bind fun d => ?_
  exact stops_propertyModifier.bind fun m => stops_extentFrom_bind fun _ => stops_pure

theorem stopsBelow_edgeProperty : C.StopsBelow edgeProperty :=
  stopsBelow_peekKind_bind fun _ =>
    stopsBelow_ite (fun _ => stopsBelow_property) fun _ => stops_reject.below

/-! ## Relations -/

theorem stops_isRelationName {what : Expected} : C.Stops (expectName isRelationName what) :=
  stops_expectName ⟨by decide, by decide⟩

theorem stops_cardinality : C.Stops cardinality := by
  refine stops_peekKind_ite ⟨by simp, by simp⟩ (stopsBelow_take_bind fun _ => ?_) stops_pure
  refine stops_peekKind_bind (fun κ => ?_) (.inr ⟨rfl, rfl, Nat.sub_le _ 1⟩)
  split
  · exact stopsBelow_take_bind fun _ => stops_pure
  · exact stopsBelow_take_bind fun _ => stops_pure
  · exact stops_rejectBehind.below

theorem stops_multiplicityForm : C.Stops multiplicityForm := by
  refine stops_peekKind_bind (fun κ => ?_) (.inr ⟨rfl, rfl, Nat.le_refl _⟩)
  split
  · exact stopsBelow_take_bind fun _ => stops_cardinality.bind fun _ => stops_pure
  · exact stopsBelow_take_bind fun _ => stops_cardinality.bind fun _ => stops_pure
  · exact stopsBelow_take_bind fun _ => stops_pure
  · exact stops_reject.below

theorem stops_multiplicity : C.Stops multiplicity := by
  refine stops_peekKind_ite ⟨by simp, by simp⟩ (stopsBelow_take_bind fun _ => ?_) stops_pure
  refine stops_multiplicityForm.bind fun m => stops_peekKind_ite ⟨by simp, by simp⟩ ?_ ?_
  · exact stopsBelow_take_bind fun _ => stops_pure
  · exact stops_rejectBehind

theorem stops_reverseEdge : C.Stops reverseEdge := by
  refine stops_peekKind_ite ⟨by simp, by simp⟩ ?_ stops_pure
  refine stopsBelow_position_bind fun _ => stopsBelow_take_bind fun _ => ?_
  refine stops_isRelationName.bind fun name => stops_multiplicity.bind fun m => ?_
  exact stops_extentFrom_bind fun _ => stops_pure

theorem stops_relationBody : C.Stops relationBody := by
  refine stops_peekKind_ite ⟨by simp, by simp⟩ ?_ stops_pure
  refine stopsBelow_position_bind fun _ => stopsBelow_take_bind fun _ => ?_
  refine stops_remaining_bind fun n => (stops_block stopsBelow_edgeProperty).bind fun ps => ?_
  exact stops_extentFrom_bind fun _ => stops_pure

theorem stopsBelow_relation {α : Type} {rest : Nat → Option String → Name Extent → Multiplicity →
      TypeRef Extent → Option (ReverseEdge Extent) → Rule α}
    (h : ∀ start doc name m target reverse, C.Stops (rest start doc name m target reverse)) :
    C.StopsBelow (relation rest) := by
  refine stopsBelow_position_bind fun i => stopsBelow_nextDoc_bind fun doc => ?_
  refine stopsBelow_take_bind fun _ => stops_isRelationName.bind fun name => ?_
  refine stops_multiplicity.bind fun m => stops_typeRef.bind fun r => ?_
  exact stops_reverseEdge.bind fun e => h i doc name m r e

theorem stopsBelow_association : C.StopsBelow association := by
  rw [association_eq]
  refine stopsBelow_relation fun _ _ _ _ _ _ => stops_relationBody.bind fun _ => ?_
  exact stops_extentFrom_bind fun _ => stops_pure

theorem stopsBelow_composition : C.StopsBelow composition := by
  rw [composition_eq]
  refine stopsBelow_relation fun _ _ _ _ _ _ => ?_
  exact stops_peekKind_ite ⟨by simp, by simp⟩ stops_rejectBehind.below
    (stops_extentFrom_bind fun _ => stops_pure)

/-! ## Members -/

theorem stopsBelow_invariant : C.StopsBelow invariant := by
  refine stopsBelow_position_bind fun _ => stopsBelow_take_bind fun _ => ?_
  refine (stops_expect ⟨by simp, by simp⟩).bind fun _ => stops_expression.bind fun e => ?_
  exact stops_extentFrom_bind fun _ => stops_pure

theorem stopsBelow_typeMember : C.StopsBelow typeMember := by
  refine stopsBelow_peekKind_bind fun κ => ?_
  split
  · exact stopsBelow_association.bind fun _ => stops_pure
  · exact stopsBelow_composition.bind fun _ => stops_pure
  · exact stopsBelow_invariant.bind fun _ => stops_pure
  · exact stopsBelow_ite (fun _ => stopsBelow_property.bind fun _ => stops_pure) fun _ =>
      stops_reject.below

theorem stops_typeBody {name : String} {opened : Nat} : C.Stops (typeBody name opened) :=
  stops_remaining_bind fun _ => stops_block stopsBelow_typeMember

end SchemaLang.Cut
