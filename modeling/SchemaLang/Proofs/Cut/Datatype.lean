import SchemaLang.Proofs.Cut.Basic

/-!
# References and datatypes before a declaration

No reference, number or bound takes a keyword that is not followed by a point.
-/

set_option autoImplicit false

namespace SchemaLang.Cut

open SchemaLang.Rule

variable {C : Cut} {α : Type}

/-! ## References -/

theorem stops_isUpperWord {what : Expected} : C.Stops (expectName isUpperWord what) :=
  stops_expectName ⟨by decide, by decide⟩

/-- The point behind an alias is before the wall if it is read. -/
theorem stopsAt_qualifier {i : Nat} (hi : i + 1 < C.wall) : C.StopsAt i qualifier qualifier := by
  refine stopsAt_takeName_bind (Nat.lt_of_succ_lt hi) fun name => ?_
  split
  · exact stopsBelow_take_bind (fun _ => stops_pure) _ hi
  · exact stopsAt_report_bind (stopsBelow_take_bind (fun _ => stops_pure) _ hi)

theorem stops_typeRef : C.Stops typeRef := by
  refine stops_position_bind fun start => stops_peekKind_bind (fun κ => ?_) ?_
  · refine stopsBelow_peekSecond_ite ⟨by simp, by simp⟩ (fun i hi => ?_) ?_
    · refine (stopsAt_qualifier hi).bind fun q => stops_isUpperWord.bind fun name => ?_
      exact stops_extentFrom_bind fun _ => stops_pure
    · refine stopsBelow_ite (fun _ => ?_) fun _ => stops_reject.below
      exact stopsBelow_takeName.bind fun name => stops_extentFrom_bind fun _ => stops_pure
  · -- behind the word of a type there is no point
    show C.StopsAt C.wall (if kindAt C.left (C.wall + 1) = .symbol .dot ∧ _ then _ else _)
      (if kindAt C.right (C.wall + 1) = .symbol .dot ∧ _ then _ else _)
    rw [C.kindAt_of_le (Nat.le_succ _), C.kindAt_succ_wall]
    rw [if_neg (by simp), if_neg (by simp), if_neg (by simp), if_neg (by simp)]
    exact stops_reject _ (Nat.le_refl _)

/-! ## Further entries -/

theorem stops_further {ends : TokenKind → Prop} [DecidablePred ends] (hu : Unheeded ends)
    {entry : Rule α} (he : C.Stops entry) {n : Nat} : C.Stops (further ends entry n) := by
  induction n with
  | zero => exact stops_pure
  | succ n ih =>
    refine stops_peekKind_ite ⟨by simp, by simp⟩ (stopsBelow_take_bind fun _ => ?_) stops_pure
    exact stops_peekKind_ite hu stops_pure.below (he.bind fun a => ih.bind fun as => stops_pure)

/-! ## Numbers and bounds -/

theorem stopsBelow_literalValue {read? : String → Option α} {cause : String → Cause Extent} :
    C.StopsBelow (literalValue read? cause) := by
  refine stopsBelow_peek_bind fun t => ?_
  split
  · exact stopsBelow_take_bind fun _ => stops_pure
  · exact stopsBelow_position_bind fun _ => (stops_report_bind stops_giveUp).below

theorem stopsBelow_integerValue {negative : Bool} : C.StopsBelow (integerValue negative) := by
  rw [integerValue_eq]
  exact stopsBelow_literalValue

theorem stopsBelow_lengthValue : C.StopsBelow lengthValue := by
  rw [lengthValue_eq]
  exact stopsBelow_literalValue

theorem stopsBelow_floatValue {negative : Bool} : C.StopsBelow (floatValue negative) := by
  rw [floatValue_eq]
  exact stopsBelow_literalValue

theorem stopsBelow_map {β : Type} {r : Rule α} (h : C.StopsBelow r) (f : α → β) :
    C.StopsBelow (do return f (← r)) := h.bind fun _ => stops_pure

theorem stops_signedBound {isValue : TokenKind → Bool} {value : Bool → Rule α} {missing wanted : Expected}
    (hu : Unheeded (isValue · = true)) (hv : ∀ negative, C.StopsBelow (value negative)) :
    C.Stops (signedBound isValue value missing wanted) := by
  refine stops_peekKind_bind (fun κ => ?_) ?_
  · refine stopsBelow_ite (fun _ => stopsBelow_take_bind fun _ => stops_pure) fun _ =>
      stopsBelow_ite (fun _ => stopsBelow_map (hv _) _) fun _ =>
        stopsBelow_ite (fun _ => stopsBelow_take_bind fun _ => ?_) fun _ => stops_reject.below
    exact stops_peekKind_ite hu (stopsBelow_map (hv _) _) stops_rejectBehind
  · have hend : isValue .endOfText = false := by simpa using hu.1
    have hword : isValue (.keyword .typeWord) = false := by simpa using hu.2
    simp only [hend, hword]
    exact .inr ⟨rfl, rfl, Nat.le_refl _⟩

theorem stops_integerBound : C.Stops integerBound := by
  rw [integerBound_eq]
  exact stops_signedBound ⟨by decide, by decide⟩ fun _ => stopsBelow_integerValue

theorem stops_floatBound : C.Stops floatBound := by
  rw [floatBound_eq]
  exact stops_signedBound ⟨by decide, by decide⟩ fun _ => stopsBelow_floatValue

theorem stops_lengthBound : C.Stops lengthBound := by
  refine stops_peekKind_bind (fun κ => ?_) (.inr ⟨rfl, rfl, Nat.le_refl _⟩)
  exact stopsBelow_ite (fun _ => stopsBelow_take_bind fun _ => stops_pure) fun _ =>
    stopsBelow_ite (fun _ => stopsBelow_map stopsBelow_lengthValue _) fun _ => stops_reject.below

theorem stops_optionalBounds {bound : Rule (Bound α)} {less : α → α → Bool} {write : α → String}
    (hb : C.Stops bound) : C.Stops (optionalBounds bound less write) := by
  refine stops_peekKind_ite ⟨by simp, by simp⟩ ?_ stops_pure
  refine stopsBelow_position_bind fun _ => stopsBelow_take_bind fun _ => hb.bind fun min => ?_
  refine (stops_expect ⟨by simp, by simp⟩).bind fun _ => hb.bind fun max => ?_
  refine stops_close.bind fun _ => stops_ite (fun _ => ?_) fun _ => stops_pure
  exact stops_extentFrom_bind fun _ => stops_report_bind stops_pure

/-! ## Parameters of built-in datatypes -/

theorem stops_enumValues {opened n : Nat} : C.Stops (enumValues opened n) := by
  induction n with
  | zero => exact stops_rejectBehind
  | succ n ih =>
    refine stops_peekKind_ite ⟨by simp, by simp⟩ (stopsBelow_take_bind fun _ => stops_pure) ?_
    refine (stops_expect ⟨by simp, by simp⟩).bind fun t => stops_peekKind_ite ⟨by simp, by simp⟩ ?_ ?_
    · exact stopsBelow_take_bind fun _ => ih.bind fun _ => stops_pure
    · exact stops_close.bind fun _ => stops_pure

theorem stops_enum {keyword : Nat} : C.Stops (enum keyword) := by
  refine stops_position_bind fun _ => (stops_expect ⟨by simp, by simp⟩).bind fun _ => ?_
  refine stops_remaining_bind fun n => stops_enumValues.bind fun values => ?_
  refine stops_ite (fun _ => ?_) fun _ => stops_pure
  exact stops_extentFrom_bind fun _ => stops_report_bind stops_pure

theorem stops_patternText : C.Stops patternText := by
  refine stops_peekKind_bind (fun κ => ?_) (.inr ⟨rfl, rfl, Nat.sub_le _ 1⟩)
  exact stopsBelow_ite (fun _ => stopsBelow_take_bind fun _ => stops_pure) fun _ =>
    stopsBelow_ite (fun _ => stopsBelow_take_bind fun _ => stops_pure) fun _ =>
      stops_rejectBehind.below

theorem stops_pattern : C.Stops pattern := by
  refine stops_position_bind fun _ => (stops_expect ⟨by simp, by simp⟩).bind fun _ => ?_
  refine stops_patternText.bind fun regex => stops_peekKind_ite ⟨by simp, by simp⟩ ?_ ?_
  · refine stopsBelow_take_bind fun _ => (stops_expect ⟨by simp, by simp⟩).bind fun flags => ?_
    exact stops_close.bind fun _ => stops_pure
  · exact stops_close.bind fun _ => stops_pure

theorem stops_timestamp : C.Stops timestamp := by
  refine stops_peekKind_ite ⟨by simp, by simp⟩ ?_ stops_pure
  refine stopsBelow_position_bind fun _ => stopsBelow_take_bind fun _ => ?_
  exact (stops_expect ⟨by simp, by simp⟩).bind fun _ => stops_close.bind fun _ => stops_pure

theorem stops_vector : C.Stops vector := by
  refine stops_position_bind fun _ => (stops_expect ⟨by simp, by simp⟩).bind fun _ => ?_
  refine (stops_expect ⟨by simp, by simp⟩).bind fun t => ?_
  split
  · exact stops_close.bind fun _ => stops_pure
  · exact stops_position_bind fun _ => stops_report_bind stops_giveUpBehind

theorem stops_listType {element : Rule (DatatypeRef Extent)} (he : C.Stops element) :
    C.Stops (listType element) := by
  refine stops_position_bind fun _ => (stops_expect ⟨by simp, by simp⟩).bind fun _ => ?_
  refine he.bind fun e => stops_close.bind fun _ => ?_
  exact (stops_optionalBounds stops_lengthBound).bind fun _ => stops_pure

theorem stops_builtinParameters {element : Rule (DatatypeRef Extent)} (he : C.Stops element)
    {keyword : Nat} (kind : BuiltinKind) : C.Stops (builtinParameters element keyword kind) := by
  cases kind with
  | integer => exact (stops_optionalBounds stops_integerBound).bind fun _ => stops_pure
  | float => exact (stops_optionalBounds stops_floatBound).bind fun _ => stops_pure
  | string => exact (stops_optionalBounds stops_lengthBound).bind fun _ => stops_pure
  | boolean => exact stops_pure
  | date => exact stops_pure
  | uuid => exact stops_pure
  | enum => exact stops_enum
  | pattern => exact stops_pattern
  | timestamp => exact stops_timestamp
  | vector => exact stops_vector
  | list => exact stops_listType he

theorem stopsBelow_builtinOf {element : Rule (DatatypeRef Extent)} (he : C.Stops element)
    {kind : BuiltinKind} : C.StopsBelow (builtinOf element kind) := by
  refine stopsBelow_position_bind fun _ => stopsBelow_take_bind fun _ => ?_
  refine (stops_builtinParameters he kind).bind fun _ => ?_
  exact stops_extentFrom_bind fun _ => stops_pure

theorem stops_datatypeRefWithin {n : Nat} : C.Stops (datatypeRefWithin n) := by
  induction n with
  | zero => exact stops_reject
  | succ n ih =>
    refine stops_peekKind_bind (fun κ => ?_) (.inr ⟨rfl, rfl, Nat.le_refl _⟩)
    split
    · exact (stopsBelow_builtinOf ih).bind fun _ => stops_pure
    · exact stopsBelow_map stops_typeRef.below _
    · exact stopsBelow_peekSecond_ite ⟨by simp, by simp⟩
        (fun i hi => stopsBelow_map stops_typeRef.below _ i (Nat.lt_of_succ_lt hi)) stops_reject.below
    · exact stops_reject.below

theorem stops_datatypeRef : C.Stops datatypeRef :=
  stops_remaining_bind fun _ => stops_datatypeRefWithin

theorem stopsBelow_builtin {kind : BuiltinKind} : C.StopsBelow (builtin kind) :=
  stopsBelow_builtinOf stops_datatypeRef

end SchemaLang.Cut
