import SchemaLang.Proofs.Cut.Datatype

/-!
# Expressions before a declaration

What belongs to an operator or an operand is refused at the word of a type, as it is at the end of the
text. The one exception is the name behind a point (`Cut.stops_member`).
-/

set_option autoImplicit false

namespace SchemaLang.Cut

open SchemaLang.Rule

variable {C : Cut}

theorem stopsBelow_literal {value : Literal} : C.StopsBelow (literal value) :=
  stopsBelow_position_bind fun _ => stopsBelow_take_bind fun _ => stops_pure

/-- Any keyword is the name of a member. At the end of the text the name is missing. -/
theorem stops_member {e : Expr Extent} : C.Stops (member e) := by
  refine Stops.bind (stops_peekKind_bind (fun κ => ?_) (.inl lacks_memberName)) fun _ => stops_pure
  exact stopsBelow_ite (fun _ => stopsBelow_takeName) fun _ => stops_rejectBehind.below

/-! ## Parameters -/

theorem stops_varWord {what : Expected} : C.Stops (expectName (· == .varWord) what) :=
  stops_expectName ⟨by decide, by decide⟩

theorem stops_furtherParams {n : Nat} : C.Stops (furtherParams n) := by
  rw [furtherParams_eq]
  exact stops_further ⟨by simp, by simp⟩ (stops_varWord.bind fun p => stops_pure)

theorem stops_params : C.Stops params :=
  stops_varWord.bind fun p => stops_remaining_bind fun n => stops_furtherParams.bind fun ps =>
    (stops_expect ⟨by simp, by simp⟩).bind fun _ => stops_pure

theorem stops_optionalParams : C.Stops optionalParams := by
  refine stops_peekKind_ite ⟨by simp, by simp⟩ (stopsBelow_take_bind fun _ => ?_) stops_pure
  exact stops_params.bind fun ps => stops_pure

section

variable {expr : Within} (he : ∀ limit, C.Stops (expr limit))

include he

/-! ## Lists of expressions -/

theorem stops_furtherElements {closer : Symbol} {n : Nat} :
    C.Stops (furtherElements expr closer n) := by
  rw [furtherElements_eq]
  exact stops_further ⟨by simp, by simp⟩ (he _)

theorem stops_elements {closer : Symbol} {opened : Nat} {what : Enclosure} :
    C.Stops (elements expr closer opened what) := by
  refine stops_peekKind_ite ⟨by simp, by simp⟩ (stopsBelow_take_bind fun _ => stops_pure) ?_
  refine (he _).bind fun e => stops_remaining_bind fun n => ?_
  exact (stops_furtherElements he).bind fun es => stops_close.bind fun _ => stops_pure

/-! ## What belongs to an operator -/

theorem stops_branch : C.Stops (branch expr) := by
  refine stops_position_bind fun _ => (stops_expect ⟨by simp, by simp⟩).bind fun _ => ?_
  exact (he _).bind fun e => stops_close.bind fun _ => stops_pure

theorem stops_ternary {c : Expr Extent} : C.Stops (ternary expr c) := by
  refine (stops_branch he).bind fun t => (stops_expect ⟨by simp, by simp⟩).bind fun _ => ?_
  refine (stops_branch he).bind fun e => stops_position_bind fun _ => ?_
  exact stops_extentFrom_bind fun _ => stops_pure

theorem stops_index {e : Expr Extent} {opened : Nat} : C.Stops (index expr e opened) := by
  refine (stops_elements he).bind fun es => stops_position_bind fun _ => ?_
  exact stops_ite (fun _ => stops_report_bind stops_giveUpBehind) fun _ => stops_pure

theorem stops_optionalArguments : C.Stops (optionalArguments expr) := by
  refine stops_peekKind_ite ⟨by simp, by simp⟩ ?_ stops_pure
  refine stopsBelow_position_bind fun _ => stopsBelow_take_bind fun _ => ?_
  exact (stops_elements he).bind fun es => stops_pure

theorem stops_optionalBranch : C.Stops (optionalBranch expr) :=
  stops_peekKind_ite ⟨by simp, by simp⟩ ((stops_branch he).bind fun b => stops_pure).below stops_pure

theorem stops_pipeline {e : Expr Extent} : C.Stops (pipeline expr e) := by
  refine (stops_expectName ⟨by decide, by decide⟩).bind fun function => ?_
  refine (stops_optionalArguments he).bind fun args => stops_optionalParams.bind fun ps => ?_
  exact (stops_optionalBranch he).bind fun body => stops_position_bind fun _ => stops_pure

/-! ## Operators -/

theorem stopsBelow_operatorTail {e : Expr Extent} : C.StopsBelow (operatorTail expr e) := by
  refine stopsBelow_position_bind fun i => stopsBelow_take_bind fun t => ?_
  split
  · exact stops_ternary he
  · exact stops_member
  · exact stops_index he
  · exact stops_pipeline he
  · split
    · exact (he _).bind fun r => stops_pure
    · exact stops_pure

omit he in
theorem unheeded_leftPrecedence {limit : Precedence} :
    Unheeded fun κ => limit < leftPrecedence κ := by
  have hlowest : ¬ limit < .lowest := Nat.not_lt_zero _
  exact ⟨hlowest, hlowest⟩

theorem stops_operators {limit : Precedence} {n : Nat} {e : Expr Extent} :
    C.Stops (operators expr limit n e) := by
  induction n generalizing e with
  | zero => exact stops_pure
  | succ n ih =>
    exact stops_peekKind_ite unheeded_leftPrecedence
      ((stopsBelow_operatorTail he).bind fun _ => ih) stops_pure

/-! ## Operands -/

theorem stopsBelow_grouped : C.StopsBelow (grouped expr) := by
  refine stopsBelow_position_bind fun _ => stopsBelow_take_bind fun _ => (he _).bind fun e => ?_
  exact stops_close.bind fun _ => stops_extentFrom_bind fun _ => stops_pure

theorem stopsBelow_list : C.StopsBelow (list expr) := by
  refine stopsBelow_position_bind fun _ => stopsBelow_take_bind fun _ => ?_
  exact (stops_elements he).bind fun es => stops_extentFrom_bind fun _ => stops_pure

theorem stopsBelow_unary {op : UnaryOp} : C.StopsBelow (unary expr op) := by
  refine stopsBelow_position_bind fun _ => stopsBelow_take_bind fun _ => ?_
  refine stops_peekKind_ite ⟨by simp, by simp⟩ ?_ ?_
  · refine stopsBelow_integerValue.bind fun v => stops_extentFrom_bind fun _ => ?_
    exact stops_remaining_bind fun n => stops_operators he
  · exact (he _).bind fun e => stops_extentFrom_bind fun _ => stops_pure

theorem stops_operand : C.Stops (operand expr) := by
  have htake (f : Item → Expr Extent) : C.StopsBelow (do return f (← take)) :=
    stopsBelow_take_bind fun _ => stops_pure
  refine stops_position_bind fun i => stops_peek_bind (fun t => ?_) fun t t' ht ht' => ?_
  · split
    · exact stopsBelow_integerValue.bind fun _ => stops_pure
    · exact stopsBelow_floatValue.bind fun _ => stops_pure
    · exact stopsBelow_literal
    · exact stopsBelow_literal
    · exact stopsBelow_literal
    · exact stopsBelow_literal
    · exact stopsBelow_literal
    · exact stopsBelow_literal
    · exact htake _
    · exact htake _
    · exact htake _
    · exact htake _
    · exact stopsBelow_unary he
    · exact stopsBelow_unary he
    · exact stopsBelow_grouped he
    · exact stopsBelow_list he
    · exact stops_reject.below
  · rw [ht, ht']
    exact stops_reject _ (Nat.le_refl _)

end

theorem stops_expressionWithin {n : Nat} {limit : Precedence} :
    C.Stops (expressionWithin n limit) := by
  induction n generalizing limit with
  | zero => exact stops_reject
  | succ n ih =>
    refine (stops_operand fun _ => ih).bind fun e => stops_remaining_bind fun m => ?_
    exact stops_operators fun _ => ih

theorem stops_expression : C.Stops expression :=
  stops_remaining_bind fun _ => stops_expressionWithin

end SchemaLang.Cut
