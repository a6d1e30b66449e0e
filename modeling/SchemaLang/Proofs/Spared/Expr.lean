import SchemaLang.Proofs.Spared.Datatype

/-!
# Expressions keep off malformed text

Problems of expressions are placed at single items. Only an empty index is complained about behind what has
been read, and there the closing bracket stands (`ensures_closed_elements`).

Main statement: `spares_expression`.
-/

set_option autoImplicit false

namespace SchemaLang.Rule

variable {items : Items} {i : Nat} {expr : Within}

/-- Without an element, the closing symbol is all that is read. -/
theorem ensures_closed_elements {closer : Symbol} {opened : Nat} {what : Enclosure} :
    (elements expr closer opened what).Ensures items i fun es j =>
      es.isEmpty = true → kindAt items (j - 1) = .symbol closer := by
  simp [elements]

theorem spares_furtherParams {n : Nat} : (furtherParams n).Spares items i := by
  rw [furtherParams_eq]
  exact reports_further fun _ => spares_bind.2 ⟨spares_expectName, by simp⟩

theorem spares_params : params.Spares items i := by
  simp [params, spares_furtherParams]

theorem spares_member {object : Expr Extent} : (member object).Spares items i := by
  simp [member]

section

variable (h : ∀ limit i, (expr limit).Spares items i)

include h

theorem spares_grouped : (grouped expr).Spares items i := by
  simp [grouped, h]

theorem spares_furtherElements {closer : Symbol} {n : Nat} :
    (furtherElements expr closer n).Spares items i := by
  rw [furtherElements_eq]
  exact reports_further (h .lowest)

theorem spares_elements {closer : Symbol} {opened : Nat} {what : Enclosure} :
    (elements expr closer opened what).Spares items i := by
  simp [elements, h, spares_furtherElements h]

theorem spares_list : (list expr).Spares items i := by
  simp [list, spares_elements h]

theorem spares_branch : (branch expr).Spares items i := by
  simp [branch, h]

theorem spares_ternary {condition : Expr Extent} : (ternary expr condition).Spares items i := by
  simp [ternary, spares_branch h]

theorem spares_index {object : Expr Extent} {opened : Nat} :
    (index expr object opened).Spares items i := by
  simp only [index, spares_bind, spares_elements h, true_and]
  refine ensures_closed_elements.imp fun es j hclosed => ?_
  simp +contextual [hclosed]

theorem spares_pipeline {subject : Expr Extent} : (pipeline expr subject).Spares items i := by
  simp [pipeline, optionalArguments, optionalParams, optionalBranch, spares_elements h,
    spares_params, spares_branch h]

theorem spares_operatorTail {left : Expr Extent} : (operatorTail expr left).Spares items i := by
  simp only [operatorTail, spares_bind, spares_position, spares_take, ensures_position, ensures_take,
    true_and]
  split
  · exact spares_ternary h
  · exact spares_member
  · exact spares_index h
  · exact spares_pipeline h
  · split
    · simp [h]
    · simp

theorem spares_operators {limit : Precedence} {n : Nat} {left : Expr Extent} :
    (operators expr limit n left).Spares items i := by
  induction n generalizing i left with
  | zero => simp [operators]
  | succ n ih => simp [operators, spares_operatorTail h, ih]

theorem spares_unary {op : UnaryOp} : (unary expr op).Spares items i := by
  have hvalue (hk : kindAt items (i + 1) = .integerLit) :
      (integerValue true).Spares items (i + 1) := (readsValid_integerValue (by simp [hk])).spares
  simp +contextual [unary, negativeInteger, h, hvalue, spares_operators h]

theorem spares_operand : (operand expr).Spares items i := by
  simp only [operand, spares_bind, spares_position, spares_peek, ensures_position, ensures_peek,
    true_and]
  split
  case h_1 hk =>
    have hne : kindAt items i ≠ .invalid := by simp [kindAt, hk]
    simp [(readsValid_integerValue hne).spares]
  case h_2 hk =>
    have hne : kindAt items i ≠ .invalid := by simp [kindAt, hk]
    simp [(readsValid_floatValue hne).spares]
  case h_3 | h_4 | h_5 | h_6 | h_7 | h_8 => simp [literal]
  case h_9 | h_10 | h_11 | h_12 => simp
  case h_13 | h_14 => exact spares_unary h
  case h_15 => exact spares_grouped h
  case h_16 => exact spares_list h
  case h_17 => exact spares_reject

end

theorem spares_expressionWithin {n : Nat} {limit : Precedence} :
    (expressionWithin n limit).Spares items i := by
  induction n generalizing i limit with
  | zero => simp [expressionWithin]
  | succ n ih =>
    have h : ∀ limit i, (expressionWithin n limit).Spares items i := fun _ _ => ih
    simp [expressionWithin, spares_operand h, spares_operators h]

theorem spares_expression : expression.Spares items i := by
  simp [expression, spares_expressionWithin]

end SchemaLang.Rule
