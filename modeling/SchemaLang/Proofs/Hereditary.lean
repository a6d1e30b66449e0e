import SchemaLang.Proofs.Ensures

/-!
# Hereditary properties of expressions

* `Expr.Hereditary items P`: an expression that is read from the items has the property `P` if all
  expressions in it do. There is one condition for each way in which an expression is put together, and it
  may use which items its names and literals are.

Main statement: whatever is read as an expression has such a property
(`Rule.ensures_hereditary_expression`).
-/

set_option autoImplicit false

namespace SchemaLang

open Rule

/-- A parameter that is read off an item. -/
def Name.IsParam (items : Items) (n : Name Extent) : Prop :=
  ∃ j, kindAt items j = .varWord ∧ n = ⟨withoutDollars (itemAt items j).text, .single j⟩

structure Expr.Hereditary (items : Items) (P : Expr Extent → Prop) : Prop where
  integer : ∀ v p, P (.literal (.integer v) p)
  float : ∀ i x p,
    (Decimal.read? false (itemAt items i).text.toList).bind Binary64.ofDecimal? = some x →
      P (.literal (.float x) p)
  string : ∀ s p, P (.literal (.string s) p)
  regex : ∀ i p, kindAt items i = .regexLit →
    P (.literal (.regex (regexValue (itemAt items i).text)) p)
  boolean : ∀ b p, P (.literal (.boolean b) p)
  nil : ∀ p, P (.literal .nil p)
  dollar : ∀ i p, kindAt items i = .varWord → P (.dollar (withoutDollars (itemAt items i).text) p)
  property : ∀ i p, kindAt items i = .lowerWord → P (.property (itemAt items i).text p)
  relation : ∀ i p, kindAt items i = .upperWord → P (.relation (itemAt items i).text p)
  datatype : ∀ kind p, P (.datatype kind p)
  list : ∀ es p, (∀ e ∈ es, P e) → P (.list es p)
  unary : ∀ op e p, P e → P (.unary op e p)
  binary : ∀ op l r p, P l → P r → P (.binary op l r p)
  member : ∀ e i p, P e → isMemberName (kindAt items i) = true →
    P (.member e ⟨(itemAt items i).text, .single i⟩ p)
  index : ∀ e es p, P e → (∀ x ∈ es, P x) → P (.index e es p)
  ternary : ∀ c t e p, P c → P t → P e → P (.ternary c t e p)
  pipeline : ∀ s i args params body p, P s → isFunctionName (kindAt items i) = true →
    (∀ es ∈ args, ∀ e ∈ es, P e) → (∀ ps ∈ params, ps ≠ [] ∧ ∀ q ∈ ps, q.IsParam items) →
      (∀ e ∈ body, P e) →
        P (.pipeline s ⟨(itemAt items i).text, .single i⟩ args params body p)
  withPlace : ∀ e p, P e → P (e.withPlace p)

namespace Rule

variable {items : Items} {P : Expr Extent → Prop} {expr : Within} {i : Nat}

/-! ## Parameters -/

theorem ensures_isParam_param : param.Ensures items i fun p _ => p.IsParam items := by
  simp only [param, ensures_bind, ensures_expectName, ensures_pure]
  exact fun hkind => ⟨i, eq_of_beq hkind, rfl⟩

theorem ensures_isParam_optionalParams :
    optionalParams.Ensures items i fun params _ =>
      ∀ ps ∈ params, ps ≠ [] ∧ ∀ q ∈ ps, q.IsParam items := by
  simp only [optionalParams, params, furtherParams_eq, ensures_bind, ensures_peekKind, ensures_ite,
    ensures_take, ensures_expectName, ensures_remaining, ensures_pure]
  refine ⟨fun _ hkind => ?_, by simp⟩
  refine (ensures_forall_further fun _ => ensures_isParam_param).imp fun ps j hps => ?_
  rw [ensures_expect]
  rintro - _ ⟨⟩
  exact ⟨List.cons_ne_nil _ _, List.forall_mem_cons.2 ⟨⟨i + 1, eq_of_beq hkind, rfl⟩, hps⟩⟩

/-! ## Rules -/

section

variable (h : Expr.Hereditary items P)
  (he : ∀ limit j, (expr limit).Ensures items j fun e _ => P e)

include he

theorem ensures_hereditary_elements {closer : Symbol} {opened : Nat} {what : Enclosure} :
    (elements expr closer opened what).Ensures items i fun es _ => ∀ e ∈ es, P e := by
  simp only [elements, furtherElements_eq, ensures_bind, ensures_peekKind, ensures_ite, ensures_take,
    ensures_pure, ensures_remaining]
  refine ⟨fun _ => List.forall_mem_nil P, fun _ => (he _ _).imp fun e j hfirst => ?_⟩
  refine (ensures_forall_further (he .lowest)).imp fun es k hrest => ?_
  rw [ensures_close]
  exact fun _ => List.forall_mem_cons.2 ⟨hfirst, hrest⟩

theorem ensures_hereditary_branch : (branch expr).Ensures items i fun e _ => P e := by
  simp only [branch, ensures_bind, ensures_position, ensures_expect]
  refine fun _ => (he _ _).imp fun e j hP => ?_
  rw [ensures_close]
  exact fun _ => ensures_pure.2 hP

theorem ensures_hereditary_optionalArguments : (optionalArguments expr).Ensures items i fun args _ =>
    ∀ es ∈ args, ∀ e ∈ es, P e := by
  simp only [optionalArguments, ensures_bind, ensures_peekKind, ensures_ite, ensures_position,
    ensures_take, ensures_pure]
  exact ⟨fun _ => (ensures_hereditary_elements he).imp fun es k hes => by simpa using hes, by simp⟩

theorem ensures_hereditary_optionalBranch :
    (optionalBranch expr).Ensures items i fun b _ => ∀ e ∈ b, P e := by
  simp only [optionalBranch, ensures_bind, ensures_peekKind, ensures_ite, ensures_pure]
  exact ⟨fun _ => (ensures_hereditary_branch he).imp fun e k hP => by simpa using hP, by simp⟩

include h

theorem ensures_hereditary_pipeline {subject : Expr Extent} (hs : P subject) :
    (pipeline expr subject).Ensures items i fun e _ => P e := by
  simp only [pipeline, ensures_bind, ensures_expectName]
  refine fun hkind => (ensures_hereditary_optionalArguments he).imp fun args j hargs => ?_
  refine ensures_isParam_optionalParams.imp fun ps k hps => ?_
  refine (ensures_hereditary_optionalBranch he).imp fun b l hb => ?_
  rw [ensures_position, ensures_pure]
  exact h.pipeline _ _ _ _ _ _ hs hkind hargs hps hb

theorem ensures_hereditary_operatorTail {left : Expr Extent} (hl : P left) :
    (operatorTail expr left).Ensures items i fun e _ => P e := by
  simp only [operatorTail, ensures_bind, ensures_position, ensures_take]
  split
  · simp only [ternary, ensures_bind]
    refine (ensures_hereditary_branch he).imp fun t j ht => ?_
    rw [ensures_expect]
    refine fun _ => (ensures_hereditary_branch he).imp fun e k hP => ?_
    simp only [ensures_position, ensures_extentFrom, ensures_pure]
    exact h.ternary _ _ _ _ hl ht hP
  · simp only [member, ensures_bind, ensures_expectName, ensures_pure]
    exact fun hkind => h.member _ _ _ hl hkind
  · simp only [index, ensures_bind, ensures_position]
    refine (ensures_hereditary_elements he).imp fun es j hes => ?_
    refine ensures_ite.2 ⟨fun _ => ?_, fun _ => ensures_pure.2 (h.index _ _ _ hl hes)⟩
    exact ensures_bind.2 (ensures_report.2 ensures_giveUpBehind)
  · exact ensures_hereditary_pipeline h he hl
  · split
    · refine ensures_bind.2 ((he _ _).imp fun right j hright => ensures_pure.2 ?_)
      exact h.binary _ _ _ _ hl hright
    · exact ensures_pure.2 hl

theorem ensures_hereditary_operators {limit : Precedence} {n : Nat} {left : Expr Extent} (hl : P left) :
    (operators expr limit n left).Ensures items i fun e _ => P e := by
  induction n generalizing i left with
  | zero => exact ensures_pure.2 hl
  | succ n ih =>
    simp only [operators, ensures_bind, ensures_peekKind, ensures_ite, ensures_pure]
    exact ⟨fun _ => (ensures_hereditary_operatorTail h he hl).imp fun e j hP => ih hP, fun _ => hl⟩

theorem ensures_hereditary_unary {op : UnaryOp} : (unary expr op).Ensures items i fun e _ => P e := by
  simp only [unary, negativeInteger, ensures_bind, ensures_position, ensures_take,
    ensures_peekKind, ensures_ite]
  refine ⟨fun _ => ensures_of_forall fun v j => ?_, fun _ => (he _ _).imp fun e j hP => ?_⟩
  · simp only [ensures_extentFrom, ensures_remaining]
    exact ensures_hereditary_operators h he (h.integer v _)
  · simp only [ensures_extentFrom, ensures_pure]
    exact h.unary op _ _ hP

theorem ensures_hereditary_operand : (operand expr).Ensures items i fun e _ => P e := by
  simp only [operand, ensures_bind, ensures_position, ensures_peek]
  split
  case h_1 => exact ensures_bind.2 (ensures_of_forall fun v j => ensures_pure.2 (h.integer v _))
  case h_2 =>
    rw [floatValue_eq, ensures_bind, ensures_literalValue]
    exact fun x hx => ensures_pure.2 (h.float i x _ hx)
  case h_3 => simpa [literal] using h.string _ _
  case h_4 hk => simpa [literal] using h.regex i _ hk
  case h_5 | h_6 => simpa [literal] using h.boolean _ _
  case h_7 | h_8 => simpa [literal] using h.nil _
  case h_9 hk => simpa using h.dollar i _ hk
  case h_10 hk => simpa using h.property i _ hk
  case h_11 hk => simpa using h.relation i _ hk
  case h_12 => simpa using h.datatype _ _
  case h_13 | h_14 => exact ensures_hereditary_unary h he
  case h_15 =>
    simp only [grouped, ensures_bind, ensures_position, ensures_take]
    refine (he _ _).imp fun e j hP => ?_
    rw [ensures_close]
    simp only [ensures_extentFrom, ensures_pure]
    exact fun _ => h.withPlace _ _ hP
  case h_16 =>
    simp only [list, ensures_bind, ensures_position, ensures_take]
    refine (ensures_hereditary_elements he).imp fun es j hes => ?_
    rw [ensures_extentFrom, ensures_pure]
    exact h.list _ _ hes
  case h_17 => exact ensures_reject

end

theorem ensures_hereditary_expression (h : Expr.Hereditary items P) :
    expression.Ensures items i fun e _ => P e := by
  have within (n : Nat) (limit : Precedence) (j : Nat) :
      (expressionWithin n limit).Ensures items j fun e _ => P e := by
    induction n generalizing limit j with
    | zero => exact ensures_reject
    | succ n ih =>
      simp only [expressionWithin, ensures_bind, ensures_remaining]
      exact (ensures_hereditary_operand h ih).imp fun left k hl => ensures_hereditary_operators h ih hl
  simp only [expression, ensures_bind, ensures_remaining]
  exact within _ _ i

end Rule

end SchemaLang
