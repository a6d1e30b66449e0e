import SchemaLang.Proofs.Nested.Expr
import SchemaLang.Proofs.Overlap.Datatype

/-!
# Expressions in common

An expression goes on as long as operators stand behind it, and what stands for a closing brace is none.
-/

set_option autoImplicit false

namespace SchemaLang.Overlap

open SchemaLang.Rule

variable {S : Overlap}

/-- Expressions that only differ in their places. -/
def SameExpr (e e' : Expr Extent) : Prop := e'.map forget = e.map forget

def SameExprs (es es' : List (Expr Extent)) : Prop := Expr.mapAll forget es' = Expr.mapAll forget es

theorem SameExpr.withPlace {e e' : Expr Extent} (h : SameExpr e e') (p p' : Extent) :
    SameExpr (e.withPlace p) (e'.withPlace p') := by
  have hplace (e : Expr Extent) (q : Extent) : (e.withPlace q).map forget = e.map forget := by
    cases e <;> simp [Expr.withPlace, Expr.map, forget]
  unfold SameExpr
  rw [hplace, hplace]
  exact h

theorem sameExprs_cons {e e' : Expr Extent} {es es' : List (Expr Extent)} (h : SameExpr e e')
    (hs : SameExprs es es') : SameExprs (e :: es) (e' :: es') := by
  unfold SameExpr at h
  unfold SameExprs at hs ⊢
  rw [Expr.mapAll, Expr.mapAll, h, hs]

theorem SameExprs.isEmpty_eq {es es' : List (Expr Extent)} (h : SameExprs es es') :
    es'.isEmpty = es.isEmpty := by
  have := congrArg List.isEmpty h
  simpa [Expr.mapAll_eq_map] using this

theorem carries_literal {value : Literal} : S.Carries (literal value) (literal value) SameExpr :=
  carries_position_bind fun _ _ => carries_take_bind fun _ _ _ => carries_pure rfl

/-- An expression that is one item. -/
theorem carries_leaf {f f' : Item → Expr Extent} (hf : ∀ t t', t.Same t' → SameExpr (f t) (f' t')) :
    S.Carries (do return f (← take)) (do return f' (← take)) SameExpr :=
  carries_take_bind fun t t' ht => carries_pure (hf t t' ht)

/-! ## Parameters -/

/-- Parameters in which the same is written. -/
def SameNames (ns ns' : List (Name Extent)) : Prop :=
  ns'.map (Name.map forget) = ns.map (Name.map forget)

theorem carries_furtherParams {n : Nat} :
    S.Carries (furtherParams n) (furtherParams n) SameNames := by
  rw [furtherParams_eq]
  refine carries_further (by simp [Unwalled]) (carries_expectName_bind fun text p p' => ?_)
  exact carries_pure rfl

theorem carries_params : S.Carries params params SameNames := by
  refine carries_expectName_bind fun text p p' => carries_remaining_bind fun n => ?_
  refine carries_furtherParams.bind (fun _ => rfl) fun ps ps' hps => ?_
  exact carries_expect_bind fun _ _ _ => carries_pure (List.cons_eq_cons.2 ⟨rfl, hps⟩)

theorem carries_optionalParams : S.Carries optionalParams optionalParams
    fun ps ps' => ps'.map (List.map (Name.map forget)) = ps.map (List.map (Name.map forget)) := by
  refine carries_peekKind_ite (by simp [Unwalled]) ?_ (carries_pure rfl)
  refine carries_take_bind fun _ _ _ => carries_params.bind (fun _ => rfl) fun ps ps' hps => ?_
  exact carries_pure (congrArg some hps)

theorem carries_member {e e' : Expr Extent} (h : SameExpr e e') :
    S.Carries (member e) (member e') SameExpr := by
  refine carries_expectName_bind fun text p p' => carries_pure ?_
  unfold SameExpr at h ⊢
  rw [Expr.map, Expr.map, h]
  rfl

section

variable {expr : Within} (he : ∀ limit, S.Carries (expr limit) (expr limit) SameExpr)

include he

/-! ## Lists of expressions -/

theorem carries_furtherElements {closer : Symbol} (hc : closer ≠ .rBrace) {n : Nat} :
    S.Carries (furtherElements expr closer n) (furtherElements expr closer n) SameExprs := by
  have hsame : SameExprs = fun es es' => es'.map (Expr.map forget) = es.map (Expr.map forget) := by
    funext es es'
    rw [SameExprs, Expr.mapAll_eq_map, Expr.mapAll_eq_map]
  rw [furtherElements_eq, hsame]
  exact carries_further (by simp [Unwalled, hc.symm]) (he _)

theorem carries_elements {closer : Symbol} (hc : closer ≠ .rBrace) {opened opened' : Nat}
    {what : Enclosure} :
    S.Carries (elements expr closer opened what) (elements expr closer opened' what) SameExprs := by
  refine carries_peekKind_ite (by simp [Unwalled, hc.symm]) ?_ ?_
  · exact carries_take_bind fun _ _ _ => carries_pure rfl
  · refine (he _).bind (fun _ => rfl) fun e e' hsame => carries_remaining_bind fun n => ?_
    refine (carries_furtherElements he hc).bind (fun _ => rfl) fun es es' hes => ?_
    exact carries_close_bind (carries_pure (sameExprs_cons hsame hes))

/-! ## What belongs to an operator -/

theorem carries_branch : S.Carries (branch expr) (branch expr) SameExpr := by
  refine carries_position_bind fun _ _ => carries_expect_bind fun _ _ _ => ?_
  refine (he _).bind (fun _ => rfl) fun e e' hsame => ?_
  exact carries_close_bind (carries_pure hsame)

theorem carries_ternary {c c' : Expr Extent} (h : SameExpr c c') :
    S.Carries (ternary expr c) (ternary expr c') SameExpr := by
  refine (carries_branch he).bind (fun _ => rfl) fun t t' ht => carries_expect_bind fun _ _ _ => ?_
  refine (carries_branch he).bind (fun _ => rfl) fun e e' hsame => carries_position_bind fun _ _ => ?_
  refine carries_extentFrom_bind fun _ _ => carries_pure ?_
  unfold SameExpr at h ht hsame ⊢
  rw [Expr.map, Expr.map, h, ht, hsame]

theorem carries_index {e e' : Expr Extent} {opened opened' : Nat} (h : SameExpr e e') :
    S.Carries (index expr e opened) (index expr e' opened') SameExpr := by
  refine (carries_elements he (by decide)).bind (fun _ => rfl) fun es es' hes => ?_
  refine carries_position_bind fun _ _ => ?_
  rw [hes.isEmpty_eq]
  refine carries_ite (fun _ => carries_report_bind) fun _ => carries_pure ?_
  unfold SameExpr at h ⊢
  unfold SameExprs at hes
  rw [Expr.map, Expr.map, h, hes]

theorem carries_optionalArguments : S.Carries (optionalArguments expr) (optionalArguments expr)
    fun as as' => Expr.mapArgs forget as' = Expr.mapArgs forget as := by
  refine carries_peekKind_ite (by simp [Unwalled]) ?_ (carries_pure rfl)
  refine carries_position_bind fun _ _ => carries_take_bind fun _ _ _ => ?_
  refine (carries_elements he (by decide)).bind (fun _ => rfl) fun es es' hes => ?_
  exact carries_pure (congrArg some hes)

theorem carries_optionalBranch : S.Carries (optionalBranch expr) (optionalBranch expr)
    fun b b' => Expr.mapBody forget b' = Expr.mapBody forget b := by
  refine carries_peekKind_ite (by simp [Unwalled]) ?_ (carries_pure rfl)
  exact (carries_branch he).bind (fun _ => rfl) fun e e' hsame => carries_pure (congrArg some hsame)

theorem carries_pipeline {e e' : Expr Extent} (h : SameExpr e e') :
    S.Carries (pipeline expr e) (pipeline expr e') SameExpr := by
  refine carries_expectName_bind fun text p p' => ?_
  refine (carries_optionalArguments he).bind (fun _ => rfl) fun as as' has => ?_
  refine carries_optionalParams.bind (fun _ => rfl) fun ps ps' hps => ?_
  refine (carries_optionalBranch he).bind (fun _ => rfl) fun b b' hb => ?_
  refine carries_position_bind fun _ _ => carries_pure ?_
  unfold SameExpr at h ⊢
  rw [Expr.map, Expr.map, h, has, hps, hb]
  rfl

/-! ## Operators -/

theorem carries_operatorTail {e e' : Expr Extent} (h : SameExpr e e') :
    S.Carries (operatorTail expr e) (operatorTail expr e') SameExpr := by
  refine carries_position_bind fun _ _ => carries_take_bind fun t t' ht => ?_
  rw [ht.kind_eq]
  split
  · exact carries_ternary he h
  · exact carries_member h
  · exact carries_index he h
  · exact carries_pipeline he h
  · split
    · refine (he _).bind (fun _ => rfl) fun r r' hr => carries_pure ?_
      unfold SameExpr at h hr ⊢
      rw [Expr.map, Expr.map, h, hr]
    · exact carries_pure h

omit he in
theorem unwalled_leftPrecedence {limit : Precedence} :
    Unwalled fun κ => limit < leftPrecedence κ := by
  have hlowest : ¬ limit < .lowest := Nat.not_lt_zero _
  exact ⟨hlowest, hlowest, hlowest, hlowest, hlowest⟩

theorem carries_operators {limit : Precedence} {n : Nat} {e e' : Expr Extent} (h : SameExpr e e') :
    S.Carries (operators expr limit n e) (operators expr limit n e') SameExpr := by
  induction n generalizing e e' with
  | zero => exact carries_pure h
  | succ n ih =>
    refine carries_peekKind_ite unwalled_leftPrecedence ?_ (carries_pure h)
    exact (carries_operatorTail he h).bind (fun _ => rfl) fun e e' hsame => ih hsame

/-! ## Operands -/

theorem carries_grouped : S.Carries (grouped expr) (grouped expr) SameExpr := by
  refine carries_position_bind fun _ _ => carries_take_bind fun _ _ _ => ?_
  refine (he _).bind (fun _ => rfl) fun e e' hsame => carries_close_bind ?_
  exact carries_extentFrom_bind fun _ _ => carries_pure (hsame.withPlace _ _)

theorem carries_list : S.Carries (list expr) (list expr) SameExpr := by
  refine carries_position_bind fun _ _ => carries_take_bind fun _ _ _ => ?_
  refine (carries_elements he (by decide)).bind (fun _ => rfl) fun es es' hes => ?_
  refine carries_extentFrom_bind fun _ _ => carries_pure ?_
  unfold SameExprs at hes
  unfold SameExpr
  rw [Expr.map, Expr.map, hes]

theorem carries_unary {op : UnaryOp} : S.Carries (unary expr op) (unary expr op) SameExpr := by
  refine carries_position_bind fun _ _ => carries_take_bind fun _ _ _ => ?_
  refine carries_peekKind_ite (by simp [Unwalled]) ?_ ?_
  · refine carries_integerValue.bind (fun _ => rfl) ?_
    rintro v _ rfl
    refine carries_extentFrom_bind fun _ _ => carries_remaining_bind fun n => ?_
    exact carries_operators he rfl
  · refine (he _).bind (fun _ => rfl) fun e e' hsame => carries_extentFrom_bind fun _ _ => ?_
    refine carries_pure ?_
    unfold SameExpr at hsame ⊢
    rw [Expr.map, Expr.map, hsame]

theorem carries_operand (hlt : ∀ i, (operand expr).Ensures S.left i fun _ j => i < j) :
    S.Carries (operand expr) (operand expr) SameExpr := by
  refine carries_of_lt hlt fun k hk => carriesAt_position_bind fun i i' => ?_
  refine carriesAt_peek_bind hk fun t t' ht => ?_
  rw [ht.kind_eq, ht.text_eq]
  split
  · refine carries_integerValue.bind (fun _ => rfl) ?_ k
    rintro v _ rfl
    exact carries_pure rfl
  · refine carries_floatValue.bind (fun _ => rfl) ?_ k
    rintro v _ rfl
    exact carries_pure rfl
  · exact carries_literal k
  · exact carries_literal k
  · exact carries_literal k
  · exact carries_literal k
  · exact carries_literal k
  · exact carries_literal k
  · refine carries_leaf (fun t t' ht => ?_) k
    rw [ht.text_eq]
    rfl
  · refine carries_leaf (fun t t' ht => ?_) k
    rw [ht.text_eq]
    rfl
  · refine carries_leaf (fun t t' ht => ?_) k
    rw [ht.text_eq]
    rfl
  · refine carries_take_bind (fun _ _ _ => carries_pure ?_) k
    rfl
  · exact carries_unary he k
  · exact carries_unary he k
  · exact carries_grouped he k
  · exact carries_list he k
  · exact carries_reject k

end

theorem carries_expressionWithin {n : Nat} {limit : Precedence} :
    S.Carries (expressionWithin n limit) (expressionWithin n limit) SameExpr := by
  induction n generalizing limit with
  | zero => exact carries_reject
  | succ n ih =>
    have hlt (i : Nat) :
        (operand (expressionWithin n)).Ensures S.left i fun _ j => i < j :=
      (ensures_operand fun _ _ => ensures_expressionWithin).imp fun _ _ h => h.lt
    refine (carries_operand (fun _ => ih) hlt).bind (fun _ => rfl) fun e e' hsame => ?_
    exact carries_remaining_bind fun m => carries_operators (fun _ => ih) hsame

theorem carries_expression : S.Carries expression expression SameExpr :=
  carries_remaining_bind fun _ => carries_expressionWithin

end SchemaLang.Overlap
