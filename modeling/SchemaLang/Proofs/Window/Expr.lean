import SchemaLang.Proofs.Phrase.Expr
import SchemaLang.Proofs.Window.Datatype

/-!
# Expressions in a body

* `Window.AlikeFrom`: what a rule within needs to know of the rules for expressions, at every depth.

Only the branches of a ternary and the body of a pipeline have braces. Each opens one and closes it
again, so behind a branch the depth is that before it.
-/

set_option autoImplicit false

namespace SchemaLang

theorem isPlain_of_lt_leftPrecedence {limit : Precedence} {k : TokenKind}
    (h : limit < leftPrecedence k) : k.isPlain = true := by
  unfold TokenKind.isPlain
  split
  · exact absurd h (Nat.not_lt_zero _)
  · exact absurd h (Nat.not_lt_zero _)
  · exact absurd h (Nat.not_lt_zero _)
  · rfl

namespace Window

open SchemaLang.Rule

variable {W : Window} {floor d i : Nat}

/-- Two expressions that are the same but for their places, of an item at least. -/
def SameExpr (i : Nat) (e e' : Expr Extent) (j : Nat) : Prop :=
  i < j ∧ e.map forget = e'.map forget

variable (W) in
def AlikeFrom (floor i : Nat) (expr expr' : Within) : Prop :=
  ∀ limit d j, i ≤ j → W.Alike floor d d (expr limit) (expr' limit) j (SameExpr j)

variable {expr expr' : Within}

theorem AlikeFrom.mono {j : Nat} (h : W.AlikeFrom floor i expr expr') (hij : i ≤ j) :
    W.AlikeFrom floor j expr expr' := fun limit d k hk => h limit d k (Nat.le_trans hij hk)

/-! ## Lists of expressions -/

section

variable (hl : floor < i) (he : W.AlikeFrom floor i expr expr')

include he

theorem alike_furtherElements {closer : Symbol} {n n' : Nat} (hn : W.size < n + i)
    (hn' : W.size < n' + i) :
    W.Alike floor d d (furtherElements expr closer n) (furtherElements expr' closer n') i
      fun es es' j => i ≤ j ∧ Expr.mapAll forget es = Expr.mapAll forget es' := by
  simp only [furtherElements_eq, Expr.mapAll_eq_map]
  exact alike_further (fun j hj => he _ _ j (Nat.le_of_lt hj)) hn hn'

include hl

theorem alike_elements {closer : Symbol} {opened opened' : Nat} {what : Enclosure}
    (hc : (TokenKind.symbol closer).isPlain = true) :
    W.Alike floor d d (elements expr closer opened what) (elements expr' closer opened' what) i
      fun es es' j => i < j ∧ Expr.mapAll forget es = Expr.mapAll forget es' := by
  simp only [elements, alike_peekKind_bind, alike_ite]
  refine ⟨fun hk => alike_take_bind (hk ▸ hc) (alike_pure ⟨by omega, rfl⟩), fun _ => ?_⟩
  refine (he _ _ _ (Nat.le_refl i)).bind ?_
  rintro e e' j ⟨hj, hmap⟩
  refine alike_remaining_bind fun n n' hn hn' => ?_
  refine (alike_furtherElements (he.mono (by omega)) hn hn').bind ?_
  rintro es es' k ⟨hk, hmaps⟩
  refine alike_close_bind (by omega) hc (alike_pure ⟨by omega, ?_⟩)
  simp [Expr.mapAll, hmap, hmaps]

/-! ## What belongs to an operator -/

/-- Within the branch one more brace is open. -/
theorem alike_branch :
    W.Alike floor d d (branch expr) (branch expr') i (SameExpr i) := by
  refine alike_of_path fun hp hd => ?_
  have hle : W.depth floor ≤ d := hd ▸ hp.depth_le
  simp only [branch, alike_position_bind]
  refine alike_expectOpening_bind hl fun _ _ => (he _ _ _ (by omega)).bind ?_
  rintro e e' j ⟨hj, hmap⟩
  exact alike_closeBrace_bind (by omega) hle (alike_pure ⟨by omega, hmap⟩)

theorem alike_ternary {condition condition' : Expr Extent}
    (hc : condition.map forget = condition'.map forget) :
    W.Alike floor d d (ternary expr condition) (ternary expr' condition') i (SameExpr i) := by
  refine (alike_branch hl he).bind ?_
  rintro t t' j ⟨hj, ht⟩
  refine alike_expect_bind (by omega) rfl fun _ => ?_
  refine (alike_branch (by omega) (he.mono (by omega))).bind ?_
  rintro e e' k ⟨hk, he⟩
  simp only [alike_position_bind, alike_extentFrom_bind]
  exact alike_pure ⟨by omega, by simp [Expr.map, hc, ht, he, forget]⟩

omit he in
theorem alike_member {object object' : Expr Extent} (ho : object.map forget = object'.map forget) :
    W.Alike floor d d (member object) (member object') i (SameExpr i) :=
  alike_expectName_bind hl ⟨rfl, rfl, rfl⟩ fun p p' =>
    alike_pure ⟨Nat.lt_succ_self i, by simp [Expr.map, Name.map, ho, forget]⟩

theorem alike_index {object object' : Expr Extent} {opened opened' : Nat}
    (ho : object.map forget = object'.map forget) :
    W.Alike floor d d (index expr object opened) (index expr' object' opened') i (SameExpr i) := by
  refine (alike_elements hl he rfl).bind ?_
  rintro es es' j ⟨hj, hmaps⟩
  have hempty : es.isEmpty = es'.isEmpty := by
    rw [Expr.mapAll_eq_map, Expr.mapAll_eq_map] at hmaps
    have hlength := congrArg List.length hmaps
    cases es <;> cases es' <;> simp_all
  rw [hempty, alike_position_bind, alike_ite]
  refine ⟨fun _ => alike_report_bind (alike_giveUpBehind (by omega)), fun _ => ?_⟩
  exact alike_pure ⟨hj, by simp [Expr.map, ho, hmaps, forget]⟩

/-! ## Pipelines -/

omit he hl in
theorem alike_furtherParams {n n' : Nat} (hl : floor ≤ i) (hn : W.size < n + i)
    (hn' : W.size < n' + i) :
    W.Alike floor d d (furtherParams n) (furtherParams n') i
      fun ps ps' j => i ≤ j ∧ ps.map (Name.map forget) = ps'.map (Name.map forget) := by
  simp only [furtherParams_eq]
  refine alike_further (fun j hj => ?_) hn hn'
  refine alike_expectName_bind (by omega) ⟨rfl, rfl, rfl⟩ fun p p' => alike_pure ⟨by omega, ?_⟩
  simp [Name.map, forget]

omit he in
theorem alike_params :
    W.Alike floor d d params params i
      fun ps ps' j => i < j ∧ ps.map (Name.map forget) = ps'.map (Name.map forget) := by
  refine alike_expectName_bind hl ⟨rfl, rfl, rfl⟩ fun p p' => ?_
  refine alike_remaining_bind fun n n' hn hn' => ?_
  refine (alike_furtherParams (by omega) hn hn').bind ?_
  rintro ps ps' j ⟨hj, hmaps⟩
  refine alike_expect_bind (by omega) rfl fun _ => alike_pure ⟨by omega, ?_⟩
  simp [Name.map, hmaps, forget]

theorem alike_optionalArguments :
    W.Alike floor d d (optionalArguments expr) (optionalArguments expr') i
      fun args args' j => i ≤ j ∧ Expr.mapArgs forget args = Expr.mapArgs forget args' := by
  simp only [optionalArguments, alike_peekKind_bind, alike_ite, alike_position_bind]
  refine ⟨fun hk => alike_take_bind (by simp [hk]) ?_, fun _ => alike_pure ⟨Nat.le_refl i, rfl⟩⟩
  refine (alike_elements (by omega) (he.mono (by omega)) rfl).bind ?_
  rintro es es' j ⟨hj, hmaps⟩
  exact alike_pure ⟨by omega, by simp [Expr.mapArgs, hmaps]⟩

omit he in
theorem alike_optionalParams :
    W.Alike floor d d optionalParams optionalParams i fun ps ps' j =>
      i ≤ j ∧ ps.map (List.map (Name.map forget)) = ps'.map (List.map (Name.map forget)) := by
  simp only [optionalParams, alike_peekKind_bind, alike_ite]
  refine ⟨fun hk => alike_take_bind (by simp [hk]) ?_, fun _ => alike_pure ⟨Nat.le_refl i, rfl⟩⟩
  refine (alike_params (by omega)).bind ?_
  rintro ps ps' j ⟨hj, hmaps⟩
  exact alike_pure ⟨by omega, congrArg some hmaps⟩

theorem alike_optionalBranch :
    W.Alike floor d d (optionalBranch expr) (optionalBranch expr') i
      fun body body' j => i ≤ j ∧ Expr.mapBody forget body = Expr.mapBody forget body' := by
  simp only [optionalBranch, alike_peekKind_bind, alike_ite]
  refine ⟨fun _ => (alike_branch hl he).bind ?_, fun _ => alike_pure ⟨Nat.le_refl i, rfl⟩⟩
  rintro e e' j ⟨hj, hmap⟩
  exact alike_pure ⟨by omega, congrArg some hmap⟩

theorem alike_pipeline {subject subject' : Expr Extent}
    (hs : subject.map forget = subject'.map forget) :
    W.Alike floor d d (pipeline expr subject) (pipeline expr' subject') i (SameExpr i) := by
  refine alike_expectName_bind hl ⟨rfl, rfl, rfl⟩ fun p p' => ?_
  refine (alike_optionalArguments (by omega) (he.mono (by omega))).bind ?_
  rintro args args' j ⟨hj, hargs⟩
  refine (alike_optionalParams (by omega)).bind ?_
  rintro ps ps' k ⟨hk, hps⟩
  refine (alike_optionalBranch (by omega) (he.mono (by omega))).bind ?_
  rintro body body' l ⟨hl, hbody⟩
  rw [alike_position_bind]
  exact alike_pure ⟨by omega, by simp [Expr.map, Name.map, hs, hargs, hps, hbody, forget]⟩

/-! ## Operators -/

theorem alike_operatorTail {left left' : Expr Extent} (hleft : left.map forget = left'.map forget)
    (hk : (kindAt W.body i).isPlain = true) :
    W.Alike floor d d (operatorTail expr left) (operatorTail expr' left') i (SameExpr i) := by
  have weaken {e e' : Expr Extent} {j : Nat} (h : SameExpr (i + 1) e e' j) : SameExpr i e e' j :=
    ⟨Nat.lt_of_succ_lt h.1, h.2⟩
  have he' := he.mono (Nat.le_succ i)
  simp only [operatorTail, alike_position_bind]
  refine alike_take_bind hk ?_
  split
  · exact (alike_ternary (by omega) he' hleft).imp fun _ _ _ => weaken
  · exact (alike_member (by omega) hleft).imp fun _ _ _ => weaken
  · exact (alike_index (by omega) he' hleft).imp fun _ _ _ => weaken
  · exact (alike_pipeline (by omega) he' hleft).imp fun _ _ _ => weaken
  · split
    · refine (he' _ _ _ (Nat.le_refl _)).bind ?_
      rintro right right' j ⟨hj, hright⟩
      exact alike_pure ⟨by omega, by simp [Expr.map, hleft, hright, forget]⟩
    · exact alike_pure ⟨by omega, hleft⟩

/-- There are more rounds than items left. -/
theorem alike_operators {limit : Precedence} {n n' : Nat} {left left' : Expr Extent}
    (hleft : left.map forget = left'.map forget) (hn : W.size < n + i) (hn' : W.size < n' + i) :
    W.Alike floor d d (operators expr limit n left) (operators expr' limit n' left') i
      fun e e' j => i ≤ j ∧ e.map forget = e'.map forget := by
  induction n generalizing i n' left left' with
  | zero => exact alike_of_le fun hi => by omega
  | succ n ih =>
    refine alike_of_le fun hi => ?_
    obtain ⟨n', rfl⟩ : ∃ m, n' = m + 1 := ⟨n' - 1, by omega⟩
    simp only [operators, alike_peekKind_bind, alike_ite]
    refine ⟨fun hk => ?_, fun _ => alike_pure ⟨Nat.le_refl i, hleft⟩⟩
    refine (alike_operatorTail hl he hleft (isPlain_of_lt_leftPrecedence hk)).bind ?_
    rintro e e' j ⟨hj, hmap⟩
    refine (ih (by omega) (he.mono (by omega)) hmap (by omega) (by omega)).imp ?_
    rintro _ _ _ ⟨hle, hmap⟩
    exact ⟨by omega, hmap⟩

end

/-! ## Operands -/

section

variable (hl : floor ≤ i) (he : W.AlikeFrom floor (i + 1) expr expr')

include hl he

omit hl he in
theorem alike_literal {value : Literal} (hk : (kindAt W.body i).isPlain = true) :
    W.Alike floor d d (literal value) (literal value) i (SameExpr i) := by
  simp only [literal, alike_position_bind]
  exact alike_take_bind hk (alike_pure ⟨Nat.lt_succ_self i, rfl⟩)

theorem alike_grouped (hk : (kindAt W.body i).isPlain = true) :
    W.Alike floor d d (grouped expr) (grouped expr') i (SameExpr i) := by
  simp only [grouped, alike_position_bind]
  refine alike_take_bind hk ((he _ _ _ (Nat.le_refl _)).bind ?_)
  rintro e e' j ⟨hj, hmap⟩
  refine alike_close_bind (by omega) rfl ?_
  rw [alike_extentFrom_bind]
  exact alike_pure ⟨by omega, by simpa [Expr.map_forget_withPlace] using hmap⟩

theorem alike_list (hk : (kindAt W.body i).isPlain = true) :
    W.Alike floor d d (list expr) (list expr') i (SameExpr i) := by
  simp only [list, alike_position_bind]
  refine alike_take_bind hk ((alike_elements (by omega) he rfl).bind ?_)
  rintro es es' j ⟨hj, hmaps⟩
  exact alike_extentFrom_bind.2 (alike_pure ⟨by omega, by simp [Expr.map, hmaps, forget]⟩)

omit hl in
theorem alike_negativeInteger {start start' : Nat} (hl : floor < i)
    (hk : kindAt W.body i = .integerLit) :
    W.Alike floor d d (negativeInteger expr start) (negativeInteger expr' start') i (SameExpr i) := by
  refine (alike_integerValue (by simp [hk])).bind ?_
  rintro v _ _ ⟨rfl, rfl⟩
  rw [alike_extentFrom_bind]
  refine alike_remaining_bind fun n n' hn hn' => ?_
  refine Alike.imp (alike_operators (by omega) he ?_ hn hn') ?_
  · rfl
  · rintro _ _ _ ⟨hle, hmap⟩
    exact ⟨by omega, hmap⟩

theorem alike_unary {op : UnaryOp} (hk : (kindAt W.body i).isPlain = true) :
    W.Alike floor d d (unary expr op) (unary expr' op) i (SameExpr i) := by
  simp only [unary, alike_position_bind]
  refine alike_take_bind hk ?_
  rw [alike_peekKind_bind, alike_ite]
  refine ⟨fun h => ?_, fun _ => ?_⟩
  · refine (alike_negativeInteger (he.mono (by omega)) (by omega) h.2).imp ?_
    rintro _ _ _ ⟨hle, hmap⟩
    exact ⟨by omega, hmap⟩
  · refine (he _ _ _ (Nat.le_refl _)).bind ?_
    rintro e e' j ⟨hj, hmap⟩
    exact alike_extentFrom_bind.2 (alike_pure ⟨by omega, by simp [Expr.map, hmap, forget]⟩)

theorem alike_operand : W.Alike floor d d (operand expr) (operand expr') i (SameExpr i) := by
  refine alike_of_le fun hi => ?_
  simp only [operand, alike_position_bind]
  rcases Nat.lt_or_eq_of_le hi with hlt | rfl
  · have plain {k : TokenKind} (hk : (itemAt W.body i).kind = k) (hp : k.isPlain = true) :
        (kindAt W.body i).isPlain = true := (congrArg TokenKind.isPlain hk).trans hp
    refine alike_peek_bind hlt ?_
    split
    · rename_i hk
      refine (alike_integerValue (plain hk rfl)).bind ?_
      rintro v _ _ ⟨rfl, rfl⟩
      exact alike_pure ⟨Nat.lt_succ_self i, rfl⟩
    · rename_i hk
      refine (alike_floatValue (plain hk rfl)).bind ?_
      rintro v _ _ ⟨rfl, rfl⟩
      exact alike_pure ⟨Nat.lt_succ_self i, rfl⟩
    · rename_i hk
      exact alike_literal (plain hk rfl)
    · rename_i hk
      exact alike_literal (plain hk rfl)
    · rename_i hk
      exact alike_literal (plain hk rfl)
    · rename_i hk
      exact alike_literal (plain hk rfl)
    · rename_i hk
      exact alike_literal (plain hk rfl)
    · rename_i hk
      exact alike_literal (plain hk rfl)
    · rename_i hk
      exact alike_take_bind (plain hk rfl) (alike_pure ⟨Nat.lt_succ_self i, rfl⟩)
    · rename_i hk
      exact alike_take_bind (plain hk rfl) (alike_pure ⟨Nat.lt_succ_self i, rfl⟩)
    · rename_i hk
      exact alike_take_bind (plain hk rfl) (alike_pure ⟨Nat.lt_succ_self i, rfl⟩)
    · rename_i hk
      exact alike_take_bind (plain hk rfl) (alike_pure ⟨Nat.lt_succ_self i, rfl⟩)
    · rename_i hk
      exact alike_unary hl he (plain hk rfl)
    · rename_i hk
      exact alike_unary hl he (plain hk rfl)
    · rename_i hk
      exact alike_grouped hl he (plain hk rfl)
    · rename_i hk
      exact alike_list hl he (plain hk rfl)
    · exact alike_reject
  · refine alike_peek_bind_end fun t t' ht ht' => ?_
    simp only [ht, ht']
    exact alike_reject

end

/-! ## Whole expressions -/

/-- There are more rounds than items left. -/
theorem alike_expressionWithin {limit : Precedence} {n n' : Nat} (hn : W.size < n + i)
    (hn' : W.size < n' + i) :
    W.Alike floor d d (expressionWithin n limit) (expressionWithin n' limit) i (SameExpr i) := by
  induction n generalizing i n' limit d with
  | zero => exact alike_of_le fun hi => by omega
  | succ n ih =>
    refine alike_of_path fun hp _ => ?_
    have hi := hp.le_size
    have hl := hp.le
    obtain ⟨n', rfl⟩ : ∃ m, n' = m + 1 := ⟨n' - 1, by omega⟩
    have he : W.AlikeFrom floor (i + 1) (expressionWithin n) (expressionWithin n') :=
      fun _ _ _ hj => ih (by omega) (by omega)
    simp only [expressionWithin]
    refine (alike_operand hl he).bind ?_
    rintro left left' j ⟨hj, hmap⟩
    refine alike_remaining_bind fun m m' hm hm' => ?_
    refine (alike_operators (by omega) (he.mono hj) hmap hm hm').imp ?_
    rintro _ _ _ ⟨hle, hmap⟩
    exact ⟨by omega, hmap⟩

theorem alike_expression :
    W.Alike floor d d expression expression i (SameExpr i) :=
  alike_remaining_bind fun _ _ hn hn' => alike_expressionWithin hn hn'

end Window

end SchemaLang
