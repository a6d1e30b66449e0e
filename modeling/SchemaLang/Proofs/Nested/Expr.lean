import SchemaLang.Grammar.Expr
import SchemaLang.Proofs.Nested.Datatype

/-!
# Places of expressions

An operator makes a wider node around the operand on its left: its place is merged from that operand and
the last item read (`PlaceTree.Covers.merge`). Parentheses only widen the place of what stands within
(`PlaceTree.Covers.widen`).

Main statement: an expression covers the items that it is read from (`Rule.ensures_expression`).
-/

set_option autoImplicit false

namespace SchemaLang

open PlaceTree

theorem Expr.place_placeTree {σ : Type} (e : Expr σ) : e.placeTree.place = e.place := by
  cases e <;> simp [Expr.placeTree, Expr.place]

theorem Expr.placeTree_withPlace {σ : Type} (q : σ) (e : Expr σ) :
    (e.withPlace q).placeTree = node q e.placeTree.parts := by
  cases e <;> simp [Expr.withPlace, Expr.placeTree, PlaceTree.parts, PlaceTree.leaf]

/-- A node around an operand and whatever stands behind it, up to the last item of `read`. -/
theorem PlaceTree.Covers.merge {left : Expr Extent} {ts : List (PlaceTree Extent)} {read : Extent}
    {s i j : Nat} (h : left.placeTree.Covers s i) (hts : Fill ts i j) (hj : i < j)
    (hfirst : s ≤ read.first) (hlast : read.last = j - 1) :
    (node (left.place.merge read) (left.placeTree :: ts)).Covers s j := by
  have hlt := h.lt
  have place : left.place = ⟨s, i - 1⟩ := (Expr.place_placeTree left).symm.trans h.place_eq
  have merged : left.place.merge read = ⟨s, j - 1⟩ := by
    simp only [place, Extent.merge, hlast, Nat.min_eq_left hfirst]
    rw [Nat.max_eq_right (by omega)]
  rw [merged]
  exact (Fill.cons h hts (Nat.le_refl s)).covers_node (by omega)

namespace Rule

variable {items : Items} {s i k : Nat} {expr : Within}

theorem ensures_literal {value : Literal} :
    (literal value).Ensures items i fun e j => e.placeTree.Covers i j := by
  simp [literal, Expr.placeTree, covers_single]

theorem ensures_furtherParams {n : Nat} :
    (furtherParams n).Ensures items i fun ps j => Fill (ps.map Name.placeTree) i j := by
  rw [furtherParams_eq]
  exact ensures_fill_further fun j => by simp [param, covers_name]

theorem ensures_params :
    params.Ensures items i fun ps j => Fill (ps.map Name.placeTree) i j := by
  simp only [params, ensures_bind, ensures_expectName, ensures_remaining]
  intro _
  refine ensures_furtherParams.imp fun ps j hps => ?_
  simp only [ensures_expect, ensures_pure, List.map_cons]
  exact fun _ => Fill.cons (covers_name _ i) (hps.mono (Nat.le_refl _) (by omega)) (Nat.le_refl i)

theorem ensures_optionalParams :
    optionalParams.Ensures items i fun ps j => Fill ((ps.getD []).map Name.placeTree) i j := by
  simp only [optionalParams, ensures_bind, ensures_peekKind, ensures_ite, ensures_take, ensures_pure]
  refine ⟨fun _ => ?_, fun _ => Nat.le_refl i⟩
  exact ensures_params.imp fun ps j hps => hps.mono (by omega) (Nat.le_refl j)

section

variable (he : ∀ limit j, (expr limit).Ensures items j fun e k => e.placeTree.Covers j k)

include he

/-! ## Lists of expressions -/

theorem ensures_furtherElements {closer : Symbol} {n : Nat} :
    (furtherElements expr closer n).Ensures items i fun es j => Fill (Expr.placeTrees es) i j := by
  rw [furtherElements_eq]
  simpa only [Expr.placeTrees_eq_map] using ensures_fill_further (he .lowest)

theorem ensures_elements {closer : Symbol} {opened : Nat} {what : Enclosure} :
    (elements expr closer opened what).Ensures items i
      fun es j => i < j ∧ Fill (Expr.placeTrees es) i j := by
  simp only [elements, ensures_bind, ensures_peekKind, ensures_ite, ensures_take, ensures_pure,
    ensures_remaining]
  refine ⟨fun _ => ⟨Nat.lt_succ_self i, Nat.le_succ i⟩, fun _ => ?_⟩
  refine (he _ _).imp fun e j hcover => (ensures_furtherElements he).imp fun es k hfill => ?_
  rw [ensures_close]
  intro _
  have hlt := hcover.lt
  have hle := hfill.le
  exact ⟨by omega, Fill.cons hcover (hfill.mono (Nat.le_refl j) (by omega)) (Nat.le_refl i)⟩

/-! ## What belongs to an operator -/

theorem ensures_branch :
    (branch expr).Ensures items i fun e j => i < j ∧ Fill [e.placeTree] i j := by
  simp only [branch, ensures_bind, ensures_position, ensures_expect]
  intro _
  refine (he _ _).imp fun e j hcover => ?_
  simp only [ensures_close, ensures_pure]
  have hlt := hcover.lt
  exact fun _ => ⟨by omega, hcover.fill.mono (by omega) (by omega)⟩

theorem ensures_ternary {condition : Expr Extent} (hc : condition.placeTree.Covers s k)
    (hk : k ≤ i) :
    (ternary expr condition).Ensures items i fun e j => e.placeTree.Covers s j := by
  simp only [ternary, ensures_bind]
  refine (ensures_branch he).imp ?_
  rintro t j ⟨hj, ht⟩
  rw [ensures_expect]
  intro _
  refine (ensures_branch he).imp ?_
  rintro e m ⟨hm, hbranch⟩
  simp only [ensures_position, ensures_extentFrom, ensures_pure, Expr.placeTree]
  have hlt := hc.lt
  have hparts : Fill [t.placeTree, e.placeTree] k m :=
    (ht.mono hk (Nat.le_succ j)).append hbranch
  exact hc.merge hparts (by omega) (by dsimp only; omega) rfl

omit he in
theorem ensures_member {object : Expr Extent} (ho : object.placeTree.Covers s k) (hk : k ≤ i) :
    (member object).Ensures items i fun e j => e.placeTree.Covers s j := by
  simp only [member, ensures_bind, ensures_expectName, ensures_pure, Expr.placeTree]
  intro _
  have hlt := ho.lt
  exact ho.merge ((covers_name _ i).fill.mono hk (Nat.le_refl _)) (by omega)
    (Nat.le_trans (by omega) (Nat.le_refl i)) rfl

theorem ensures_index {object : Expr Extent} {opened : Nat} (ho : object.placeTree.Covers s k)
    (hk : k ≤ i) :
    (index expr object opened).Ensures items i fun e j => e.placeTree.Covers s j := by
  simp only [index, ensures_bind, ensures_position]
  refine (ensures_elements he).imp ?_
  rintro es j ⟨hj, hfill⟩
  simp only [ensures_ite, ensures_bind, ensures_report, ensures_giveUpBehind, ensures_pure,
    implies_true, true_and, Expr.placeTree]
  intro _
  have hlt := ho.lt
  exact ho.merge (hfill.mono hk (Nat.le_refl j)) (by omega) (by dsimp only [Extent.single]; omega)
    rfl

theorem ensures_optionalArguments :
    (optionalArguments expr).Ensures items i fun args j => Fill (Expr.argPlaceTrees args) i j := by
  simp only [optionalArguments, ensures_bind, ensures_peekKind, ensures_ite, ensures_position,
    ensures_take, ensures_pure]
  refine ⟨fun _ => ?_, fun _ => Nat.le_refl i⟩
  exact (ensures_elements he).imp fun es j h => h.2.mono (Nat.le_succ i) (Nat.le_refl j)

theorem ensures_optionalBranch :
    (optionalBranch expr).Ensures items i fun body j => Fill (Expr.bodyPlaceTrees body) i j := by
  simp only [optionalBranch, ensures_bind, ensures_peekKind, ensures_ite, ensures_pure]
  exact ⟨fun _ => (ensures_branch he).imp fun _ _ h => h.2, fun _ => Nat.le_refl i⟩

theorem ensures_pipeline {subject : Expr Extent} (hs : subject.placeTree.Covers s k) (hk : k ≤ i) :
    (pipeline expr subject).Ensures items i fun e j => e.placeTree.Covers s j := by
  simp only [pipeline, ensures_bind, ensures_expectName]
  intro _
  refine (ensures_optionalArguments he).imp fun args j hargs => ?_
  refine ensures_optionalParams.imp fun ps l hps => ?_
  refine (ensures_optionalBranch he).imp fun body m hbody => ?_
  simp only [ensures_position, ensures_pure, Expr.placeTree]
  have hlt := hs.lt
  have hj := hargs.le
  have hl := hps.le
  have hm := hbody.le
  exact hs.merge (Fill.cons (covers_name _ i) ((hargs.append hps).append hbody) hk) (by omega)
    (by dsimp only [Extent.single]; omega) rfl

/-! ## Operators -/

theorem ensures_operatorTail {left : Expr Extent} (hl : left.placeTree.Covers s i)
    (hop : leftPrecedence (kindAt items i) ≠ .lowest) :
    (operatorTail expr left).Ensures items i fun e j => e.placeTree.Covers s j := by
  have hlt := hl.lt
  simp only [operatorTail, ensures_bind, ensures_position, ensures_take]
  split
  · exact ensures_ternary he hl (Nat.le_succ i)
  · exact ensures_member hl (Nat.le_succ i)
  · exact ensures_index he hl (Nat.le_succ i)
  · exact ensures_pipeline he hl (Nat.le_succ i)
  · split
    · refine ensures_bind.2 ((he _ _).imp fun right j hright => ensures_pure.2 ?_)
      rw [Expr.placeTree]
      have hj := hright.lt
      have place : right.place = ⟨i + 1, j - 1⟩ :=
        (Expr.place_placeTree right).symm.trans hright.place_eq
      exact hl.merge (hright.fill.mono (Nat.le_succ i) (Nat.le_refl j)) (by omega)
        (by rw [place]; dsimp only; omega) (by rw [place])
    · rename_i hnone
      -- what is no operator binds nothing
      exfalso
      apply hop
      change BinaryOp.ofToken? (kindAt items i) = none at hnone
      simp only [leftPrecedence, infixInfo?]
      split
      · rename_i info hinfo
        simp_all [kindAt]
      · rfl

theorem ensures_operators {limit : Precedence} {n : Nat} {left : Expr Extent}
    (hl : left.placeTree.Covers s i) :
    (operators expr limit n left).Ensures items i fun e j => e.placeTree.Covers s j := by
  induction n generalizing i left with
  | zero => exact ensures_pure.2 hl
  | succ n ih =>
    simp only [operators, ensures_bind, ensures_peekKind, ensures_ite, ensures_pure]
    refine ⟨fun hlt => ?_, fun _ => hl⟩
    have hop : leftPrecedence (kindAt items i) ≠ .lowest := by
      intro h
      rw [h] at hlt
      exact Nat.not_lt_zero _ hlt
    exact (ensures_operatorTail he hl hop).imp fun e j hcover => ih hcover

/-! ## Operands -/

theorem ensures_grouped :
    (grouped expr).Ensures items i fun e j => e.placeTree.Covers i j := by
  simp only [grouped, ensures_bind, ensures_position, ensures_take]
  refine (he _ _).imp fun e j hcover => ?_
  simp only [ensures_close, ensures_extentFrom, ensures_pure, Expr.placeTree_withPlace]
  exact fun _ => hcover.widen (Nat.le_succ i) (Nat.le_succ j)

theorem ensures_list : (list expr).Ensures items i fun e j => e.placeTree.Covers i j := by
  simp only [list, ensures_bind, ensures_position, ensures_take]
  refine (ensures_elements he).imp ?_
  rintro es j ⟨hj, hfill⟩
  simp only [ensures_extentFrom, ensures_pure, Expr.placeTree]
  exact (hfill.mono (Nat.le_succ i) (Nat.le_refl j)).covers_node (by omega)

theorem ensures_negativeInteger (hs : s < i) :
    (negativeInteger expr s).Ensures items i fun e j => e.placeTree.Covers s j := by
  simp only [negativeInteger, ensures_bind]
  refine ensures_integerValue.imp ?_
  rintro v _ rfl
  simp only [ensures_extentFrom, ensures_remaining]
  refine ensures_operators he ?_
  rw [Expr.placeTree]
  exact covers_leaf (by omega)

theorem ensures_unary {op : UnaryOp} :
    (unary expr op).Ensures items i fun e j => e.placeTree.Covers i j := by
  simp only [unary, ensures_bind, ensures_position, ensures_take, ensures_peekKind, ensures_ite]
  refine ⟨fun _ => ensures_negativeInteger he (Nat.lt_succ_self i), fun _ => ?_⟩
  refine (he _ _).imp fun e j hcover => ?_
  simp only [ensures_extentFrom, ensures_pure, Expr.placeTree]
  have hlt := hcover.lt
  exact (hcover.fill.mono (Nat.le_succ i) (Nat.le_refl j)).covers_node (by omega)

theorem ensures_operand : (operand expr).Ensures items i fun e j => e.placeTree.Covers i j := by
  simp only [operand, ensures_bind, ensures_position, ensures_peek]
  split
  case h_1 =>
    refine ensures_bind.2 (ensures_integerValue.imp ?_)
    rintro v _ rfl
    simp [Expr.placeTree, covers_single]
  case h_2 =>
    refine ensures_bind.2 (ensures_floatValue.imp ?_)
    rintro v _ rfl
    simp [Expr.placeTree, covers_single]
  case h_3 | h_4 | h_5 | h_6 | h_7 | h_8 => exact ensures_literal
  case h_9 | h_10 | h_11 | h_12 => simp [Expr.placeTree, covers_single]
  case h_13 | h_14 => exact ensures_unary he
  case h_15 => exact ensures_grouped he
  case h_16 => exact ensures_list he
  case h_17 => exact ensures_reject

end

theorem ensures_expressionWithin {limit : Precedence} {n : Nat} :
    (expressionWithin n limit).Ensures items i fun e j => e.placeTree.Covers i j := by
  induction n generalizing i limit with
  | zero => exact ensures_reject
  | succ n ih =>
    have he (limit : Precedence) (j : Nat) := @ih j limit
    simp only [expressionWithin, ensures_bind, ensures_remaining]
    exact (ensures_operand he).imp fun left j hleft => ensures_operators he hleft

theorem ensures_expression : expression.Ensures items i fun e j => e.placeTree.Covers i j := by
  simp only [expression, ensures_bind, ensures_remaining]
  exact ensures_expressionWithin

end Rule

end SchemaLang
