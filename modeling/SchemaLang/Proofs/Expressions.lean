import SchemaLang.Proofs.ExprComplete
import SchemaLang.Proofs.Strict

/-!
# Expressions are read as the grammar has them

`expression_iff_derives` is the grammar of expressions as a property of `Rule.expression`: what it
reads is derived, and what is derived is read, up to the same item and without a problem.

The grammar is the lenient one. In the strict grammar a ternary outside parentheses is never the left
operand of an operator (`Expr.Derives.binary_strict`); the rule reads it there
(`not_forall_derives_strict`).
-/

set_option autoImplicit false

namespace SchemaLang

open SchemaLang.Phrase

/-- **Exactness of expressions.** An expression that is read is read without a problem, and its
items derive it. Items that derive an expression are read as that expression, if the next item
neither is an operator nor continues a pipeline. -/
theorem expression_iff_derives (items : Items) (i : Nat) :
    (∀ e, (Rule.expression items i).value = some e →
      (Rule.expression items i).problems = [] ∧
        ∃ ts, Stretch items i ts (Rule.expression items i).next ∧
          Expr.Derives true true .ternary ts (e.map forget)) ∧
    (∀ ts e j, Expr.Derives true true .ternary ts e → Stretch items i ts j →
      leftPrecedence (kindAt items j) = .lowest →
        kindAt items j ∉ [.symbol .lParen, .symbol .pipe, .symbol .lBrace] →
          ∃ a, Rule.expression items i = ⟨some a, j, []⟩ ∧ a.map forget = e) := by
  constructor
  · intro e he
    have hy := Rule.yields_of_value_eq_some Rule.not_doubtful_expression he
    refine ⟨?_, Rule.at_of_yields_expression hy⟩
    rw [hy]
  · intro ts e j hd hs hlow hj
    simp only [List.mem_cons, List.not_mem_nil, or_false, not_or] at hj
    obtain ⟨h1, h2, h3⟩ := hj
    exact Rule.exists_yields_expression ⟨ts, hs, hd⟩
      ⟨Nat.le_of_eq (by rw [hlow]), h1, h2, h3⟩

/-- `a + b` is read, and derived. -/
theorem expression_iff_derives_sum :
    let items : Items := #[⟨.lowerWord, "a", none, true⟩, ⟨.symbol .plus, "+", none, false⟩,
      ⟨.lowerWord, "b", none, false⟩, ⟨.endOfText, "", none, false⟩]
    let sum : Expr Extent :=
      .binary .add (.property "a" (.single 0)) (.property "b" (.single 2)) ⟨0, 2⟩
    ((Rule.expression items 0).problems = [] ∧
      ∃ ts, Stretch items 0 ts (Rule.expression items 0).next ∧
        Expr.Derives true true .ternary ts (sum.map forget)) ∧
    ∃ a, Rule.expression items 0 = ⟨some a, 3, []⟩ ∧ a.map forget = sum.map forget := by
  intro items sum
  have left : Expr.Derives true true .sum [items[0]] (.property "a" ()) := .operand (.property rfl)
  have right : Expr.Derives true false .product [items[2]] (.property "b" ()) :=
    .operand (.property rfl)
  have whole : Expr.Derives true true .ternary ([items[0]] ++ items[1] :: [items[2]])
      (.binary .add (.property "a" ()) (.property "b" ()) ()) :=
    .binary (by decide) left rfl (show Precedence.sum < .product by decide) right
  exact ⟨(expression_iff_derives items 0).1 sum rfl,
    (expression_iff_derives items 0).2 _ _ 3 whole ⟨rfl, rfl, rfl, rfl⟩ rfl (by decide)⟩

namespace Expr.Derives

/-- In the strict grammar a ternary is weak or begins with a parenthesis. -/
theorem ternary_strict {level : Precedence} {ts : List Item} {c t e : Expr Unit}
    (h : Expr.Derives false false level ts (.ternary c t e ())) :
    level.rank ≤ Precedence.ternary.rank ∨ ∃ l us, ts = l :: us ∧ l.kind = .symbol .lParen := by
  generalize hx : Expr.ternary c t e () = x at h
  cases h with
  | operand ho => cases ho <;> cases hx
  | grouped hl he hr => exact .inr ⟨_, _, rfl, hl⟩
  | ternary hq hc hs hR ht hcolon he =>
    rcases hq with hq | hq
    · cases hq
    · exact .inl hq
  | _ => cases hx

/-- So is an operation with a ternary on its left. -/
theorem binary_strict {level : Precedence} {ts : List Item} {op : BinaryOp}
    {c t e r : Expr Unit}
    (h : Expr.Derives false false level ts (.binary op (.ternary c t e ()) r ())) :
    ∃ l us, ts = l :: us ∧ l.kind = .symbol .lParen := by
  generalize hx : Expr.binary op (.ternary c t e ()) r () = x at h
  cases h with
  | operand ho => cases ho <;> cases hx
  | grouped hl he hr => exact ⟨_, _, rfl, hl⟩
  | binary hp hleft ht hlt hright =>
    cases hx
    rcases hleft.ternary_strict with h | ⟨l, us, rfl, hl⟩
    · have := op.rank_precedence
      omega
    · exact ⟨l, _, rfl, hl⟩
  | _ => cases hx

end Expr.Derives

/-- `a ? {b} : {c} + d` is read as a sum, which no items without parentheses are in the strict
grammar. -/
theorem not_forall_derives_strict :
    ¬ ∀ (items : Items) (i : Nat) (e : Expr Extent), (Rule.expression items i).value = some e →
      ∃ ts, Stretch items i ts (Rule.expression items i).next ∧
        Expr.Derives false false .ternary ts (e.map forget) := by
  intro h
  obtain ⟨ts, hs, hd⟩ := h #[⟨.lowerWord, "a", none, true⟩, ⟨.symbol .question, "?", none, false⟩,
    ⟨.symbol .lBrace, "\x7b", none, false⟩, ⟨.lowerWord, "b", none, false⟩,
    ⟨.symbol .rBrace, "\x7d", none, false⟩, ⟨.symbol .colon, ":", none, false⟩,
    ⟨.symbol .lBrace, "\x7b", none, false⟩, ⟨.lowerWord, "c", none, false⟩,
    ⟨.symbol .rBrace, "\x7d", none, false⟩, ⟨.symbol .plus, "+", none, false⟩,
    ⟨.lowerWord, "d", none, false⟩, ⟨.endOfText, "", none, false⟩] 0 _ rfl
  obtain ⟨l, us, rfl, hl⟩ := hd.binary_strict
  have h0 := hs.1
  cases h0
  cases hl

end SchemaLang
