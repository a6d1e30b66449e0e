import SchemaLang.Proofs.Clean

/-!
# Reading with a problem

* `Rule.Doubtful r items i`: from item `i` on, `r` reads something and reports a problem.

No rule for expressions does that (`not_doubtful_expression`): where such a rule reports, it gives up.
So whatever is read as an expression is read without a problem (`yields_of_value_eq_some`).
-/

set_option autoImplicit false

namespace SchemaLang.Rule

variable {α β : Type} {items : Items} {i : Nat}

def Doubtful (r : Rule α) (items : Items) (i : Nat) : Prop :=
  (r items i).value ≠ none ∧ (r items i).problems ≠ []

theorem yields_of_value_eq_some {r : Rule α} {a : α} (hr : ¬ r.Doubtful items i)
    (ha : (r items i).value = some a) : r.Yields items i a (r items i).next := by
  have hp : (r items i).problems = [] := by
    apply Classical.byContradiction
    intro hp
    exact hr ⟨by simp [ha], hp⟩
  rw [Yields, ← ha, ← hp]

/-! ## Steps -/

/-- Without a doubtful start, doubt can only come later. -/
@[simp low] theorem doubtful_bind {r : Rule α} {f : α → Rule β} (hr : ¬ r.Doubtful items i) :
    (r >>= f).Doubtful items i ↔ ∃ a j, r.Yields items i a j ∧ (f a).Doubtful items j := by
  unfold Doubtful Yields at *
  rw [value_bind, problems_bind]
  rcases h : r items i with ⟨_ | a, j, ps⟩
  · simp
  · have hp : ps = [] := by simpa [h] using hr
    subst hp
    constructor
    · rintro ⟨hv, hq⟩
      exact ⟨a, j, rfl, hv, hq⟩
    · rintro ⟨_, _, hr, hv, hq⟩
      cases hr
      exact ⟨hv, hq⟩

@[simp] theorem doubtful_peek_bind {f : Item → Rule β} :
    (peek >>= f).Doubtful items i ↔ (f (itemAt items i)).Doubtful items i := Iff.rfl

@[simp] theorem doubtful_peekKind_bind {f : TokenKind → Rule β} :
    (peekKind >>= f).Doubtful items i ↔ (f (kindAt items i)).Doubtful items i := Iff.rfl

@[simp] theorem doubtful_ite {p : Prop} [Decidable p] {r s : Rule α} :
    (if p then r else s).Doubtful items i ↔
      (p ∧ r.Doubtful items i) ∨ (¬ p ∧ s.Doubtful items i) := by
  split <;> simp_all

section

variable {a : α} {first : Nat} {cause : Found → Cause Extent}

@[simp] theorem not_doubtful_pure : ¬ (pure a : Rule α).Doubtful items i := fun h => h.2 rfl

@[simp] theorem not_doubtful_peek : ¬ peek.Doubtful items i := fun h => h.2 rfl

@[simp] theorem not_doubtful_peekKind : ¬ peekKind.Doubtful items i := fun h => h.2 rfl

@[simp] theorem not_doubtful_position : ¬ position.Doubtful items i := fun h => h.2 rfl

@[simp] theorem not_doubtful_extentFrom : ¬ (extentFrom first).Doubtful items i := fun h => h.2 rfl

@[simp] theorem not_doubtful_take : ¬ take.Doubtful items i := fun h => h.2 rfl

@[simp] theorem not_doubtful_remaining : ¬ remaining.Doubtful items i := fun h => h.2 rfl

@[simp] theorem not_doubtful_report_giveUp {cause : Cause Extent} {place : Extent} :
    ¬ (report cause place >>= fun _ => (giveUp : Rule β)).Doubtful items i := by
  rintro ⟨hv, -⟩
  simp [value_bind, report, giveUp] at hv

@[simp] theorem not_doubtful_report_giveUpBehind {cause : Cause Extent} {place : Extent} :
    ¬ (report cause place >>= fun _ => (giveUpBehind : Rule β)).Doubtful items i := by
  rintro ⟨hv, -⟩
  simp [value_bind, report, giveUpBehind] at hv

@[simp] theorem not_doubtful_reject : ¬ (reject cause : Rule α).Doubtful items i := by
  rintro ⟨hv, -⟩
  simp [reject, value_bind, blame, giveUp] at hv

@[simp] theorem not_doubtful_rejectBehind : ¬ (rejectBehind cause : Rule α).Doubtful items i := by
  rintro ⟨hv, -⟩
  simp [rejectBehind, value_bind, blame, giveUpBehind] at hv

end

@[simp] theorem not_doubtful_expect {kind : TokenKind} : ¬ (expect kind).Doubtful items i := by
  simp [expect]

@[simp] theorem not_doubtful_expectName {allowed : TokenKind → Bool} {what : Expected} :
    ¬ (expectName allowed what).Doubtful items i := by
  simp [expectName, takeName]

@[simp] theorem not_doubtful_close {closer : Symbol} {opened : Nat} {what : Enclosure} :
    ¬ (close closer opened what).Doubtful items i := by
  simp [close]

/-! ## Shapes -/

@[simp] theorem not_doubtful_literalValue {read? : String → Option α} {cause : String → Cause Extent} :
    ¬ (literalValue read? cause).Doubtful items i := by
  rw [literalValue, doubtful_peek_bind]
  split <;> simp

@[simp] theorem not_doubtful_integerValue {negative : Bool} :
    ¬ (integerValue negative).Doubtful items i := by
  simp [integerValue_eq]

@[simp] theorem not_doubtful_floatValue {negative : Bool} :
    ¬ (floatValue negative).Doubtful items i := by
  simp [floatValue_eq]

theorem not_doubtful_further {ends : TokenKind → Prop} [DecidablePred ends] {entry : Rule α} {n : Nat}
    (he : ∀ i, ¬ entry.Doubtful items i) : ¬ (further ends entry n).Doubtful items i := by
  induction n generalizing i with
  | zero => simp [further]
  | succ n ih => simp [further, he, ih]

/-! ## Expressions -/

section

variable {expr : Within} (he : ∀ p i, ¬ (expr p).Doubtful items i)

include he

@[simp] theorem not_doubtful_elements {closer : Symbol} {opened : Nat} {what : Enclosure} :
    ¬ (elements expr closer opened what).Doubtful items i := by
  simp [elements, he, furtherElements_eq, not_doubtful_further (he .lowest)]

@[simp] theorem not_doubtful_branch : ¬ (branch expr).Doubtful items i := by
  simp [branch, he]

@[simp] theorem not_doubtful_pipeline {subject : Expr Extent} :
    ¬ (pipeline expr subject).Doubtful items i := by
  have further {n i : Nat} : ¬ (furtherParams n).Doubtful items i := by
    rw [furtherParams_eq]
    exact not_doubtful_further fun i => by simp [param]
  have args {i : Nat} : ¬ (optionalArguments expr).Doubtful items i := by
    simp [optionalArguments, he]
  have ps {i : Nat} : ¬ optionalParams.Doubtful items i := by
    simp [optionalParams, params, further]
  have body {i : Nat} : ¬ (optionalBranch expr).Doubtful items i := by
    simp [optionalBranch, he]
  simp [pipeline, args, ps, body]

@[simp] theorem not_doubtful_operatorTail {left : Expr Extent} :
    ¬ (operatorTail expr left).Doubtful items i := by
  simp [operatorTail]
  rintro opened _ -
  split
  · simp [ternary, he]
  · simp [member]
  · simp [index, he]
  · simp [he]
  · split <;> simp [he]

@[simp] theorem not_doubtful_operators {limit : Precedence} {n : Nat} {left : Expr Extent} :
    ¬ (operators expr limit n left).Doubtful items i := by
  induction n generalizing i left with
  | zero => simp [operators]
  | succ n ih => simp [operators, he, ih]

@[simp] theorem not_doubtful_operand : ¬ (operand expr).Doubtful items i := by
  simp [operand]
  rintro first _ -
  split <;> simp [literal, unary, negativeInteger, grouped, list, he]

end

theorem not_doubtful_expression : ¬ expression.Doubtful items i := by
  have within {n : Nat} {limit : Precedence} {i : Nat} :
      ¬ (expressionWithin n limit).Doubtful items i := by
    induction n generalizing i limit with
    | zero => simp [expressionWithin]
    | succ n ih => simp [expressionWithin, ih]
  simp [expression, within]

end SchemaLang.Rule
