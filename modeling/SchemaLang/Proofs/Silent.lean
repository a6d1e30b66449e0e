import SchemaLang.Proofs.Clean

/-!
# Giving up without a problem

* `Rule.Silent r items i`: from item `i` on, `r` gives up and reports nothing.

Where no text is malformed, no rule does that (`not_silent_entry`, `not_silent_typeMember` and the
lemmas before them). So a rule that reports nothing has read something (`yields_of_problems_eq_nil`).
-/

set_option autoImplicit false

namespace SchemaLang

/-- No item is malformed text. -/
def NoInvalid (items : Items) : Prop := ∀ i, kindAt items i ≠ .invalid

theorem noInvalid_toArray {ts : List Item} (h : ∀ t ∈ ts, t.kind ≠ .invalid) :
    NoInvalid ts.toArray := by
  intro i
  by_cases hi : i < ts.toArray.size
  · have hget : ts.toArray[i]? = some (ts.toArray[i]) := Array.getElem?_eq_getElem hi
    rw [kindAt_of_getElem? hget]
    exact h _ (by simp)
  · simp [kindAt_of_size_le (Nat.le_of_not_lt hi)]

namespace Rule

variable {α β : Type} {items : Items} {i : Nat}

def Silent (r : Rule α) (items : Items) (i : Nat) : Prop :=
  (r items i).value = none ∧ (r items i).problems = []

theorem yields_of_problems_eq_nil {r : Rule α} (hr : ¬ r.Silent items i)
    (hp : (r items i).problems = []) : ∃ a, r.Yields items i a (r items i).next := by
  cases ha : (r items i).value with
  | none => exact absurd ⟨ha, hp⟩ hr
  | some a => exact ⟨a, by rw [Yields, ← ha, ← hp]⟩

theorem Yields.not_silent {r : Rule α} {a : α} {j : Nat} (h : r.Yields items i a j) :
    ¬ r.Silent items i := by
  rintro ⟨hv, -⟩
  rw [h] at hv
  cases hv

/-! ## Steps -/

@[simp low] theorem silent_bind {r : Rule α} {f : α → Rule β} :
    (r >>= f).Silent items i ↔
      r.Silent items i ∨ ∃ a j, r.Yields items i a j ∧ (f a).Silent items j := by
  unfold Silent Yields
  rw [value_bind, problems_bind]
  rcases r items i with ⟨_ | a, j, ps⟩
  · simp
  · simp only [reduceCtorEq, false_and, false_or, Reply.mk.injEq, Option.some.injEq,
      List.append_eq_nil_iff]
    constructor
    · rintro ⟨hv, rfl, hp⟩
      exact ⟨a, j, ⟨rfl, rfl, rfl⟩, hv, hp⟩
    · rintro ⟨a', j', ⟨rfl, rfl, rfl⟩, hv, hp⟩
      exact ⟨hv, rfl, hp⟩

@[simp] theorem silent_peek_bind {f : Item → Rule β} :
    (peek >>= f).Silent items i ↔ (f (itemAt items i)).Silent items i := Iff.rfl

@[simp] theorem silent_peekKind_bind {f : TokenKind → Rule β} :
    (peekKind >>= f).Silent items i ↔ (f (kindAt items i)).Silent items i := Iff.rfl

@[simp] theorem silent_ite {p : Prop} [Decidable p] {r s : Rule α} :
    (if p then r else s).Silent items i ↔
      (p ∧ r.Silent items i) ∨ (¬ p ∧ s.Silent items i) := by
  split <;> simp_all

section

variable {a : α} {first : Nat}

@[simp] theorem not_silent_pure : ¬ (pure a : Rule α).Silent items i := by
  rintro ⟨hv, -⟩
  cases hv

@[simp] theorem not_silent_peek : ¬ peek.Silent items i := by
  rintro ⟨hv, -⟩
  cases hv

@[simp] theorem not_silent_peekKind : ¬ peekKind.Silent items i := by
  rintro ⟨hv, -⟩
  cases hv

@[simp] theorem not_silent_peekSecond : ¬ peekSecond.Silent items i := by
  rintro ⟨hv, -⟩
  cases hv

@[simp] theorem not_silent_position : ¬ position.Silent items i := by
  rintro ⟨hv, -⟩
  cases hv

@[simp] theorem not_silent_extentFrom : ¬ (extentFrom first).Silent items i := by
  rintro ⟨hv, -⟩
  cases hv

@[simp] theorem not_silent_take : ¬ take.Silent items i := by
  rintro ⟨hv, -⟩
  cases hv

@[simp] theorem not_silent_remaining : ¬ remaining.Silent items i := by
  rintro ⟨hv, -⟩
  cases hv

@[simp] theorem not_silent_nextDoc : ¬ nextDoc.Silent items i := by
  rintro ⟨hv, -⟩
  cases hv

end

@[simp] theorem not_silent_report_bind {cause : Cause Extent} {place : Extent} {f : Unit → Rule β} :
    ¬ (report cause place >>= f).Silent items i := by
  rintro ⟨-, hp⟩
  simp [problems_bind, report] at hp

section

variable {cause : Found → Cause Extent} (hi : NoInvalid items)

include hi

@[simp] theorem not_silent_blame_bind {f : Unit → Rule β} :
    ¬ (blame cause >>= f).Silent items i := by
  rintro ⟨-, hp⟩
  simp [problems_bind, blame, hi i] at hp

@[simp] theorem not_silent_reject : ¬ (reject cause : Rule α).Silent items i :=
  not_silent_blame_bind hi

@[simp] theorem not_silent_rejectBehind : ¬ (rejectBehind cause : Rule α).Silent items i :=
  not_silent_blame_bind hi

@[simp] theorem not_silent_expect {kind : TokenKind} : ¬ (expect kind).Silent items i := by
  simp [expect, hi]

@[simp] theorem not_silent_expectName {allowed : TokenKind → Bool} {what : Expected} :
    ¬ (expectName allowed what).Silent items i := by
  simp [expectName, takeName, hi]

@[simp] theorem not_silent_close {closer : Symbol} {opened : Nat} {what : Enclosure} :
    ¬ (close closer opened what).Silent items i := by
  simp [close, hi]

end

@[simp] theorem not_silent_takeName : ¬ takeName.Silent items i := by
  simp [takeName]

/-! ## Shapes -/

@[simp] theorem not_silent_literalValue {read? : String → Option α} {cause : String → Cause Extent} :
    ¬ (literalValue read? cause).Silent items i := by
  rw [literalValue, silent_peek_bind]
  split <;> simp

theorem not_silent_further {ends : TokenKind → Prop} [DecidablePred ends] {entry : Rule α} {n : Nat}
    (he : ∀ i, ¬ entry.Silent items i) : ¬ (further ends entry n).Silent items i := by
  induction n generalizing i with
  | zero => simp [further]
  | succ n ih => simp [further, he, ih]

/-! ## Datatypes -/

@[simp] theorem not_silent_integerValue {negative : Bool} :
    ¬ (integerValue negative).Silent items i := by
  simp [integerValue_eq]

@[simp] theorem not_silent_lengthValue : ¬ lengthValue.Silent items i := by
  simp [lengthValue_eq]

@[simp] theorem not_silent_floatValue {negative : Bool} :
    ¬ (floatValue negative).Silent items i := by
  simp [floatValue_eq]

section

variable (hi : NoInvalid items)

include hi

@[simp] theorem not_silent_typeRef : ¬ typeRef.Silent items i := by
  simp [typeRef, qualifier, hi]

@[simp] theorem not_silent_integerBound : ¬ integerBound.Silent items i := by
  simp [integerBound, hi]

@[simp] theorem not_silent_floatBound : ¬ floatBound.Silent items i := by
  simp [floatBound, hi]

@[simp] theorem not_silent_lengthBound : ¬ lengthBound.Silent items i := by
  simp [lengthBound, hi]

@[simp] theorem not_silent_optionalBounds {bound : Rule (Bound α)} {less : α → α → Bool}
    {write : α → String} (hb : ∀ i, ¬ bound.Silent items i) :
    ¬ (optionalBounds bound less write).Silent items i := by
  simp [optionalBounds, hi, hb]

@[simp] theorem not_silent_enumValues {opened n : Nat} :
    ¬ (enumValues opened n).Silent items i := by
  induction n generalizing i with
  | zero => simp [enumValues, hi]
  | succ n ih => simp [enumValues, hi, ih]

@[simp] theorem not_silent_enum {keyword : Nat} : ¬ (enum keyword).Silent items i := by
  simp [enum, hi]

@[simp] theorem not_silent_pattern : ¬ pattern.Silent items i := by
  simp [pattern, patternText, hi]

@[simp] theorem not_silent_timestamp : ¬ timestamp.Silent items i := by
  simp [timestamp, hi]

@[simp] theorem not_silent_vector : ¬ vector.Silent items i := by
  simp [vector, hi]
  intro opened k _ _ _
  split <;> simp [hi]

theorem not_silent_builtinOf {element : Rule (DatatypeRef Extent)} {kind : BuiltinKind}
    (he : ∀ i, ¬ element.Silent items i) : ¬ (builtinOf element kind).Silent items i := by
  cases kind <;> simp [builtinOf, builtinParameters, listType, hi, he]

theorem not_silent_datatypeRefWithin {n : Nat} : ¬ (datatypeRefWithin n).Silent items i := by
  induction n generalizing i with
  | zero => simp [datatypeRefWithin, hi]
  | succ n ih =>
    simp only [datatypeRefWithin, silent_peekKind_bind]
    split
    · simp [not_silent_builtinOf hi fun _ => ih]
    · simp [hi]
    · simp [hi]
    · simp [hi]

@[simp] theorem not_silent_datatypeRef : ¬ datatypeRef.Silent items i := by
  simp [datatypeRef, not_silent_datatypeRefWithin hi]

@[simp] theorem not_silent_builtin {kind : BuiltinKind} : ¬ (builtin kind).Silent items i :=
  not_silent_builtinOf hi fun _ => not_silent_datatypeRef hi

end

/-! ## Expressions -/

section

variable {expr : Within} (hi : NoInvalid items) (he : ∀ p i, ¬ (expr p).Silent items i)

include hi he

omit hi in
@[simp] theorem not_silent_furtherElements {closer : Symbol} {n : Nat} :
    ¬ (furtherElements expr closer n).Silent items i := by
  rw [furtherElements_eq]
  exact not_silent_further (he .lowest)

@[simp] theorem not_silent_elements {closer : Symbol} {opened : Nat} {what : Enclosure} :
    ¬ (elements expr closer opened what).Silent items i := by
  simp [elements, hi, he]

@[simp] theorem not_silent_branch : ¬ (branch expr).Silent items i := by
  simp [branch, hi, he]

@[simp] theorem not_silent_index {object : Expr Extent} {opened : Nat} :
    ¬ (index expr object opened).Silent items i := by
  simp [index, hi, he]

@[simp] theorem not_silent_pipeline {subject : Expr Extent} :
    ¬ (pipeline expr subject).Silent items i := by
  have further {n i : Nat} : ¬ (furtherParams n).Silent items i := by
    rw [furtherParams_eq]
    exact not_silent_further fun i => by simp [param, hi]
  simp [pipeline, optionalArguments, optionalParams, params, optionalBranch, hi, he, further]

@[simp] theorem not_silent_operatorTail {left : Expr Extent} :
    ¬ (operatorTail expr left).Silent items i := by
  simp [operatorTail]
  rintro opened _ -
  split
  · simp [ternary, hi, he]
  · simp [member, hi]
  · simp [hi, he]
  · simp [hi, he]
  · split <;> simp [he]

@[simp] theorem not_silent_operators {limit : Precedence} {n : Nat} {left : Expr Extent} :
    ¬ (operators expr limit n left).Silent items i := by
  induction n generalizing i left with
  | zero => simp [operators]
  | succ n ih => simp [operators, hi, he, ih]

@[simp] theorem not_silent_operand : ¬ (operand expr).Silent items i := by
  simp [operand]
  rintro first _ -
  split <;> simp [literal, unary, negativeInteger, grouped, list, hi, he]

end

theorem not_silent_expressionWithin {n : Nat} {limit : Precedence} (hi : NoInvalid items) :
    ¬ (expressionWithin n limit).Silent items i := by
  induction n generalizing i limit with
  | zero => simp [expressionWithin, hi]
  | succ n ih => simp [expressionWithin, hi, ih]

@[simp] theorem not_silent_expression (hi : NoInvalid items) : ¬ expression.Silent items i := by
  simp [expression, not_silent_expressionWithin hi]

/-! ## Members and entries -/

section

variable (hi : NoInvalid items)

include hi

@[simp] theorem not_silent_property : ¬ property.Silent items i := by
  have modifier {i : Nat} : ¬ propertyModifier.Silent items i := by
    simp only [propertyModifier, silent_peekKind_bind]
    split <;> simp
  simp [property, hi, modifier]

@[simp] theorem not_silent_multiplicity : ¬ multiplicity.Silent items i := by
  have count {i : Nat} : ¬ cardinality.Silent items i := by
    simp [cardinality]
    intro _
    split <;> simp [hi]
  have form {i : Nat} : ¬ multiplicityForm.Silent items i := by
    simp only [multiplicityForm, silent_peekKind_bind]
    split <;> simp [hi, count]
  simp [multiplicity, hi, form]

@[simp] theorem not_silent_reverseEdge : ¬ reverseEdge.Silent items i := by
  simp [reverseEdge, hi]

theorem not_silent_edgeProperty : ¬ edgeProperty.Silent items i := by
  simp [edgeProperty, hi]

omit hi in
/-- A body goes on whatever its entries do. -/
@[simp] theorem not_silent_block {entry : Rule α} {what : Enclosure} {opened n : Nat} :
    ¬ (block entry what opened n).Silent items i := by
  have value (n i : Nat) : (block entry what opened n items i).value ≠ none := by
    induction n generalizing i with
    | zero => simp [block]
    | succ n ih =>
      unfold block
      split
      · simp
      · split
        · simp
        · unfold thenRest
          split <;> simp [ih]
  rintro ⟨hv, -⟩
  exact value n i hv

omit hi in
@[simp] theorem not_silent_relationBody : ¬ relationBody.Silent items i := by
  simp [relationBody]

theorem not_silent_typeMember : ¬ typeMember.Silent items i := by
  simp only [typeMember, silent_peekKind_bind]
  split
  · simp [association, hi]
  · simp [composition, hi]
  · simp [invariant, hi]
  · simp [hi]

theorem not_silent_entry : ¬ entry.Silent items i := by
  have alias_ {i : Nat} : ¬ aliasName.Silent items i := by
    simp [aliasName, hi]
  have modifier {i : Nat} : ¬ typeModifier.Silent items i := by
    simp only [typeModifier, silent_peekKind_bind]
    split <;> simp [hi]
  have name {i : Nat} : ¬ declarationName.Silent items i := by
    simp only [declarationName, silent_peek_bind]
    split <;> simp [hi]
  have further {n i : Nat} : ¬ (furtherParents n).Silent items i := by
    rw [furtherParents_eq]
    exact not_silent_further fun i => not_silent_typeRef hi
  have parents {i : Nat} : ¬ parents.Silent items i := by
    simp [parents, hi, further]
  have datatype {i : Nat} : ¬ declaredDatatype.Silent items i := by
    simp only [declaredDatatype, silent_peekKind_bind]
    split <;> simp [hi]
  have declaration {i : Nat} : ¬ declaration.Silent items i := by
    simp [declaration, modifier, name]
    rintro start _ - modifier _ - name _ -
    split
    · split <;> simp [datatype]
    · simp [hi, parents, typeBody]
    · simp [hi, parents, typeBody]
    · simp [hi]
  simp only [entry, silent_peekKind_bind]
  split <;> simp [hi, importDecl, alias_, declaration]

end

end Rule

end SchemaLang
