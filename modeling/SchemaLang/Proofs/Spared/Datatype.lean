import SchemaLang.Proofs.Spared.Basic

/-!
# References and datatypes keep off malformed text

Two problems take in a stretch of items: reversed bounds are placed at the brackets around them, and too few
values of an enumeration from its keyword on. Both stretches have been read: a bound is valid where it has a
value, and so are the values of an enumeration (`ensures_valid_enumValues`).

Main statement: `spares_datatypeRef`.
-/

set_option autoImplicit false

namespace SchemaLang.Rule

variable {items : Items} {i : Nat}

/-! ## References -/

theorem spares_qualifier (h : kindAt items i ≠ .invalid) : qualifier.Spares items i := by
  simp [qualifier, h]

theorem spares_typeRef : typeRef.Spares items i := by
  have hqualifier (hk : ((kindAt items i).isWord || (kindAt items i).isKeyword) = true) :
      qualifier.Spares items i :=
    spares_qualifier (TokenKind.ne_of_allowed (p := fun k => k.isWord || k.isKeyword) hk rfl)
  have hrest : qualifier.Ensures items i fun _ j => (expectName isUpperWord .typeName).Ensures items j
      fun _ _ => True := by
    simp [qualifier]
  simp only [typeRef, spares_bind, spares_position, spares_peekKind, spares_peekSecond,
    ensures_position, ensures_peekKind, ensures_peekSecond, spares_ite, spares_reject, true_and]
  refine ⟨fun h => ⟨hqualifier h.2, ?_⟩, fun _ => by simp⟩
  exact hrest.imp fun _ _ _ => by simp

/-! ## Bounds -/

/-- Problems are clear, and what is read is valid. -/
structure ReadsValid {α : Type} (r : Rule α) (items : Items) (i : Nat) : Prop where
  spares : r.Spares items i
  valid : r.Ensures items i fun _ j => Valid items i j

theorem readsValid_literalValue {α : Type} {read? : String → Option α} {cause : String → Cause Extent}
    (h : kindAt items i ≠ .invalid) : ReadsValid (literalValue read? cause) items i :=
  ⟨reports_literalValue.2 fun _ => Extent.clear_single.2 h,
    ensures_literalValue.2 fun _ _ => valid_succ.2 h⟩

theorem readsValid_integerValue {negative : Bool} (h : kindAt items i ≠ .invalid) :
    ReadsValid (integerValue negative) items i := by
  rw [integerValue_eq]
  exact readsValid_literalValue h

theorem readsValid_floatValue {negative : Bool} (h : kindAt items i ≠ .invalid) :
    ReadsValid (floatValue negative) items i := by
  rw [floatValue_eq]
  exact readsValid_literalValue h

/-- A sign is valid, and so is the number behind it. -/
theorem ReadsValid.behind_sign {α : Type} {r : Rule α} (h : ReadsValid r items (i + 1))
    (hsign : isSign (kindAt items i) = true) :
    r.Ensures items (i + 1) fun _ j => Valid items i j :=
  h.valid.imp fun _ _ hv => (valid_succ.2 (TokenKind.ne_of_allowed hsign rfl)).trans hv

theorem readsValid_signedBound {α : Type} {isValue : TokenKind → Bool} {value : Bool → Rule α}
    {missing wanted : Expected} (hinvalid : isValue .invalid = false)
    (hv : ∀ negative j, kindAt items j ≠ .invalid → ReadsValid (value negative) items j) :
    ReadsValid (signedBound isValue value missing wanted) items i := by
  have h {negative : Bool} {j : Nat} (hk : isValue (kindAt items j) = true) :
      ReadsValid (value negative) items j := hv negative j (TokenKind.ne_of_allowed hk hinvalid)
  refine ⟨?_, ?_⟩
  · simp +contextual [signedBound, (h _).spares]
  · simp +contextual [signedBound, (h _).valid, (h _).behind_sign]

theorem readsValid_integerBound : ReadsValid integerBound items i := by
  rw [integerBound_eq]
  exact readsValid_signedBound rfl fun _ _ => readsValid_integerValue

theorem readsValid_floatBound : ReadsValid floatBound items i := by
  rw [floatBound_eq]
  exact readsValid_signedBound rfl fun _ _ => readsValid_floatValue

theorem readsValid_lengthBound : ReadsValid lengthBound items i := by
  have h (hk : kindAt items i = .integerLit) : ReadsValid lengthValue items i := by
    rw [lengthValue_eq]
    exact readsValid_literalValue (by simp [hk])
  refine ⟨?_, ?_⟩
  · simp +contextual [lengthBound, (h _).spares]
  · simp +contextual [lengthBound, (h _).valid]

theorem spares_optionalBounds {α : Type} {bound : Rule (Bound α)} {less : α → α → Bool}
    {write : α → String} (h : ∀ i, ReadsValid bound items i) :
    (optionalBounds bound less write).Spares items i := by
  simp only [optionalBounds, spares_bind, spares_peekKind, spares_ite, spares_position, spares_take,
    (h _).spares, spares_expect, spares_close, spares_extentFrom, spares_report, spares_pure, ensures_true,
    ensures_extentFrom, ensures_close, ensures_expect, ensures_take, ensures_position, ensures_peekKind,
    and_true, true_and, implies_true, Nat.add_one_sub_one]
  refine fun hopen => (h _).valid.imp fun min j hmin hcomma => (h _).valid.imp fun max k hmax hclose _ => ?_
  have hread : Valid items i (k + 1) :=
    ((((valid_succ.2 (by simp [hopen])).trans hmin).succ (by simp [hcomma])).trans hmax).succ
      (by simp [hclose])
  have := hmin.le
  have := hmax.le
  exact hread.clear (by omega)

/-! ## Parameters -/

theorem ensures_valid_enumValues {opened n : Nat} :
    (enumValues opened n).Ensures items i fun _ j => Valid items i j := by
  induction n generalizing i with
  | zero => simp [enumValues]
  | succ n ih =>
    simp +contextual only [enumValues, ensures_bind, ensures_ite, ensures_pure, ensures_take,
      ensures_close, ensures_peekKind, ensures_expect, valid_succ, ne_eq, reduceCtorEq,
      not_false_eq_true, implies_true, true_and]
    intro _ hvalue
    have hfirst : Valid items i (i + 1) := valid_succ.2 (by simp [hvalue])
    refine ⟨fun hcomma => (ih (i := i + 1 + 1)).imp fun _ j hrest => ?_, fun _ hclose => ?_⟩
    · exact (hfirst.succ (by simp [hcomma])).trans hrest
    · exact hfirst.succ (by simp [hclose])

theorem spares_enumValues {opened n : Nat} : (enumValues opened n).Spares items i := by
  induction n generalizing i with
  | zero => simp [enumValues]
  | succ n ih => simp [enumValues, ih]

theorem spares_enum {keyword : Nat} (h : Valid items keyword i) (hlt : keyword < i) :
    (enum keyword).Spares items i := by
  simp only [enum, spares_bind, spares_position, spares_expect, spares_remaining, spares_enumValues,
    spares_ite, spares_extentFrom, spares_report, spares_pure, ensures_true, ensures_extentFrom,
    ensures_remaining, ensures_expect, ensures_position, and_true, true_and, implies_true]
  refine fun hopen => ensures_valid_enumValues.imp fun values j hvalues _ => ?_
  exact ((h.succ (by simp [hopen])).trans hvalues).clear (by have := hvalues.le; omega)

theorem spares_pattern : pattern.Spares items i := by
  simp [pattern, patternText]

theorem spares_timestamp : timestamp.Spares items i := by
  simp [timestamp]

theorem spares_vector : vector.Spares items i := by
  simp only [vector, spares_bind, spares_position, spares_expect, ensures_expect, ensures_position,
    true_and]
  intro _ hdigits
  split
  · simp
  · simp [hdigits]

theorem spares_listType {element : Rule (DatatypeRef Extent)} (h : ∀ i, element.Spares items i) :
    (listType element).Spares items i := by
  simp [listType, h, spares_optionalBounds fun _ => readsValid_lengthBound]

theorem spares_builtinParameters {element : Rule (DatatypeRef Extent)}
    (h : ∀ i, element.Spares items i) {keyword : Nat} (hkeyword : Valid items keyword i)
    (hlt : keyword < i) {kind : BuiltinKind} :
    (builtinParameters element keyword kind).Spares items i := by
  cases kind with
  | integer => simp [builtinParameters, spares_optionalBounds fun _ => readsValid_integerBound]
  | float => simp [builtinParameters, spares_optionalBounds fun _ => readsValid_floatBound]
  | string => simp [builtinParameters, spares_optionalBounds fun _ => readsValid_lengthBound]
  | boolean | date | uuid => simp [builtinParameters]
  | enum => exact spares_enum hkeyword hlt
  | pattern => exact spares_pattern
  | timestamp => exact spares_timestamp
  | vector => exact spares_vector
  | list => exact spares_listType h

theorem spares_builtinOf {element : Rule (DatatypeRef Extent)} (h : ∀ i, element.Spares items i)
    {kind : BuiltinKind} (hk : kindAt items i ≠ .invalid) :
    (builtinOf element kind).Spares items i := by
  have hparameters : (builtinParameters element i kind).Spares items (i + 1) :=
    spares_builtinParameters h (valid_succ.2 hk) (Nat.lt_succ_self i)
  simp [builtinOf, hparameters]

theorem spares_datatypeRefWithin {n : Nat} : (datatypeRefWithin n).Spares items i := by
  induction n generalizing i with
  | zero => simp [datatypeRefWithin]
  | succ n ih =>
    simp only [datatypeRefWithin, spares_bind, spares_peekKind, ensures_peekKind, true_and]
    split
    · rename_i hk
      have hne : kindAt items i ≠ .invalid := by simp [hk]
      simp [spares_builtinOf (fun _ => ih) hne]
    · simp [spares_typeRef]
    · simp [spares_typeRef]
    · simp

theorem spares_datatypeRef : datatypeRef.Spares items i := by
  simp [datatypeRef, spares_datatypeRefWithin]

theorem spares_builtin {kind : BuiltinKind} (hk : kindAt items i ≠ .invalid) :
    (builtin kind).Spares items i :=
  spares_builtinOf (fun _ => spares_datatypeRef) hk

end SchemaLang.Rule
