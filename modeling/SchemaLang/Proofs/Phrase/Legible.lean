import SchemaLang.Proofs.Phrase.Unit
import SchemaLang.Proofs.Stretch

/-!
# What is in no phrase

* `Phrase.IsLegible R`: no item of a phrase of `R` is the end of the text or malformed.

Main statement: units have neither (`SchemaUnit.Derives.legible`), so what derives a unit stands before
the end.
-/

set_option autoImplicit false

namespace SchemaLang

/-- None of the items is the end of the text. -/
def NoEnd (ts : List Item) : Prop := ∀ t ∈ ts, t.kind ≠ .endOfText

/-- None of the items is the end of the text or malformed. -/
def Legible (ts : List Item) : Prop := ∀ t ∈ ts, t.kind ∉ [.endOfText, .invalid]

theorem Legible.noEnd {ts : List Item} (h : Legible ts) : NoEnd ts := fun t ht he =>
  h t ht (by simp [he])

/-- What allows neither the end of the text nor malformed text. -/
theorem not_mem_of_allowed {allowed : TokenKind → Bool} {k : TokenKind} (h : allowed k = true)
    (he : allowed .endOfText = false) (hi : allowed .invalid = false) :
    k ∉ [.endOfText, .invalid] := by
  intro hk
  simp only [List.mem_cons, List.not_mem_nil, or_false] at hk
  rcases hk with rfl | rfl
  · simp [he] at h
  · simp [hi] at h

@[simp] theorem legible_nil : Legible [] := nofun

@[simp] theorem legible_cons {t : Item} {ts : List Item} :
    Legible (t :: ts) ↔ t.kind ∉ [.endOfText, .invalid] ∧ Legible ts := List.forall_mem_cons

@[simp] theorem legible_append {ts us : List Item} : Legible (ts ++ us) ↔ Legible ts ∧ Legible us :=
  List.forall_mem_append

/-- There is one stretch from an item to the end of the text. -/
theorem Stretch.eq_of_noEnd {items : Items} {i j k : Nat} {ts us : List Item}
    (h : Stretch items i ts j) (hn : NoEnd ts) (hj : kindAt items j = .endOfText)
    (h' : Stretch items i us k) (hn' : NoEnd us) (hk : kindAt items k = .endOfText) : ts = us := by
  induction ts generalizing i us with
  | nil =>
    obtain rfl := h
    cases us with
    | nil => rfl
    | cons u us => exact absurd (kindAt_of_getElem? h'.1 ▸ hj) (hn' u (by simp))
  | cons t ts ih =>
    cases us with
    | nil =>
      obtain rfl := h'
      exact absurd (kindAt_of_getElem? h.1 ▸ hk) (hn t (by simp))
    | cons u us =>
      have htu : t = u := Option.some.inj (h.1.symm.trans h'.1)
      rw [htu, ih h.2 (List.forall_mem_cons.1 hn).2 h'.2 (List.forall_mem_cons.1 hn').2]

namespace Phrase

variable {α : Type} {R : Phrase α}

def IsLegible (R : Phrase α) : Prop := ∀ ts a, R ts a → Legible ts

/-! ## Ways of making phrases -/

namespace IsLegible

variable (hR : IsLegible R)

include hR

theorem elements : IsLegible (Elements R) := by
  intro ts as h
  induction h with
  | one hr => exact hR _ _ hr
  | ended hr hc => simp [hR _ _ hr, hc]
  | more hr hc _ ih => simp [hR _ _ hr, hc, ih]

theorem listing : IsLegible (Listing R) := by
  intro ts as h
  cases h with
  | empty => exact legible_nil
  | filled he => exact hR.elements _ _ he

theorem enclosed {opener closer : Symbol} : IsLegible (Enclosed opener closer R) := by
  intro ts a h
  cases h with
  | mk hl hr hc => simp [hl, hR _ _ hr, hc]

theorem optional : IsLegible (Optional R) := by
  intro ts a h
  cases h with
  | absent => exact legible_nil
  | present hr => exact hR _ _ hr

theorem many : IsLegible (Many R) := by
  intro ts as h
  induction h with
  | nil => exact legible_nil
  | cons hr _ ih => exact legible_append.2 ⟨hR _ _ hr, ih⟩

end IsLegible

/-! ## Datatypes -/

theorem isLegible_typeRef : IsLegible TypeRef.Derives := by
  intro ts r h
  cases h with
  | plain hn => simp [hn]
  | qualified hq hd hn =>
    rw [legible_cons]
    exact ⟨not_mem_of_allowed hq.isWord rfl rfl, by simp [hd, hn]⟩

theorem isLegible_stringLiteral : IsLegible StringLiteral := by
  rintro ts s ⟨ht⟩
  simp [ht]

theorem isLegible_signedBound {isNumber : TokenKind → Bool} {read : Bool → List Char → Option α}
    (he : isNumber .endOfText = false) (hi : isNumber .invalid = false) :
    IsLegible (SignedBound isNumber read) := by
  have number : ∀ t : Item, isNumber t.kind = true → Legible [t] := fun t ht =>
    legible_cons.2 ⟨not_mem_of_allowed ht he hi, legible_nil⟩
  intro ts b h
  cases h with
  | unbounded ht => simp [ht]
  | unsigned ht _ => exact number _ ht
  | plus hs ht _ => exact legible_cons.2 ⟨by simp [hs], number _ ht⟩
  | minus hs ht _ => exact legible_cons.2 ⟨by simp [hs], number _ ht⟩

theorem isLegible_lengthBound : IsLegible LengthBound := by
  intro ts b h
  cases h with
  | unbounded ht => simp [ht]
  | value ht _ => simp [ht]

theorem IsLegible.range {B : Phrase (Bound α)} {le : α → α → Prop} (hB : IsLegible B) :
    IsLegible (Range B le) := by
  intro ts b h
  cases h with
  | absent => exact legible_nil
  | present h =>
    refine IsLegible.enclosed ?_ _ _ h
    rintro ts b ⟨hmin, hc, hmax, -⟩
    simp [hB _ _ hmin, hc, hB _ _ hmax]

theorem isLegible_patternBody : IsLegible PatternBody := by
  have text : IsLegible PatternText := by
    rintro ts s (ht | ht) <;> simp [ht]
  intro ts b h
  cases h with
  | plain ht => exact text _ _ ht
  | flags ht hc hf => simp [text _ _ ht, hc, isLegible_stringLiteral _ _ hf]

theorem isLegible_parameters {E : Phrase (DatatypeRef Unit)} {kind : BuiltinKind} (hE : IsLegible E) :
    IsLegible (Parameters E kind) := by
  intro ts b h
  cases h with
  | integer h => exact (isLegible_signedBound rfl rfl).range _ _ h
  | float h => exact (isLegible_signedBound rfl rfl).range _ _ h
  | string h => exact isLegible_lengthBound.range _ _ h
  | boolean | date | uuid => exact legible_nil
  | enum h _ => exact isLegible_stringLiteral.elements.enclosed _ _ h
  | pattern h => exact isLegible_patternBody.enclosed _ _ h
  | timestamp h => exact isLegible_stringLiteral.enclosed.optional _ _ h
  | vector h =>
    refine IsLegible.enclosed ?_ _ _ h
    rintro ts n ⟨ht, -, -⟩
    simp [ht]
  | list he h => exact legible_append.2 ⟨hE.enclosed _ _ he, isLegible_lengthBound.range _ _ h⟩

theorem isLegible_datatypeRef : IsLegible DatatypeRef.Derives := by
  intro ts d h
  induction h with
  | builtin _ hk hp ih => simp [hk, isLegible_parameters ih _ _ hp]
  | named hr => exact isLegible_typeRef _ _ hr

/-! ## Expressions -/

theorem isLegible_paramNames : IsLegible Expr.ParamNames := by
  intro ts ps h
  induction h with
  | one ht => simp [ht]
  | more ht hc _ ih => simp [ht, hc, ih]

theorem isLegible_expr {lenient head : Bool} {level : Precedence} :
    IsLegible (Expr.Derives lenient head level) := by
  intro ts e h
  induction h with
  | operand ho =>
    cases ho with
    | nil h => rcases h with h | h <;> simp [h]
    | _ => simp [*]
  | negative hs ht _ => simp [hs, ht]
  | grouped hl _ hr ih => simp [hl, hr, ih]
  | list _ he ih => exact IsLegible.enclosed (IsLegible.listing ih) _ _ he
  | unary _ hs _ _ ih =>
    rw [legible_cons]
    exact ⟨by simp [hs], ih⟩
  | @binary _ _ _ _ _ _ op _ _ _ _ ht _ _ ihl ihr =>
    have : op.token ∉ [.endOfText, .invalid] := by cases op <;> decide
    rw [legible_append, legible_cons, ht]
    exact ⟨ihl, this, ihr⟩
  | ternary _ _ hq _ ht hc he ihc ih =>
    simp [ihc, hq, IsLegible.enclosed ih _ _ ht, hc, IsLegible.enclosed ih _ _ he]
  | member _ hd hn ih =>
    rw [legible_append, legible_cons, legible_cons]
    exact ⟨ih, by simp [hd], not_mem_of_allowed hn rfl rfl, legible_nil⟩
  | index _ _ he iho ih => exact legible_append.2 ⟨iho, IsLegible.enclosed (IsLegible.elements ih) _ _ he⟩
  | pipeline _ ha hf _ has hps hbs ihs ih =>
    rw [legible_append, legible_cons, legible_cons]
    refine ⟨ihs, by simp [ha], not_mem_of_allowed hf rfl rfl, ?_⟩
    simp [IsLegible.optional (IsLegible.enclosed (IsLegible.listing ih)) _ _ has,
      isLegible_paramNames.enclosed.optional _ _ hps,
      IsLegible.optional (IsLegible.enclosed ih) _ _ hbs]

/-! ## Members -/

theorem isLegible_property : IsLegible Property.Derives := by
  rintro ts p ⟨hn, hd, hm⟩
  have modifier : IsLegible PropertyModifier.Derives := by
    rintro ts m (_ | ht | ht) <;> simp [*]
  rw [legible_cons]
  exact ⟨not_mem_of_allowed hn rfl rfl,
    legible_append.2 ⟨isLegible_datatypeRef _ _ hd, modifier _ _ hm⟩⟩

theorem isLegible_multiplicity : IsLegible Multiplicity.Derives := by
  have cardinality : IsLegible Cardinality := by
    rintro ts b (_ | ⟨hc, ht⟩ | ⟨hc, ht⟩) <;> simp [*]
  intro ts m h
  cases h with
  | absent => exact legible_nil
  | present h =>
    refine IsLegible.enclosed ?_ _ _ h
    intro ts m h
    cases h with
    | optional ht hc | required ht hc => simp [ht, cardinality _ _ hc]
    | many ht => simp [ht]

theorem isLegible_reverseEdge : IsLegible ReverseEdge.Derives := by
  rintro ts r ⟨hs, hn, hm⟩
  rw [legible_cons, legible_cons]
  exact ⟨by simp [hs], not_mem_of_allowed hn rfl rfl, isLegible_multiplicity _ _ hm⟩

theorem isLegible_member {lenient : Bool} : IsLegible (Member.Derives lenient) := by
  intro ts m h
  cases h with
  | property h => exact isLegible_property _ _ h
  | association h =>
    obtain ⟨ha, hn, hm, ht, hr, hb⟩ := h
    have body : IsLegible RelationBody.Derives := by
      rintro ts b ⟨h⟩
      exact isLegible_property.many.enclosed _ _ h
    rw [legible_cons, legible_cons]
    refine ⟨by simp [ha], not_mem_of_allowed hn rfl rfl, ?_⟩
    simp [isLegible_multiplicity _ _ hm, isLegible_typeRef _ _ ht,
      isLegible_reverseEdge.optional _ _ hr, body.optional _ _ hb]
  | composition h =>
    obtain ⟨hc, hn, hm, ht, hr⟩ := h
    rw [legible_cons, legible_cons]
    refine ⟨by simp [hc], not_mem_of_allowed hn rfl rfl, ?_⟩
    simp [isLegible_multiplicity _ _ hm, isLegible_typeRef _ _ ht,
      isLegible_reverseEdge.optional _ _ hr]
  | invariant h =>
    obtain ⟨hb, hm, he⟩ := h
    simp [hb, hm, isLegible_expr _ _ he]

/-! ## Units -/

theorem isLegible_import : IsLegible Import.Derives := by
  intro ts d h
  cases h with
  | plain hk hp => simp [hk, hp]
  | aliased hk hp ha hn =>
    simp only [legible_cons]
    exact ⟨by simp [hk], by simp [hp], by simp [ha], not_mem_of_allowed hn.isWord rfl rfl,
      legible_nil⟩

theorem isLegible_declaration {lenient : Bool} : IsLegible (Declaration.Derives lenient) := by
  have modifier : IsLegible TypeModifier.Derives := by
    rintro ts m (ht | ⟨hm, ht⟩ | ⟨hm, ht⟩) <;> simp [*]
  have parents : IsLegible Parents := by
    rintro ts ps (_ | ⟨he, hps⟩)
    · exact legible_nil
    · simp [he, isLegible_typeRef.elements _ _ hps]
  intro ts d h
  cases h with
  | type h =>
    obtain ⟨hm, hn, hps, hb⟩ := h
    rw [legible_append]
    exact ⟨modifier _ _ hm, by
      simp [hn, parents _ _ hps, isLegible_member.many.enclosed _ _ hb]⟩
  | datatype h =>
    obtain ⟨hk, hn, ha, hk', hp⟩ := h
    simp [hk, hn, ha, hk', isLegible_parameters isLegible_datatypeRef _ _ hp]

end Phrase

theorem SchemaUnit.Derives.legible {lenient : Bool} {ts : List Item} {u : SchemaUnit Unit}
    (h : SchemaUnit.Derives lenient ts u) : Legible ts := by
  obtain ⟨hs, hn, hi, hd⟩ := h
  simp [hs, hn, Phrase.isLegible_import.many _ _ hi, Phrase.isLegible_declaration.many _ _ hd]

end SchemaLang
