import Mathlib.Data.Nat.Digits.Defs
import SchemaLang.Proofs.Datatypes
import SchemaLang.Proofs.Located.Spelt
import SchemaLang.Proofs.Streams
import SchemaLang.Proofs.Written.Numbers
import SchemaLang.Report.Wording

/-!
# Whole numbers are exact or rejected

* `decimal ds`: the number that digits stand for, in any number and with zeros before it; `signedDecimal` is
  the one behind a minus or alone.
* `NumberAt items i sign ds k`: the items hold digits in item `k`, behind a sign in item `i` or alone there.
* `Reply.Exact`: a reply has one value and no problem if a number is in a range, else no value and one problem
  with a given code. `Rule.ExactStart` says so of a literal with operators around it.
* `Rule.Clean r items`: what `r` reads, it reads without problems.
* `Rule.BoundsAt`: two bounds as a rule for bounds reads them between brackets, or none without brackets.
  `Rule.BoundsExact` says besides when they are reported.

There is one conversion for each range. The sign is read by the rule for bounds or by the one for operands, and
both hand it to the conversion, so the least number of a range is read like the others.

Main statement: whole numbers have their value wherever the grammar takes one, or are rejected there, and
reversed bounds are reported and kept (`Rule.wholeNumbers_exact`).
-/

set_option autoImplicit false

namespace SchemaLang

/-! ## Digits -/

def decimal (ds : List Char) : Nat := Nat.ofDigits 10 (ds.reverse.map digitValue)

theorem natValue_eq_decimal (ds : List Char) : natValue ds = decimal ds := by
  induction ds using List.reverseRecOn with
  | nil => rfl
  | append_singleton ds c ih =>
    have hdecimal : decimal (ds ++ [c]) = digitValue c + 10 * decimal ds := by
      simp [decimal, Nat.ofDigits_cons]
    have hvalue : natValue (ds ++ [c]) = 10 * natValue ds + digitValue c := by
      simp [natValue, List.foldl_append]
    rw [hdecimal, hvalue, ih, Nat.add_comm]

/-- A number is read exactly if it is below the limit. -/
theorem readNat?_of_isDigits {ds : List Char} (h : IsDigits ds) (limit : Nat) :
    readNat? limit ds = if decimal ds < limit then some (decimal ds) else none := by
  rw [readNat?, natValue_eq_decimal]
  have hall : ds.all Char.isDigit = true := List.all_eq_true.2 h.2
  have hne : ds.isEmpty = false := by simpa using h.1
  by_cases hlt : decimal ds < limit
  · simp [hall, hne, hlt]
  · simp [hall, hne, hlt, Nat.le_of_not_lt hlt]

/-- The number that digits stand for behind a minus, or alone. -/
def signedDecimal (negative : Bool) (ds : List Char) : Int :=
  if negative then -(decimal ds : Int) else decimal ds

/-- The numbers of 64 bits, one of them for the sign. -/
def IsInt64 (z : Int) : Prop := -2 ^ 63 ≤ z ∧ z ≤ 2 ^ 63 - 1

instance (z : Int) : Decidable (IsInt64 z) := inferInstanceAs (Decidable (_ ∧ _))

theorem readInt?_of_isDigits {ds : List Char} (h : IsDigits ds) (negative : Bool) :
    readInt? negative ds =
      if IsInt64 (signedDecimal negative ds) then
        some (signedDecimal negative ds) else none := by
  cases negative with
  | false =>
    have hrange : decimal ds < signedLimit ↔ IsInt64 (decimal ds) := by
      unfold signedLimit IsInt64
      omega
    simp only [readInt?, signedDecimal, readNat?_of_isDigits h, Bool.false_eq_true, if_false, hrange]
    split <;> rfl
  | true =>
    have hrange : decimal ds < signedLimit + 1 ↔ IsInt64 (-decimal ds) := by
      unfold signedLimit IsInt64
      omega
    simp only [readInt?, signedDecimal, readNat?_of_isDigits h, if_true, hrange]
    split <;> rfl

/-! ## Numbers in items -/

/-- A minus is `some true` and a plus `some false`. -/
structure NumberAt (items : Items) (i : Nat) (sign : Option Bool) (ds : List Char) (k : Nat) : Prop where
  digits : IsDigits ds
  kind : kindAt items k = .integerLit
  text : (itemAt items k).text.toList = ds
  signed : ∀ negative, sign = some negative →
    kindAt items i = .symbol (if negative then .minus else .plus) ∧ k = i + 1
  unsigned : sign = none → k = i

namespace NumberAt

variable {items : Items} {i k : Nat} {sign : Option Bool} {ds : List Char}

/-- Alone the digits are in the first item; else that is the sign, and the digits are in the next. -/
theorem cases (h : NumberAt items i sign ds k) :
    (sign = none ∧ k = i) ∨ ∃ negative, sign = some negative ∧
      kindAt items i = .symbol (if negative then .minus else .plus) ∧ k = i + 1 := by
  cases sign with
  | none => exact .inl ⟨rfl, h.unsigned rfl⟩
  | some negative => exact .inr ⟨negative, rfl, h.signed negative rfl⟩

end NumberAt

/-! ## Replies -/

/-- The codes of the diagnostics on the problems, wherever these are placed. -/
def Reply.codes {α : Type} (r : Reply α) (f : Extent → Span) : List (Option String) :=
  r.problems.map fun p => (p.map f).diagnostic.code

structure Reply.Exact {α : Type} (r : Reply α) (f : Extent → Span) (inRange : Prop) (value : α)
    (code : String) : Prop where
  read : inRange → r.value = some value ∧ r.problems = []
  rejected : ¬ inRange → r.value = none ∧ r.codes f = [some code]

namespace Rule

variable {α β : Type} {items : Items} {i j k : Nat} {sign : Option Bool} {ds : List Char}
  {f : Extent → Span} {p : Problem Extent}

/-- What fails, fails in the same way with anything behind it. -/
theorem bind_of_none {r : Rule α} {g : α → Rule β} {ps : List (Problem Extent)}
    (h : r items i = ⟨none, j, ps⟩) : (r >>= g) items i = ⟨none, j, ps⟩ := by
  show andThen r g items i = _
  rw [andThen, h]

/-- The rule has no value, and one problem. -/
def Rejects (r : Rule α) (items : Items) (i : Nat) (p : Problem Extent) : Prop :=
  ∃ j, r items i = ⟨none, j, [p]⟩

theorem Rejects.bind {r : Rule α} (h : r.Rejects items i p) (g : α → Rule β) :
    (r >>= g).Rejects items i p := by
  obtain ⟨j, hj⟩ := h
  exact ⟨j, bind_of_none hj⟩

theorem Rejects.reply {r : Rule α} (h : r.Rejects items i p) {code : String}
    (hcode : (p.map f).diagnostic.code = some code) :
    (r items i).value = none ∧ (r items i).codes f = [some code] := by
  obtain ⟨j, hj⟩ := h
  rw [hj, Reply.codes]
  exact ⟨rfl, by simp [hcode]⟩

theorem Yields.reply {r : Rule α} {a : α} (h : r.Yields items i a j) :
    (r items i).value = some a ∧ (r items i).problems = [] := by
  rw [h]
  exact ⟨rfl, rfl⟩

/-! ## Conversions -/

theorem rejects_literalValue {read? : String → Option α} {cause : String → Cause Extent}
    (h : read? (itemAt items i).text = none) :
    (literalValue read? cause).Rejects items i ⟨cause (itemAt items i).text, .single i⟩ := by
  have hpeek : peek.Yields items i (itemAt items i) i := rfl
  refine ⟨i, ?_⟩
  rw [literalValue, hpeek.bind_eq, h]
  rfl

theorem yields_integerValue_of_range (h : NumberAt items i sign ds k) {negative : Bool}
    (hr : IsInt64 (signedDecimal negative ds)) :
    (integerValue negative).Yields items k (signedDecimal negative ds) (k + 1) := by
  rw [yields_integerValue, h.text, readInt?_of_isDigits h.digits, if_pos hr]
  exact ⟨rfl, rfl⟩

theorem rejects_integerValue (h : NumberAt items i sign ds k) {negative : Bool}
    (hr : ¬ IsInt64 (signedDecimal negative ds)) :
    (integerValue negative).Rejects items k
      ⟨.invalidInteger ((if negative then "-" else "") ++ (itemAt items k).text), .single k⟩ := by
  have hnone : readInt? negative (itemAt items k).text.toList = none := by
    rw [h.text, readInt?_of_isDigits h.digits, if_neg hr]
  rw [integerValue_eq]
  exact rejects_literalValue hnone

/-- With its sign known, a number is converted and that is all. -/
theorem exact_convertedBound (h : NumberAt items i sign ds k) (negative : Bool) :
    ((integerValue negative >>= fun v => pure (.value v) : Rule (Bound Int)) items k).Exact f
      (IsInt64 (signedDecimal negative ds)) (.value (signedDecimal negative ds)) "E211" := by
  refine ⟨fun hr => ?_, fun hr => ?_⟩
  · have hvalue := yields_integerValue_of_range h hr
    exact Yields.reply (yields_bind.2 ⟨_, _, hvalue, rfl⟩)
  · exact ((rejects_integerValue h hr).bind _).reply rfl

theorem exact_integerBound (h : NumberAt items i sign ds k) :
    (integerBound items i).Exact f
      (IsInt64 (signedDecimal (sign.getD false) ds))
      (.value (signedDecimal (sign.getD false) ds)) "E211" := by
  have hkind : peekKind.Yields items i (kindAt items i) i := rfl
  rcases h.cases with ⟨rfl, rfl⟩ | ⟨negative, rfl, hsign, rfl⟩
  · have hbound : integerBound items k = (integerValue false >>= fun v => pure (.value v)) items k := by
      rw [integerBound, hkind.bind_eq, h.kind]
      rfl
    rw [hbound]
    exact exact_convertedBound h _
  · have hbound : integerBound items i =
        (integerValue negative >>= fun v => pure (.value v)) items (i + 1) := by
      have hbehind : (if kindAt items (i + 1) = .integerLit then
          integerValue negative >>= fun v => pure (.value v)
          else rejectBehind (.unexpected (.token .integerLit)) : Rule (Bound Int)) items (i + 1) =
            (integerValue negative >>= fun v => pure (.value v)) items (i + 1) := by
        rw [if_pos h.kind]
      rw [integerBound, hkind.bind_eq, hsign]
      cases negative <;> exact hbehind
    rw [hbound]
    exact exact_convertedBound h _

theorem exact_lengthBound (h : NumberAt items i none ds i) :
    (lengthBound items i).Exact f (decimal ds ≤ 2 ^ 64 - 1) (.value (decimal ds)) "E211" := by
  have hkind : peekKind.Yields items i (kindAt items i) i := rfl
  have hbound : lengthBound items i = (lengthValue >>= fun v => pure (.value v)) items i := by
    rw [lengthBound, hkind.bind_eq, h.kind]
    rfl
  rw [hbound]
  have hrange : decimal ds < wordLimit ↔ decimal ds ≤ 2 ^ 64 - 1 := by
    unfold wordLimit
    omega
  have hread := readNat?_of_isDigits h.digits wordLimit
  simp only [hrange] at hread
  refine ⟨fun hr => ?_, fun hr => ?_⟩
  · have hvalue : lengthValue.Yields items i (decimal ds) (i + 1) := by
      rw [yields_lengthValue, h.text, hread, if_pos hr]
      exact ⟨rfl, rfl⟩
    exact Yields.reply (yields_bind.2 ⟨_, _, hvalue, rfl⟩)
  · have hvalue : lengthValue.Rejects items i ⟨.invalidInteger (itemAt items i).text, .single i⟩ := by
      rw [if_neg hr, ← h.text] at hread
      rw [lengthValue_eq]
      exact rejects_literalValue hread
    exact (hvalue.bind _).reply rfl

/-- A dimension is read up to the bracket behind it. -/
theorem exact_vector (h : NumberAt items (i + 1) none ds (i + 1))
    (hopen : kindAt items i = .symbol .lBracket) :
    (1 ≤ decimal ds ∧ decimal ds ≤ 2 ^ 64 - 1 → kindAt items (i + 2) = .symbol .rBracket →
      (vector items i).value = some (.vector (decimal ds)) ∧ (vector items i).problems = []) ∧
    (¬ (1 ≤ decimal ds ∧ decimal ds ≤ 2 ^ 64 - 1) →
      (vector items i).value = none ∧ (vector items i).codes f = [some "E216"]) := by
  have hread : (readNat? wordLimit (itemAt items (i + 1)).text.toList).filter (0 < ·) =
      if 1 ≤ decimal ds ∧ decimal ds ≤ 2 ^ 64 - 1 then some (decimal ds) else none := by
    have hrange : decimal ds < wordLimit ↔ decimal ds ≤ 2 ^ 64 - 1 := by
      unfold wordLimit
      omega
    rw [h.text, readNat?_of_isDigits h.digits]
    simp only [hrange]
    by_cases hle : decimal ds ≤ 2 ^ 64 - 1
    · by_cases hpos : 1 ≤ decimal ds
      · rw [if_pos hle, if_pos ⟨hpos, hle⟩, Option.filter_some,
          if_pos (show decide (0 < decimal ds) = true from decide_eq_true hpos)]
      · rw [if_pos hle, if_neg (by omega), Option.filter_some, if_neg (by simpa using hpos)]
    · rw [if_neg hle, if_neg (by omega), Option.filter_none]
  have hposition : position.Yields items i i i := rfl
  have hbracket : (expect (.symbol .lBracket)).Yields items i (itemAt items i) (i + 1) :=
    yields_expect.2 ⟨hopen, rfl, rfl⟩
  have hliteral : (expect .integerLit).Yields items (i + 1) (itemAt items (i + 1)) (i + 1 + 1) :=
    yields_expect.2 ⟨h.kind, rfl, rfl⟩
  rw [vector, hposition.bind_eq, hbracket.bind_eq, hliteral.bind_eq]
  simp only [hread]
  refine ⟨fun hr hclose => ?_, fun hr => ?_⟩
  · have hclosed : (close .rBracket i .vectorDimension).Yields items (i + 1 + 1) () (i + 1 + 1 + 1) :=
      yields_close.2 ⟨hclose, rfl⟩
    simp only [if_pos hr]
    rw [hclosed.bind_eq]
    exact ⟨rfl, rfl⟩
  · simp only [if_neg hr]
    exact ⟨rfl, rfl⟩

/-! ## Bounds -/

/-- The rule has no problems with what it reads. -/
def Clean (r : Rule α) (items : Items) : Prop :=
  ∀ i a, (r items i).value = some a → (r items i).problems = []

section

variable {r : Rule α} {g : α → Rule β}

theorem Clean.yields {a : α} (h : r.Clean items) (ha : (r items i).value = some a) :
    r.Yields items i a (r items i).next := by
  have hp := h i a ha
  unfold Yields
  rw [← ha, ← hp]

/-- What is read behind a rule without problems is all that is read. -/
theorem Clean.exists_yields {b : β} (h : r.Clean items) (hb : ((r >>= g) items i).value = some b) :
    ∃ a j, r.Yields items i a j ∧ (r >>= g) items i = g a items j := by
  rw [value_bind] at hb
  obtain ⟨a, ha, -⟩ := Option.bind_eq_some_iff.1 hb
  exact ⟨a, _, h.yields ha, (h.yields ha).bind_eq⟩

theorem Clean.bind (h : r.Clean items) (hg : ∀ a, (g a).Clean items) : (r >>= g).Clean items := by
  intro i b hb
  obtain ⟨a, j, -, heq⟩ := h.exists_yields hb
  rw [heq] at hb ⊢
  exact hg a j b hb

theorem clean_of_value_eq_none (h : ∀ i, (r items i).value = none) : r.Clean items := by
  intro i a ha
  rw [h] at ha
  cases ha

theorem clean_pure (a : α) : (pure a : Rule α).Clean items := fun _ _ _ => rfl

theorem clean_take : take.Clean items := fun _ _ _ => rfl

theorem clean_peekKind : peekKind.Clean items := fun _ _ _ => rfl

theorem Clean.ite {p : Prop} [Decidable p] {r s : Rule α} (hr : r.Clean items) (hs : s.Clean items) :
    (if p then r else s).Clean items := by
  split
  · exact hr
  · exact hs

theorem clean_reject (cause : Found → Cause Extent) : (reject cause : Rule α).Clean items :=
  clean_of_value_eq_none fun _ => rfl

theorem clean_rejectBehind (cause : Found → Cause Extent) : (rejectBehind cause : Rule α).Clean items :=
  clean_of_value_eq_none fun _ => rfl

end

theorem clean_expect (kind : TokenKind) : (expect kind).Clean items :=
  clean_peekKind.bind fun _ => clean_take.ite (clean_rejectBehind _)

theorem clean_close (closer : Symbol) (opened : Nat) (what : Enclosure) :
    (close closer opened what).Clean items :=
  clean_peekKind.bind fun _ => (clean_take.bind fun _ => clean_pure _).ite
    (clean_peekKind.bind fun _ => (clean_rejectBehind _).ite (clean_rejectBehind _))

theorem clean_literalValue {read? : String → Option α} {cause : String → Cause Extent} :
    (literalValue read? cause).Clean items := by
  intro i v hv
  have hpeek : peek.Yields items i (itemAt items i) i := rfl
  rw [literalValue, hpeek.bind_eq] at hv ⊢
  cases hread : read? (itemAt items i).text with
  | some w => rfl
  | none =>
    simp only [hread] at hv
    cases hv

theorem clean_integerValue (negative : Bool) : (integerValue negative).Clean items := by
  rw [integerValue_eq]
  exact clean_literalValue

theorem clean_lengthValue : lengthValue.Clean items := by
  rw [lengthValue_eq]
  exact clean_literalValue

theorem clean_integerBound : integerBound.Clean items :=
  clean_peekKind.bind fun _ => (clean_take.bind fun _ => clean_pure _).ite <|
    ((clean_integerValue _).bind fun _ => clean_pure _).ite <|
      (clean_take.bind fun _ => clean_peekKind.bind fun _ =>
        ((clean_integerValue _).bind fun _ => clean_pure _).ite (clean_rejectBehind _)).ite
          (clean_reject _)

theorem clean_lengthBound : lengthBound.Clean items :=
  clean_peekKind.bind fun _ => (clean_take.bind fun _ => clean_pure _).ite <|
    (clean_lengthValue.bind fun _ => clean_pure _).ite (clean_reject _)

/-- The bounds are as the rule reads them on either side of the comma; without brackets there are none. -/
def BoundsAt (bound : Rule (Bound α)) (items : Items) (i : Nat) (min max : Bound α) : Prop :=
  if kindAt items i = .symbol .lBracket then
    ∃ j k, bound.Yields items (i + 1) min j ∧ kindAt items j = .symbol .comma ∧
      bound.Yields items (j + 1) max k ∧ kindAt items k = .symbol .rBracket
  else min = .unbounded ∧ max = .unbounded

theorem boundsAt_of_value {bound : Rule (Bound α)} {less : α → α → Bool} {write : α → String}
    {min max : Bound α} (hbound : bound.Clean items)
    (h : (optionalBounds bound less write items i).value = some (min, max)) :
    BoundsAt bound items i min max ∧ (optionalBounds bound less write items i).codes f =
      if isReversed less min max then [some "E215"] else [] := by
  have hkind : peekKind.Yields items i (kindAt items i) i := rfl
  rw [optionalBounds, hkind.bind_eq] at h ⊢
  by_cases hopen : kindAt items i = .symbol .lBracket
  · rw [if_pos hopen] at h ⊢
    have hposition : position.Yields items i i i := rfl
    have htake : take.Yields items i (itemAt items i) (i + 1) := rfl
    rw [hposition.bind_eq, htake.bind_eq] at h ⊢
    obtain ⟨lo, j, hlo, heq⟩ := hbound.exists_yields h
    rw [heq] at h ⊢
    obtain ⟨comma, j', hcomma, heq⟩ := (clean_expect _).exists_yields h
    rw [heq] at h ⊢
    obtain ⟨hi, k, hhi, heq⟩ := hbound.exists_yields h
    rw [heq] at h ⊢
    obtain ⟨_, k', hclose, heq⟩ := (clean_close .rBracket i .bounds).exists_yields h
    rw [heq] at h ⊢
    obtain ⟨hcommaKind, -, rfl⟩ := yields_expect.1 hcomma
    have hcloseKind := (yields_close.1 hclose).1
    by_cases hreversed : isReversed less lo hi = true
    · rw [if_pos hreversed] at h ⊢
      cases h
      rw [if_pos hreversed, BoundsAt, if_pos hopen]
      exact ⟨⟨j, k, hlo, hcommaKind, hhi, hcloseKind⟩, rfl⟩
    · rw [if_neg hreversed] at h ⊢
      cases h
      rw [if_neg hreversed, BoundsAt, if_pos hopen]
      exact ⟨⟨j, k, hlo, hcommaKind, hhi, hcloseKind⟩, rfl⟩
  · rw [if_neg hopen] at h ⊢
    cases h
    rw [BoundsAt, if_neg hopen]
    exact ⟨⟨rfl, rfl⟩, rfl⟩

/-- Bounds as they are written, and a report exactly if the lower one is above the upper one. -/
structure BoundsExact [LT α] (bound : Rule (Bound α)) (items : Items) (i : Nat) (min max : Bound α)
    (codes : List (Option String)) : Prop where
  written : BoundsAt bound items i min max
  reversed : (∃ lo hi, min = .value lo ∧ max = .value hi ∧ hi < lo) → codes = [some "E215"]
  ordered : (∀ lo hi, min = .value lo → max = .value hi → ¬ hi < lo) → codes = []

theorem isReversed_iff [LT α] [DecidableLT α] {min max : Bound α} :
    isReversed (fun a b => decide (a < b)) min max = true ↔
      ∃ lo hi, min = .value lo ∧ max = .value hi ∧ hi < lo := by
  cases min <;> cases max <;> simp [isReversed]

theorem codes_bind_pure (r : Rule α) (build : α → β) :
    ((r >>= fun a => pure (build a)) items i).codes f = (r items i).codes f := by
  rw [Reply.codes, problems_bind]
  split
  · exact congrArg _ (List.append_nil _)
  · exact congrArg _ (List.append_nil _)

/-- What is built of bounds alone has the problems of the bounds. -/
theorem boundsExact_of_value [LT α] [DecidableLT α] {bound : Rule (Bound α)} {write : α → String}
    {build : Bound α × Bound α → β} {b : β} (hbound : bound.Clean items)
    (h : ((optionalBounds bound (fun a b => decide (a < b)) write >>= fun m => pure (build m))
      items i).value = some b) :
    ∃ min max, b = build (min, max) ∧ BoundsExact bound items i min max
      (((optionalBounds bound (fun a b => decide (a < b)) write >>= fun m => pure (build m))
        items i).codes f) := by
  rw [value_bind] at h
  obtain ⟨⟨min, max⟩, hvalue, hb⟩ := Option.bind_eq_some_iff.1 h
  cases hb
  obtain ⟨hwritten, hcodes⟩ := boundsAt_of_value (f := f) hbound hvalue
  rw [codes_bind_pure, hcodes]
  refine ⟨min, max, rfl, hwritten, fun hreversed => ?_, fun hordered => ?_⟩
  · rw [if_pos (isReversed_iff.2 hreversed)]
  · refine if_neg fun hreversed => ?_
    obtain ⟨lo, hi, hmin, hmax, hlt⟩ := isReversed_iff.1 hreversed
    exact hordered lo hi hmin hmax hlt

/-- Behind the element of a list stand bounds of its length. -/
theorem boundsExact_of_listType {element : Rule (DatatypeRef Extent)} {b : Builtin Extent}
    (h : (listType element items i).value = some b) :
    ∃ e min max codes, b = .list e min max ∧ (element items (i + 1)).value = some e ∧
      kindAt items (element items (i + 1)).next = .symbol .gt ∧
      BoundsExact lengthBound items ((element items (i + 1)).next + 1) min max codes ∧
      (listType element items i).codes f = (element items (i + 1)).codes f ++ codes := by
  have hposition : position.Yields items i i i := rfl
  rw [listType, hposition.bind_eq] at h ⊢
  obtain ⟨_, j, hopen, heq⟩ := (clean_expect (.symbol .lt)).exists_yields h
  obtain ⟨-, -, rfl⟩ := yields_expect.1 hopen
  rw [heq] at h ⊢
  rw [value_bind] at h
  obtain ⟨e, he, h⟩ := Option.bind_eq_some_iff.1 h
  rw [Reply.codes, problems_bind, he, List.map_append]
  dsimp only
  generalize element items (i + 1) = reply at h ⊢
  obtain ⟨_, k, hclose, heq⟩ := (clean_close .gt i .listElement).exists_yields h
  obtain ⟨hcloseKind, rfl⟩ := yields_close.1 hclose
  rw [heq] at h ⊢
  obtain ⟨min, max, rfl, hbounds⟩ := boundsExact_of_value (f := f) clean_lengthBound h
  exact ⟨e, min, max, _, rfl, rfl, hcloseKind, hbounds, rfl⟩

/-! ## Literals of expressions -/

end Rule

/-- What an expression starts with, below the operators behind it. -/
def Expr.first {σ : Type} : Expr σ → Expr σ
  | .binary _ l _ _ => l.first
  | .member e _ _ => e.first
  | .index e _ _ => e.first
  | .ternary c _ _ _ => c.first
  | .pipeline s _ _ _ _ _ => s.first
  | e => e

namespace Rule

variable {items : Items} {i j k : Nat} {sign : Option Bool} {ds : List Char} {f : Extent → Span}
  {expr : Within}

theorem ensures_first_operatorTail (left : Expr Extent) :
    (operatorTail expr left).Ensures items i fun e _ => e.first = left.first := by
  simp only [operatorTail, ensures_bind, ensures_position, ensures_take]
  split
  · simp only [ternary, ensures_bind, ensures_extentFrom, ensures_position, ensures_pure, Expr.first]
    exact ensures_of_forall fun _ _ => ensures_of_forall fun _ _ => ensures_of_forall fun _ _ =>
      trivial
  · simp only [member, ensures_bind, ensures_pure, Expr.first]
    exact ensures_of_forall fun _ _ => trivial
  · simp only [index, ensures_bind, ensures_position]
    refine ensures_of_forall fun _ _ => ?_
    simp [Expr.first]
  · simp only [pipeline, ensures_bind, ensures_position, ensures_pure, Expr.first]
    exact ensures_of_forall fun _ _ => ensures_of_forall fun _ _ => ensures_of_forall fun _ _ =>
      ensures_of_forall fun _ _ => trivial
  · split
    · refine ensures_bind.2 (ensures_of_forall fun _ _ => ?_)
      simp [Expr.first]
    · exact ensures_pure.2 rfl

/-- Operators go around what they follow, so an expression keeps its start. -/
theorem ensures_first_operators {limit : Precedence} {n : Nat} (left : Expr Extent) :
    (operators expr limit n left).Ensures items i fun e _ => e.first = left.first := by
  induction n generalizing i left with
  | zero => exact ensures_pure.2 rfl
  | succ n ih =>
    simp only [operators, ensures_bind, ensures_peekKind, ensures_ite, ensures_pure, implies_true,
      and_true]
    exact fun _ => (ensures_first_operatorTail left).imp fun e j he =>
      (ih e).imp fun e' j' he' => he'.trans he

/-- Without an operator behind it an expression is complete. -/
theorem yields_operators {limit : Precedence} {n : Nat} (left : Expr Extent)
    (h : leftPrecedence (kindAt items i) = .lowest) :
    (operators expr limit n left).Yields items i left i := by
  cases n with
  | zero => rfl
  | succ n =>
    have hlimit : ¬ limit < leftPrecedence (kindAt items i) := by
      rw [h]
      exact Nat.not_lt_zero _
    rw [operators, yields_peekKind_bind, if_neg hlimit]
    rfl

/-- A number without a sign is converted, and that is all. -/
theorem operand_of_unsigned (h : NumberAt items i none ds i) : operand expr items i =
    (integerValue false >>= fun v => pure (.literal (.integer v) (.single i))) items i := by
  have hposition : position.Yields items i i i := rfl
  have hpeek : peek.Yields items i (itemAt items i) i := rfl
  have hkind : (itemAt items i).kind = .integerLit := kind_itemAt.trans h.kind
  rw [operand, hposition.bind_eq, hpeek.bind_eq]
  simp only [hkind]

/-- A number behind a minus is converted with it, and then operators follow. -/
theorem operand_of_negative (h : NumberAt items i (some true) ds (i + 1)) : operand expr items i =
    ((integerValue true >>= fun v => pure (.literal (.integer v) ⟨i, i + 1⟩)) >>= fun left =>
      remaining >>= fun n => operators expr .unary n left) items (i + 1) := by
  have hposition : position.Yields items i i i := rfl
  have hpeek : peek.Yields items i (itemAt items i) i := rfl
  have htake : take.Yields items i (itemAt items i) (i + 1) := rfl
  have hnext : peekKind.Yields items (i + 1) .integerLit (i + 1) := by
    rw [← h.kind]
    rfl
  have hkind : (itemAt items i).kind = .symbol .minus := kind_itemAt.trans (h.signed true rfl).1
  have hbehind : (peekKind >>= fun kind =>
      if UnaryOp.negate = .negate ∧ kind = .integerLit then negativeInteger expr i
      else expr .unary >>= fun e => extentFrom i >>= fun place =>
        pure (.unary .negate e place)) items (i + 1) = negativeInteger expr i items (i + 1) := by
    rw [hnext.bind_eq, if_pos ⟨rfl, rfl⟩]
  have hsign : operand expr items i = negativeInteger expr i items (i + 1) := by
    rw [operand, hposition.bind_eq, hpeek.bind_eq]
    simp only [hkind]
    rw [unary, hposition.bind_eq, htake.bind_eq]
    exact hbehind
  rw [hsign, negativeInteger]
  by_cases hr : IsInt64 (signedDecimal true ds)
  · have hvalue := yields_integerValue_of_range h hr
    have hliteral : (integerValue true >>= fun v => pure (.literal (.integer v) ⟨i, i + 1⟩) :
        Rule (Expr Extent)).Yields items (i + 1) _ (i + 1 + 1) :=
      yields_bind.2 ⟨_, _, hvalue, rfl⟩
    rw [hvalue.bind_eq, hliteral.bind_eq]
    rfl
  · obtain ⟨j, hj⟩ := rejects_integerValue h hr
    rw [bind_of_none hj, bind_of_none (bind_of_none hj)]

/-- What is read around a literal if the number in it is in range: an expression that starts with it, or the
literal alone if it is complete. -/
structure ExactStart (reply : Reply (Expr Extent)) (f : Extent → Span) (inRange : Prop)
    (literal : Expr Extent) (next : Nat) (complete : Prop) (code : String) : Prop where
  starts : inRange → ∀ e, reply.value = some e → e.first = literal
  alone : inRange → complete → reply = ⟨some literal, next, []⟩
  rejected : ¬ inRange → reply.value = none ∧ reply.codes f = [some code]

section

variable {r : Rule (Expr Extent)} {inRange : Prop} {e : Expr Extent} {code : String}

/-- Operators behind a literal go around it. -/
theorem ExactStart.operators {limit : Precedence}
    (h : ExactStart (r items i) f inRange e j (leftPrecedence (kindAt items j) = .lowest) code) :
    ExactStart ((r >>= fun left => remaining >>= fun n => operators expr limit n left) items i) f inRange e
      j (leftPrecedence (kindAt items j) = .lowest) code where
  starts := fun hr e' he' => by
    rw [value_bind] at he'
    obtain ⟨left, hleft, hvalue⟩ := Option.bind_eq_some_iff.1 he'
    exact (ensures_first_operators left e' hvalue).trans (h.starts hr left hleft)
  alone := fun hr hcomplete => by
    have hyields : r.Yields items i e j := h.alone hr hcomplete
    rw [hyields.bind_eq]
    exact yields_operators e hcomplete
  rejected := fun hr => by
    obtain ⟨hvalue, hcodes⟩ := h.rejected hr
    rw [Reply.codes, value_bind, problems_bind, hvalue, List.append_nil]
    exact ⟨rfl, hcodes⟩

theorem exactStart_literal (h : NumberAt items i sign ds k) (negative : Bool) (place : Extent) :
    ExactStart ((integerValue negative >>= fun v => pure (.literal (.integer v) place)) items k) f
      (IsInt64 (signedDecimal negative ds))
      (.literal (.integer (signedDecimal negative ds)) place) (k + 1)
      (leftPrecedence (kindAt items (k + 1)) = .lowest) "E211" := by
  have hread (hr : IsInt64 (signedDecimal negative ds)) :=
    (yields_integerValue_of_range h hr).bind_eq
      (f := fun v => (pure (.literal (.integer v) place) : Rule (Expr Extent)))
  refine ⟨fun hr e he => ?_, fun hr _ => hread hr, fun hr => ?_⟩
  · rw [hread hr] at he
    cases he
    rfl
  · exact ((rejects_integerValue h hr).bind _).reply rfl

end

theorem exactStart_operand (h : NumberAt items i sign ds k) (hplus : sign ≠ some false) :
    ExactStart (operand expr items i) f
      (IsInt64 (signedDecimal (sign.getD false) ds))
      (.literal (.integer (signedDecimal (sign.getD false) ds)) ⟨i, k⟩) (k + 1)
      (leftPrecedence (kindAt items (k + 1)) = .lowest) "E211" := by
  rcases h.cases with ⟨rfl, rfl⟩ | ⟨negative, rfl, -, rfl⟩
  · rw [operand_of_unsigned h]
    exact exactStart_literal h false _
  · obtain rfl : negative = true := by simpa using hplus
    rw [operand_of_negative h]
    exact (exactStart_literal h true ⟨i, i + 1⟩).operators

theorem exactStart_expressionWithin (h : NumberAt items i sign ds k) (hplus : sign ≠ some false) (n : Nat)
    (limit : Precedence) :
    ExactStart (expressionWithin (n + 1) limit items i) f
      (IsInt64 (signedDecimal (sign.getD false) ds))
      (.literal (.integer (signedDecimal (sign.getD false) ds)) ⟨i, k⟩) (k + 1)
      (leftPrecedence (kindAt items (k + 1)) = .lowest) "E211" :=
  (exactStart_operand h hplus).operators

/-- **Whole numbers are exact or rejected.** Digits, however many, have their value where they stand as a
bound of integers behind a sign or alone, or in an expression alone or behind a minus, if the value is one of
64 bits; there expressions start with it, and it is the whole expression without an operator behind it. The
same goes for lengths without a sign, and for dimensions, which are not zero. All other numbers are rejected
with one diagnostic. Two bounds are kept as they are written, and they are reported exactly if both are there
and the lower one is above the upper one. -/
theorem wholeNumbers_exact (items : Items) (i : Nat) (f : Extent → Span) :
    (∀ sign ds k, NumberAt items i sign ds k →
      (integerBound items i).Exact f (IsInt64 (signedDecimal (sign.getD false) ds))
        (.value (signedDecimal (sign.getD false) ds)) "E211") ∧
    (∀ sign ds k, NumberAt items i sign ds k → sign ≠ some false → ∀ n limit,
      ExactStart (expressionWithin (n + 1) limit items i) f
        (IsInt64 (signedDecimal (sign.getD false) ds))
        (.literal (.integer (signedDecimal (sign.getD false) ds)) ⟨i, k⟩) (k + 1)
        (leftPrecedence (kindAt items (k + 1)) = .lowest) "E211") ∧
    (∀ ds, NumberAt items i none ds i →
      (lengthBound items i).Exact f (decimal ds ≤ 2 ^ 64 - 1) (.value (decimal ds)) "E211") ∧
    (∀ ds, kindAt items i = .symbol .lBracket → NumberAt items (i + 1) none ds (i + 1) →
      (1 ≤ decimal ds ∧ decimal ds ≤ 2 ^ 64 - 1 → kindAt items (i + 2) = .symbol .rBracket →
        (vector items i).value = some (.vector (decimal ds)) ∧ (vector items i).problems = []) ∧
      (¬ (1 ≤ decimal ds ∧ decimal ds ≤ 2 ^ 64 - 1) →
        (vector items i).value = none ∧ (vector items i).codes f = [some "E216"])) ∧
    ∀ element keyword b,
      ((builtinParameters element keyword .integer items i).value = some b →
        ∃ min max, b = .integer min max ∧ BoundsExact integerBound items i min max
          ((builtinParameters element keyword .integer items i).codes f)) ∧
      ((builtinParameters element keyword .string items i).value = some b →
        ∃ min max, b = .string min max ∧ BoundsExact lengthBound items i min max
          ((builtinParameters element keyword .string items i).codes f)) ∧
      ((builtinParameters element keyword .list items i).value = some b →
        ∃ e min max codes, b = .list e min max ∧ (element items (i + 1)).value = some e ∧
          kindAt items (element items (i + 1)).next = .symbol .gt ∧
          BoundsExact lengthBound items ((element items (i + 1)).next + 1) min max codes ∧
          (builtinParameters element keyword .list items i).codes f =
            (element items (i + 1)).codes f ++ codes) :=
  ⟨fun _ _ _ h => exact_integerBound h,
    fun _ _ _ h hplus n limit => exactStart_expressionWithin h hplus n limit,
    fun _ h => exact_lengthBound h,
    fun _ hopen h => exact_vector h hopen,
    fun _ _ _ => ⟨boundsExact_of_value clean_integerBound, boundsExact_of_value clean_lengthBound,
      boundsExact_of_listType⟩⟩

/-- The least number of 64 bits behind its minus, and without it. -/
theorem wholeNumbers_exact_least :
    let items := itemsOf (tokenize "[-9223372036854775808,9223372036854775808]").1
    let least := "9223372036854775808".toList
    let place : Extent → Span := fun _ => Span.zero
    NumberAt items 1 (some true) least 2 ∧ NumberAt items 4 none least 4 ∧
      (integerBound items 1).value = some (.value (-2 ^ 63)) ∧
      (integerBound items 4).value = none ∧ (integerBound items 4).codes place = [some "E211"] ∧
      expressionWithin 1 .lowest items 1 = ⟨some (.literal (.integer (-2 ^ 63)) ⟨1, 2⟩), 3, []⟩ ∧
      (expressionWithin 1 .lowest items 4).value = none ∧
      (lengthBound items 4).value = some (.value (2 ^ 63)) := by
  intro items least place
  have hdigits : IsDigits least := ⟨by decide, List.all_eq_true.1 (by decide)⟩
  have hleast : NumberAt items 1 (some true) least 2 :=
    ⟨hdigits, by decide +kernel, by decide +kernel, by decide +kernel, nofun⟩
  have hgreatest : NumberAt items 4 none least 4 :=
    ⟨hdigits, by decide +kernel, by decide +kernel, nofun, fun _ => rfl⟩
  have hvalue : decimal least = 2 ^ 63 := by decide +kernel
  have hnegative : IsInt64 (signedDecimal true least) := by decide +kernel
  have hpositive : ¬ IsInt64 (signedDecimal false least) := by decide +kernel
  have hbehind : leftPrecedence (kindAt items 3) = .lowest := by decide +kernel
  obtain ⟨hbound, hexpr, -, -, -⟩ := wholeNumbers_exact items 1 place
  obtain ⟨hbound', hexpr', hlength, -, -⟩ := wholeNumbers_exact items 4 place
  have hsigned : signedDecimal true least = -2 ^ 63 := by decide +kernel
  have hread := ((hbound _ _ _ hleast).read hnegative).1
  have halone := (hexpr _ _ _ hleast (by decide) 0 .lowest).alone hnegative hbehind
  have hrejected := (hbound' _ _ _ hgreatest).rejected hpositive
  have hnothing := ((hexpr' _ _ _ hgreatest (by decide) 0 .lowest).rejected hpositive).1
  have hword := ((hlength _ hgreatest).read (by decide +kernel)).1
  refine ⟨hleast, hgreatest, ?_, hrejected.1, hrejected.2, ?_, hnothing, ?_⟩
  · rw [hread]
    simp [hsigned]
  · rw [halone]
    simp [hsigned]
  · rw [hword, hvalue]

end Rule

end SchemaLang
