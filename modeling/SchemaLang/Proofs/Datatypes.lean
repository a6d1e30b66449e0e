import SchemaLang.Proofs.Clean
import SchemaLang.Proofs.Phrase.At
import SchemaLang.Proofs.Phrase.Datatype

/-!
# Reading references and datatypes

What the rules for datatypes read without a problem is what the grammar derives, and the other way
round. A datatype without brackets is not followed by a bracket, and a name without an alias not by
a point: such an item would be read as a part of it.
-/

set_option autoImplicit false

namespace SchemaLang

namespace Phrase

variable {items : Items} {i j : Nat}

/-! ## Phrases for numbers -/

theorem at_signedBound {α : Type} {isNumber : TokenKind → Bool}
    {read : Bool → List Char → Option α} (hn : isNumber .endOfText = false) {b : Bound α} :
    At (SignedBound isNumber read) items i b j ↔
      (kindAt items i = .symbol .underscore ∧ b = .unbounded ∧ j = i + 1) ∨
      (isNumber (kindAt items i) = true ∧
        ∃ v, read false (itemAt items i).text.toList = some v ∧ b = .value v ∧ j = i + 1) ∨
      ∃ negative : Bool, kindAt items i = .symbol (if negative then .minus else .plus) ∧
        isNumber (kindAt items (i + 1)) = true ∧
        ∃ v, read negative (itemAt items (i + 1)).text.toList = some v ∧ b = .value v ∧
          j = i + 2 := by
  have number {i : Nat} (h : isNumber (kindAt items i) = true) :
      Stretch items i [itemAt items i] (i + 1) := by
    refine stretch_of_kindAt rfl fun he => ?_
    rw [he, hn] at h
    cases h
  constructor
  · rintro ⟨ts, hs, hb⟩
    cases hb with
    | unbounded ht =>
      obtain ⟨h0, rfl⟩ := hs
      exact .inl ⟨by rw [kindAt_of_getElem? h0, ht], rfl, rfl⟩
    | unsigned ht hv =>
      obtain ⟨h0, rfl⟩ := hs
      refine .inr (.inl ⟨by rwa [kindAt_of_getElem? h0], _, ?_, rfl, rfl⟩)
      rwa [itemAt_of_getElem? h0]
    | plus hp ht hv =>
      obtain ⟨h0, h1, rfl⟩ := hs
      refine .inr (.inr ⟨false, by rw [kindAt_of_getElem? h0, hp]; rfl,
        by rwa [kindAt_of_getElem? h1], _, ?_, rfl, rfl⟩)
      rwa [itemAt_of_getElem? h1]
    | minus hp ht hv =>
      obtain ⟨h0, h1, rfl⟩ := hs
      refine .inr (.inr ⟨true, by rw [kindAt_of_getElem? h0, hp]; rfl,
        by rwa [kindAt_of_getElem? h1], _, ?_, rfl, rfl⟩)
      rwa [itemAt_of_getElem? h1]
  · rintro (⟨hk, rfl, rfl⟩ | ⟨hk, v, hv, rfl, rfl⟩ | ⟨negative, hs, hk, v, hv, rfl, rfl⟩)
    · exact ⟨_, stretch_of_kindAt hk (by simp), .unbounded hk⟩
    · exact ⟨_, number hk, .unsigned hk hv⟩
    · cases negative with
      | false => exact ⟨_, .cons hs (by simp) (number hk), .plus hs hk hv⟩
      | true => exact ⟨_, .cons hs (by simp) (number hk), .minus hs hk hv⟩

theorem at_lengthBound {b : Bound Nat} :
    At LengthBound items i b j ↔
      (kindAt items i = .symbol .underscore ∧ b = .unbounded ∧ j = i + 1) ∨
      (kindAt items i = .integerLit ∧
        ∃ v, readNat? wordLimit (itemAt items i).text.toList = some v ∧ b = .value v ∧
          j = i + 1) := by
  constructor
  · rintro ⟨ts, hs, hb⟩
    cases hb with
    | unbounded ht =>
      obtain ⟨h0, rfl⟩ := hs
      exact .inl ⟨by rw [kindAt_of_getElem? h0, ht], rfl, rfl⟩
    | value ht hv =>
      obtain ⟨h0, rfl⟩ := hs
      refine .inr ⟨by rw [kindAt_of_getElem? h0, ht], _, ?_, rfl, rfl⟩
      rwa [itemAt_of_getElem? h0]
  · rintro (⟨hk, rfl, rfl⟩ | ⟨hk, v, hv, rfl, rfl⟩)
    · exact ⟨_, stretch_of_kindAt hk (by simp), .unbounded hk⟩
    · exact ⟨_, stretch_of_kindAt hk (by simp), .value hk hv⟩

theorem at_bounds {α : Type} {B : Phrase (Bound α)} {le : α → α → Prop} {min max : Bound α} :
    At (Bounds B le) items i (min, max) j ↔
      ∃ k, At B items i min k ∧ kindAt items k = .symbol .comma ∧ At B items (k + 1) max j ∧
        ∀ lo hi, min = .value lo → max = .value hi → le lo hi := by
  constructor
  · rintro ⟨_, hs, @⟨c, ts, us, _, _, hl, hc, hr, hle⟩⟩
    obtain ⟨k, hts, h1, hus⟩ := stretch_append.1 hs
    exact ⟨k, ⟨ts, hts, hl⟩, by rw [kindAt_of_getElem? h1, hc], ⟨us, hus, hr⟩, hle⟩
  · rintro ⟨k, ⟨ts, hts, hl⟩, hc, ⟨us, hus, hr⟩, hle⟩
    exact ⟨_, hts.append (.cons hc (by simp) hus), .mk hl hc hr hle⟩

theorem at_range {α : Type} {B : Phrase (Bound α)} {le : α → α → Prop} {b : Bound α × Bound α} :
    At (Range B le) items i b j ↔
      (b = (.unbounded, .unbounded) ∧ j = i) ∨
        At (Enclosed .lBracket .rBracket (Bounds B le)) items i b j := by
  constructor
  · rintro ⟨ts, hs, hb⟩
    cases hb with
    | absent => exact .inl ⟨rfl, hs⟩
    | present he => exact .inr ⟨ts, hs, he⟩
  · rintro (⟨rfl, rfl⟩ | ⟨ts, hs, he⟩)
    · exact ⟨[], rfl, .absent⟩
    · exact ⟨ts, hs, .present he⟩

end Phrase

namespace Rule

open SchemaLang.Phrase

variable {items : Items} {i j : Nat}

/-! ## Numbers -/

@[simp] theorem yields_integerValue {negative : Bool} {v : Int} :
    (integerValue negative).Yields items i v j ↔
      readInt? negative (itemAt items i).text.toList = some v ∧ j = i + 1 := by
  rw [integerValue_eq, yields_literalValue]

@[simp] theorem yields_lengthValue {v : Nat} :
    lengthValue.Yields items i v j ↔
      readNat? wordLimit (itemAt items i).text.toList = some v ∧ j = i + 1 := by
  rw [lengthValue_eq, yields_literalValue]

@[simp] theorem yields_floatValue {negative : Bool} {v : Binary64} :
    (floatValue negative).Yields items i v j ↔
      (Decimal.read? negative (itemAt items i).text.toList).bind Binary64.ofDecimal? = some v ∧
        j = i + 1 := by
  rw [floatValue_eq, yields_literalValue]

theorem isSign_iff {k : TokenKind} :
    isSign k = true ↔ ∃ negative : Bool, k = .symbol (if negative then .minus else .plus) := by
  simp [isSign, or_comm]

theorem yields_signedBound {α : Type} {isValue : TokenKind → Bool} {value : Bool → Rule α}
    {read : Bool → List Char → Option α} {missing wanted : Expected} {b : Bound α}
    (hend : isValue .endOfText = false) (hsymbol : ∀ s, isValue (.symbol s) = false)
    (hv : ∀ {negative i v j}, (value negative).Yields items i v j ↔
      read negative (itemAt items i).text.toList = some v ∧ j = i + 1) :
    (signedBound isValue value missing wanted).Yields items i b j ↔
      At (SignedBound isValue read) items i b j := by
  rw [at_signedBound hend]
  simp [signedBound, isSign_iff, hv]
  by_cases hm : kindAt items i = .symbol .minus
  · simp only [hm, beq_self_eq_true]
    grind
  · have hb : (kindAt items i == .symbol .minus) = false := by simpa using hm
    simp only [hm, hb]
    grind

theorem yields_integerBound {b : Bound Int} :
    integerBound.Yields items i b j ↔ At IntegerBound items i b j := by
  rw [integerBound_eq]
  exact yields_signedBound rfl (fun _ => rfl) yields_integerValue

theorem yields_floatBound {b : Bound Binary64} :
    floatBound.Yields items i b j ↔ At FloatBound items i b j := by
  rw [floatBound_eq]
  exact yields_signedBound rfl (fun _ => rfl) yields_floatValue

theorem yields_lengthBound {b : Bound Nat} :
    lengthBound.Yields items i b j ↔ At LengthBound items i b j := by
  rw [at_lengthBound]
  simp [lengthBound]
  grind

theorem isReversed_eq_false_iff {α : Type} {less : α → α → Bool} {le : α → α → Prop}
    (hle : ∀ a b, le a b ↔ less b a = false) {min max : Bound α} :
    isReversed less min max = false ↔ ∀ lo hi, min = .value lo → max = .value hi → le lo hi := by
  cases min <;> cases max <;> simp [isReversed, hle]

theorem yields_optionalBounds {α : Type} {bound : Rule (Bound α)} {less : α → α → Bool}
    {write : α → String} {B : Phrase (Bound α)} {le : α → α → Prop} {b : Bound α × Bound α}
    (hb : ∀ {i b j}, bound.Yields items i b j ↔ At B items i b j)
    (hle : ∀ a b, le a b ↔ less b a = false) :
    (optionalBounds bound less write).Yields items i b j ↔
      At (Range B le) items i b j ∧ (j = i → kindAt items i ≠ .symbol .lBracket) := by
  obtain ⟨min, max⟩ := b
  simp only [at_range, at_enclosed, at_bounds, ← isReversed_eq_false_iff hle]
  simp [optionalBounds, hb, and_assoc]
  constructor
  · rintro (⟨h0, k, hmin, hc, m, hmax, hr, hle, rfl⟩ | ⟨h0, rfl, rfl, rfl⟩)
    · have h1 := hmin.le
      have h2 := hmax.le
      exact ⟨.inr ⟨h0, m, ⟨k, hmin, hc, hmax, hle⟩, hr, rfl⟩, by omega⟩
    · exact ⟨.inl ⟨rfl, rfl, rfl⟩, fun _ => h0⟩
  · rintro ⟨⟨rfl, rfl, rfl⟩ | ⟨h0, m, ⟨k, hmin, hc, hmax, hle⟩, hr, rfl⟩, hn⟩
    · exact .inr ⟨hn rfl, rfl, rfl, rfl⟩
    · exact .inl ⟨h0, k, hmin, hc, m, hmax, hr, hle, rfl⟩

/-! ## Parameters -/

theorem at_stringLiteral {s : String} :
    At StringLiteral items i s j ↔
      kindAt items i = .stringLit ∧ s = stringValue (itemAt items i).text ∧ j = i + 1 := by
  refine at_single (P := fun t => t.kind = .stringLit) (f := fun t => stringValue t.text) ?_ ?_
  · intro t h
    simp [h]
  · intro ts a
    constructor
    · rintro ⟨h⟩
      exact ⟨_, rfl, h, rfl⟩
    · rintro ⟨t, rfl, h, rfl⟩
      exact .mk h

theorem yields_enumValues {opened n : Nat} {values : List String} (hn : items.size ≤ n + i) :
    (enumValues opened n).Yields items i values j ↔
      ∃ k, At (Listing StringLiteral) items i values k ∧ kindAt items k = .symbol .rBracket ∧
        j = k + 1 := by
  induction n generalizing i values with
  | zero =>
    have hk : kindAt items i = .endOfText := kindAt_of_size_le (by omega)
    simp only [enumValues, yields_rejectBehind, false_iff]
    rintro ⟨k, hl, hr, -⟩
    rw [at_listing, at_elements] at hl
    grind [at_stringLiteral]
  | succ n ih =>
    simp [enumValues, and_assoc, @ih (i + 2) _ (by omega)]
    constructor
    · rintro (⟨hr, rfl, rfl⟩ | ⟨-, hs, ⟨hc, rest, ⟨k, hl, hr, rfl⟩, rfl⟩ | ⟨-, hr, rfl, rfl⟩⟩)
      · exact ⟨i, at_listing.2 (.inl ⟨rfl, rfl⟩), hr, rfl⟩
      · have he := at_elements.2 ⟨_, _, at_stringLiteral.2 ⟨hs, rfl, rfl⟩,
          .inr ⟨hc, rest, hl, rfl⟩⟩
        exact ⟨k, at_listing.2 (.inr he), hr, rfl⟩
      · have he := at_elements.2 ⟨_, _, at_stringLiteral.2 ⟨hs, rfl, rfl⟩, .inl ⟨rfl, rfl⟩⟩
        exact ⟨i + 1, at_listing.2 (.inr he), hr, rfl⟩
    · rintro ⟨k, hl, hr, rfl⟩
      rcases at_listing.1 hl with ⟨rfl, rfl⟩ | he
      · exact .inl ⟨hr, rfl, rfl⟩
      · obtain ⟨s, m, hs, htail⟩ := at_elements.1 he
        obtain ⟨h0, rfl, rfl⟩ := at_stringLiteral.1 hs
        refine .inr ⟨by simp [h0], h0, ?_⟩
        rcases htail with ⟨rfl, rfl⟩ | ⟨hc, rest, hrest, rfl⟩
        · exact .inr ⟨by simp [hr], hr, rfl, rfl⟩
        · exact .inl ⟨hc, rest, ⟨k, hrest, hr, rfl⟩, rfl⟩

theorem yields_enum {keyword : Nat} {b : Builtin Extent} :
    (enum keyword).Yields items i b j ↔ ∃ values,
      At (Enclosed .lBracket .rBracket (Elements StringLiteral)) items i values j ∧
        2 ≤ values.length ∧ b = .enum values := by
  simp only [at_enclosed]
  simp [enum, and_assoc, yields_enumValues (show items.size ≤ items.size - (i + 1) + (i + 1) by omega)]
  intro h0
  constructor
  · rintro ⟨values, ⟨k, hl, hr, rfl⟩, hlen, rfl⟩
    rcases at_listing.1 hl with ⟨rfl, -⟩ | he
    · simp at hlen
    · exact ⟨values, ⟨k, he, hr, rfl⟩, hlen, rfl⟩
  · rintro ⟨values, ⟨k, he, hr, rfl⟩, hlen, rfl⟩
    exact ⟨values, ⟨k, at_listing.2 (.inr he), hr, rfl⟩, hlen, rfl⟩

theorem yields_patternText {regex : String} :
    patternText.Yields items i regex j ↔ At PatternText items i regex j := by
  simp [patternText]
  constructor
  · rintro (⟨h0, rfl, rfl⟩ | ⟨-, h0, rfl, rfl⟩)
    · exact ⟨_, stretch_of_kindAt h0 (by simp), .string h0⟩
    · exact ⟨_, stretch_of_kindAt h0 (by simp), .regex h0⟩
  · rintro ⟨ts, hs, hp⟩
    cases hp with
    | string h =>
      obtain ⟨h0, rfl⟩ := hs
      simp [kindAt_of_getElem? h0, itemAt_of_getElem? h0, h]
    | regex h =>
      obtain ⟨h0, rfl⟩ := hs
      simp [kindAt_of_getElem? h0, itemAt_of_getElem? h0, h]

theorem at_patternBody {regex : String} {flags : Option String} :
    At PatternBody items i (regex, flags) j ↔
      ∃ k, At PatternText items i regex k ∧
        ((flags = none ∧ j = k) ∨
          kindAt items k = .symbol .comma ∧
            ∃ f, At StringLiteral items (k + 1) f j ∧ flags = some f) := by
  constructor
  · rintro ⟨_, hs, hp⟩
    cases hp with
    | plain ht => exact ⟨j, ⟨_, hs, ht⟩, .inl ⟨rfl, rfl⟩⟩
    | @flags c ts us _ f ht hc hf =>
      obtain ⟨k, hts, h1, hus⟩ := stretch_append.1 hs
      exact ⟨k, ⟨ts, hts, ht⟩, .inr ⟨by rw [kindAt_of_getElem? h1, hc], f, ⟨us, hus, hf⟩, rfl⟩⟩
  · rintro ⟨k, ⟨ts, hts, ht⟩, ⟨rfl, rfl⟩ | ⟨hc, f, ⟨us, hus, hf⟩, rfl⟩⟩
    · exact ⟨ts, hts, .plain ht⟩
    · exact ⟨_, hts.append (.cons hc (by simp) hus), .flags ht hc hf⟩

theorem yields_pattern {b : Builtin Extent} :
    pattern.Yields items i b j ↔ ∃ regex flags,
      At (Enclosed .lBracket .rBracket PatternBody) items i (regex, flags) j ∧
        b = .pattern regex flags := by
  simp only [at_enclosed, at_patternBody, at_stringLiteral]
  simp [pattern, and_assoc, yields_patternText]
  intro _
  constructor
  · rintro ⟨regex, k, ht, ⟨hc, hf, hr, rfl, rfl⟩ | ⟨-, hr, rfl, rfl⟩⟩
    · exact ⟨regex, _, ⟨k + 2, ⟨k, ht, .inr ⟨hc, hf, rfl, rfl⟩⟩, hr, rfl⟩, rfl⟩
    · exact ⟨regex, none, ⟨k, ⟨k, ht, .inl ⟨rfl, rfl⟩⟩, hr, rfl⟩, rfl⟩
  · rintro ⟨regex, _, ⟨_, ⟨k, ht, ⟨rfl, rfl⟩ | ⟨hc, hf, rfl, rfl⟩⟩, hr, rfl⟩, rfl⟩
    · exact ⟨regex, _, ht, .inr ⟨by simp [hr], hr, rfl, rfl⟩⟩
    · exact ⟨regex, k, ht, .inl ⟨hc, hf, hr, rfl, rfl⟩⟩

theorem yields_timestamp {b : Builtin Extent} :
    timestamp.Yields items i b j ↔ ∃ format,
      At (Optional (Enclosed .lBracket .rBracket StringLiteral)) items i format j ∧
        b = .timestamp format ∧ (j = i → kindAt items i ≠ .symbol .lBracket) := by
  simp only [at_optional, at_enclosed, at_stringLiteral]
  simp [timestamp, and_assoc]
  constructor
  · rintro (⟨h0, h1, h2, rfl, rfl⟩ | ⟨h0, rfl, rfl⟩)
    · exact ⟨_, .inr ⟨h0, h1, h2, rfl, rfl⟩, rfl, by omega⟩
    · exact ⟨none, .inl ⟨rfl, rfl⟩, rfl, fun _ => h0⟩
  · rintro ⟨_, ⟨rfl, rfl⟩ | ⟨h0, h1, h2, rfl, rfl⟩, rfl, hn⟩
    · exact .inr ⟨hn rfl, rfl, rfl⟩
    · exact .inl ⟨h0, h1, h2, rfl, rfl⟩

theorem at_dimension {n : Nat} :
    At Dimension items i n j ↔
      kindAt items i = .integerLit ∧
        readNat? wordLimit (itemAt items i).text.toList = some n ∧ 0 < n ∧ j = i + 1 := by
  constructor
  · rintro ⟨_, hs, ⟨hk, hn, hp⟩⟩
    obtain ⟨h0, rfl⟩ := hs
    rw [kindAt_of_getElem? h0, itemAt_of_getElem? h0]
    exact ⟨hk, hn, hp, rfl⟩
  · rintro ⟨hk, hn, hp, rfl⟩
    exact ⟨_, stretch_of_kindAt hk (by simp), .mk hk hn hp⟩

theorem yields_vector {b : Builtin Extent} :
    vector.Yields items i b j ↔ ∃ n,
      At (Enclosed .lBracket .rBracket Dimension) items i n j ∧ b = .vector n := by
  simp only [at_enclosed, at_dimension]
  simp [vector, and_assoc]
  intro _ _
  split
  · rename_i n hn
    obtain ⟨hn, hp⟩ := Option.filter_eq_some_iff.1 hn
    simp [hn, of_decide_eq_true hp, and_assoc, and_comm, and_left_comm]
  · rename_i hn
    simp
    intro n hv hp
    simp [hv] at hn
    omega

theorem yields_integerRange {b : Bound Int × Bound Int} :
    (optionalBounds integerBound (fun a b => decide (a < b)) toString).Yields items i b j ↔
      At (Range IntegerBound (· ≤ ·)) items i b j ∧
        (j = i → kindAt items i ≠ .symbol .lBracket) :=
  yields_optionalBounds yields_integerBound (by simp)

theorem yields_floatRange {b : Bound Binary64 × Bound Binary64} :
    (optionalBounds floatBound Binary64.lt floatText).Yields items i b j ↔
      At (Range FloatBound fun lo hi => hi.lt lo = false) items i b j ∧
        (j = i → kindAt items i ≠ .symbol .lBracket) :=
  yields_optionalBounds yields_floatBound (by simp)

theorem yields_lengthRange {b : Bound Nat × Bound Nat} :
    (optionalBounds lengthBound (fun a b => decide (a < b)) toString).Yields items i b j ↔
      At LengthRange items i b j ∧ (j = i → kindAt items i ≠ .symbol .lBracket) :=
  yields_optionalBounds yields_lengthBound (by simp)

variable {element : Rule (DatatypeRef Extent)} {E : Phrase (DatatypeRef Unit)} {keyword : Nat}
  {kind : BuiltinKind}

theorem at_of_yields_builtinParameters {b : Builtin Extent}
    (hE : ∀ {i d j}, element.Yields items i d j → At E items i (d.map forget) j)
    (h : (builtinParameters element keyword kind).Yields items i b j) :
    At (Parameters E kind) items i (b.map forget) j := by
  cases kind with
  | integer =>
    simp [builtinParameters, yields_integerRange] at h
    obtain ⟨min, max, ⟨⟨ts, hs, hr⟩, -⟩, rfl⟩ := h
    exact ⟨ts, hs, .integer hr⟩
  | float =>
    simp [builtinParameters, yields_floatRange] at h
    obtain ⟨min, max, ⟨⟨ts, hs, hr⟩, -⟩, rfl⟩ := h
    exact ⟨ts, hs, .float hr⟩
  | string =>
    simp [builtinParameters, yields_lengthRange] at h
    obtain ⟨min, max, ⟨⟨ts, hs, hr⟩, -⟩, rfl⟩ := h
    exact ⟨ts, hs, .string hr⟩
  | boolean =>
    simp [builtinParameters] at h
    obtain ⟨rfl, rfl⟩ := h
    exact ⟨[], rfl, .boolean⟩
  | date =>
    simp [builtinParameters] at h
    obtain ⟨rfl, rfl⟩ := h
    exact ⟨[], rfl, .date⟩
  | uuid =>
    simp [builtinParameters] at h
    obtain ⟨rfl, rfl⟩ := h
    exact ⟨[], rfl, .uuid⟩
  | enum =>
    obtain ⟨values, ⟨ts, hs, he⟩, hlen, rfl⟩ := yields_enum.1 h
    exact ⟨ts, hs, .enum he hlen⟩
  | pattern =>
    obtain ⟨regex, flags, ⟨ts, hs, hp⟩, rfl⟩ := yields_pattern.1 h
    exact ⟨ts, hs, .pattern hp⟩
  | timestamp =>
    obtain ⟨format, ⟨ts, hs, hf⟩, rfl, -⟩ := yields_timestamp.1 h
    exact ⟨ts, hs, .timestamp hf⟩
  | vector =>
    obtain ⟨n, ⟨ts, hs, hn⟩, rfl⟩ := yields_vector.1 h
    exact ⟨ts, hs, .vector hn⟩
  | list =>
    simp [builtinParameters, listType, yields_lengthRange, and_assoc] at h
    obtain ⟨h0, e, k, he, hk, min, max, ⟨us, hus, hr⟩, -, rfl⟩ := h
    obtain ⟨ts, hts, hl⟩ := at_enclosed.2 ⟨h0, k, hE he, hk, rfl⟩
    exact ⟨ts ++ us, hts.append hus, .list hl hr⟩

theorem exists_yields_builtinParameters (keyword : Nat) {b : Builtin Unit}
    (hE : ∀ {k d m}, i < k → kindAt items m = .symbol .gt → At E items k d m →
      ∃ e, element.Yields items k e m ∧ e.map forget = d)
    (h : At (Parameters E kind) items i b j) (hj : kindAt items j ≠ .symbol .lBracket) :
    ∃ c, (builtinParameters element keyword kind).Yields items i c j ∧ c.map forget = b := by
  obtain ⟨ts, hs, hp⟩ := h
  cases hp with
  | integer hr =>
    refine ⟨.integer _ _, ?_, rfl⟩
    simp [builtinParameters, yields_integerRange]
    exact ⟨⟨ts, hs, hr⟩, fun he => he ▸ hj⟩
  | float hr =>
    refine ⟨.float _ _, ?_, rfl⟩
    simp [builtinParameters, yields_floatRange]
    exact ⟨⟨ts, hs, hr⟩, fun he => he ▸ hj⟩
  | string hr =>
    refine ⟨.string _ _, ?_, rfl⟩
    simp [builtinParameters, yields_lengthRange]
    exact ⟨⟨ts, hs, hr⟩, fun he => he ▸ hj⟩
  | boolean => exact ⟨.boolean, by simpa [builtinParameters] using hs, rfl⟩
  | date => exact ⟨.date, by simpa [builtinParameters] using hs, rfl⟩
  | uuid => exact ⟨.uuid, by simpa [builtinParameters] using hs, rfl⟩
  | enum he hlen => exact ⟨.enum _, yields_enum.2 ⟨_, ⟨ts, hs, he⟩, hlen, rfl⟩, rfl⟩
  | pattern hp => exact ⟨.pattern _ _, yields_pattern.2 ⟨_, _, ⟨ts, hs, hp⟩, rfl⟩, rfl⟩
  | timestamp hf =>
    exact ⟨.timestamp _, yields_timestamp.2 ⟨_, ⟨ts, hs, hf⟩, rfl, fun he => he ▸ hj⟩, rfl⟩
  | vector hn => exact ⟨.vector _, yields_vector.2 ⟨_, ⟨ts, hs, hn⟩, rfl⟩, rfl⟩
  | @list ts us d min max hl hr =>
    obtain ⟨m, hts, hus⟩ := stretch_append.1 hs
    obtain ⟨h0, k, hd, hk, rfl⟩ := at_enclosed.1 ⟨ts, hts, hl⟩
    obtain ⟨e, he, rfl⟩ := hE (Nat.lt_succ_self i) hk hd
    refine ⟨.list e min max, ?_, rfl⟩
    simp [builtinParameters, listType, yields_lengthRange, and_assoc]
    exact ⟨h0, k, he, hk, ⟨us, hus, hr⟩, fun he => he ▸ hj⟩

/-! ## References -/

/-- The keywords among the items are spelled like keywords. -/
def KeywordsReserved (items : Items) : Prop :=
  ∀ i, (kindAt items i).isKeyword = true → isReserved (itemAt items i).text = true

theorem toBool_checkAlias {s : String} :
    (checkAlias s).toBool = true ↔ checkAlias s = .ok () := by
  cases checkAlias s <;> simp [Except.toBool]

theorem hasAliasShape_of_checkAlias {s : String} (h : checkAlias s = .ok ()) :
    hasAliasShape s.toList = true := by
  unfold checkAlias at h
  split at h
  · cases h
  · rename_i hshape
    simpa using hshape

theorem isReserved_eq_false_of_checkAlias {s : String} (h : checkAlias s = .ok ()) :
    isReserved s = false := by
  unfold checkAlias at h
  split at h
  · cases h
  · split at h
    · cases h
    · rename_i hr
      simpa using hr

theorem KeywordsReserved.isAlias (hw : KeywordsReserved items)
    (hk : (kindAt items i).isWord = true ∨ (kindAt items i).isKeyword = true)
    (hc : checkAlias (itemAt items i).text = .ok ()) : (itemAt items i).IsAlias := by
  rcases hk with hk | hk
  · exact ⟨hk, hc⟩
  · have := hw i hk
    simp [isReserved_eq_false_of_checkAlias hc] at this

theorem at_typeRef {r : TypeRef Unit} :
    At TypeRef.Derives items i r j ↔
      (kindAt items i = .upperWord ∧ r = ⟨none, ⟨(itemAt items i).text, ()⟩, ()⟩ ∧ j = i + 1) ∨
      ((itemAt items i).IsAlias ∧ kindAt items (i + 1) = .symbol .dot ∧
        kindAt items (i + 2) = .upperWord ∧
        r = ⟨some ⟨(itemAt items i).text, ()⟩, ⟨(itemAt items (i + 2)).text, ()⟩, ()⟩ ∧
        j = i + 3) := by
  constructor
  · rintro ⟨_, hs, hr⟩
    cases hr with
    | plain hn =>
      obtain ⟨h0, rfl⟩ := hs
      exact .inl ⟨by rw [kindAt_of_getElem? h0, hn], by rw [itemAt_of_getElem? h0], rfl⟩
    | qualified hq hd hn =>
      obtain ⟨h0, h1, h2, rfl⟩ := hs
      refine .inr ⟨by rwa [itemAt_of_getElem? h0], by rw [kindAt_of_getElem? h1, hd],
        by rw [kindAt_of_getElem? h2, hn], ?_, rfl⟩
      rw [itemAt_of_getElem? h0, itemAt_of_getElem? h2]
  · rintro (⟨hn, rfl, rfl⟩ | ⟨hq, hd, hn, rfl, rfl⟩)
    · exact ⟨_, stretch_of_kindAt hn (by simp), .plain hn⟩
    · have h0 : kindAt items i ≠ .endOfText := by
        intro he
        have := hq.isWord
        simp [he, TokenKind.isWord] at this
      exact ⟨_, .cons rfl h0 (.cons hd (by simp) (stretch_of_kindAt hn (by simp))),
        .qualified hq hd hn⟩

theorem at_of_yields_typeRef {r : TypeRef Extent} (hw : KeywordsReserved items)
    (h : typeRef.Yields items i r j) : At TypeRef.Derives items i (r.map forget) j := by
  simp [typeRef, qualifier, isUpperWord, and_assoc, toBool_checkAlias] at h
  rw [at_typeRef]
  rcases h with ⟨hd, hk, hc, hn, rfl, rfl⟩ | ⟨-, hn, rfl, rfl⟩
  · exact .inr ⟨hw.isAlias hk hc, hd, hn, rfl, rfl⟩
  · exact .inl ⟨hn, rfl, rfl⟩

theorem exists_yields_typeRef {r : TypeRef Unit} (h : At TypeRef.Derives items i r j)
    (hj : kindAt items j ≠ .symbol .dot) :
    ∃ s, typeRef.Yields items i s j ∧ s.map forget = r := by
  simp [typeRef, qualifier, isUpperWord, and_assoc, toBool_checkAlias]
  rcases at_typeRef.1 h with ⟨hn, rfl, rfl⟩ | ⟨hq, hd, hn, rfl, rfl⟩
  · exact ⟨_, .inr ⟨by simp [hj], hn, rfl, rfl⟩, rfl⟩
  · exact ⟨_, .inl ⟨hd, .inl hq.isWord, hq.check, hn, rfl, rfl⟩, rfl⟩

theorem at_of_yields_builtinOf {b : PlacedBuiltin Extent}
    (hE : ∀ {i d j}, element.Yields items i d j → At E items i (d.map forget) j)
    (h : (builtinOf element kind).Yields items i b j) :
    At (Parameters E kind) items (i + 1) (b.type.map forget) j := by
  simp [builtinOf] at h
  obtain ⟨type, h, rfl⟩ := h
  exact at_of_yields_builtinParameters hE h

theorem exists_yields_builtinOf {b : Builtin Unit}
    (hE : ∀ {k d m}, i < k → kindAt items m = .symbol .gt → At E items k d m →
      ∃ e, element.Yields items k e m ∧ e.map forget = d)
    (h : At (Parameters E kind) items (i + 1) b j) (hj : kindAt items j ≠ .symbol .lBracket) :
    ∃ c, (builtinOf element kind).Yields items i c j ∧ c.type.map forget = b := by
  obtain ⟨c, hc, rfl⟩ := exists_yields_builtinParameters i
    (fun hk => hE (Nat.lt_of_succ_lt hk)) h hj
  refine ⟨⟨c, ⟨i, j - 1⟩⟩, ?_, rfl⟩
  simp [builtinOf]
  exact hc

theorem at_of_yields_datatypeRefWithin {n : Nat} {d : DatatypeRef Extent}
    (hw : KeywordsReserved items) (h : (datatypeRefWithin n).Yields items i d j) :
    At DatatypeRef.Derives items i (d.map forget) j := by
  induction n generalizing i d j with
  | zero => simp [datatypeRefWithin] at h
  | succ n ih =>
    have named {r : TypeRef Extent} {i j : Nat} (hr : typeRef.Yields items i r j) :
        At DatatypeRef.Derives items i (.named (r.map forget)) j := by
      obtain ⟨ts, hs, hd⟩ := at_of_yields_typeRef hw hr
      exact ⟨ts, hs, .named hd⟩
    simp only [datatypeRefWithin, yields_peekKind_bind] at h
    split at h
    · rename_i kind hk
      simp at h
      obtain ⟨b, hb, rfl⟩ := h
      obtain ⟨ts, hs, hp⟩ := at_of_yields_builtinOf ih hb
      exact ⟨_, .cons hk (by simp) hs, .builtin (fun _ _ h => h) hk hp⟩
    · simp at h
      obtain ⟨r, hr, rfl⟩ := h
      exact named hr
    · simp at h
      obtain ⟨-, r, hr, rfl⟩ := h
      exact named hr
    · simp at h

/-- Every list has a smaller one as its element, so the depth of reading suffices. -/
theorem exists_yields_datatypeRefWithin {n : Nat} {d : DatatypeRef Unit}
    (hn : items.size ≤ n + i) (h : At DatatypeRef.Derives items i d j)
    (hb : kindAt items j ≠ .symbol .lBracket) (hd : kindAt items j ≠ .symbol .dot) :
    ∃ c, (datatypeRefWithin n).Yields items i c j ∧ c.map forget = d := by
  obtain ⟨ts, hs, hr⟩ := h
  induction hr generalizing n i j with
  | @builtin k kind ts b R hR hk hp ih =>
    obtain ⟨h0, hs⟩ := hs
    have hi := lt_size_of_getElem? h0
    cases n with
    | zero => omega
    | succ n =>
      have element {l d m} (hl : i < l) (hm : kindAt items m = .symbol .gt) :
          At R items l d m → ∃ e, (datatypeRefWithin n).Yields items l e m ∧ e.map forget = d := by
        rintro ⟨us, hus, hd⟩
        exact ih us d hd (by omega) (by simp [hm]) (by simp [hm]) hus
      obtain ⟨c, hc, rfl⟩ := exists_yields_builtinOf element ⟨ts, hs, hp⟩ hb
      refine ⟨.builtin c.type c.place, ?_, rfl⟩
      simp [datatypeRefWithin, kindAt_of_getElem? h0, hk]
      exact ⟨c, hc, rfl, rfl⟩
  | @named ts r hr =>
    obtain ⟨c, hc, rfl⟩ := exists_yields_typeRef ⟨ts, hs, hr⟩ hd
    have hk : kindAt items i = .upperWord ∨
        kindAt items i = .lowerWord ∧ kindAt items (i + 1) = .symbol .dot := by
      rcases at_typeRef.1 ⟨ts, hs, hr⟩ with ⟨hk, -⟩ | ⟨hq, hdot, -⟩
      · exact .inl hk
      · have := hq.isWord
        rw [kind_itemAt] at this
        cases hk : kindAt items i <;> simp_all [TokenKind.isWord]
    have hi : i < items.size := lt_size_of_kindAt_ne (by rcases hk with hk | hk <;> simp [hk])
    cases n with
    | zero => omega
    | succ n =>
      refine ⟨.named c, ?_, rfl⟩
      rcases hk with hk | ⟨hk, hdot⟩
      · simp [datatypeRefWithin, hk, hc]
      · simp [datatypeRefWithin, hk, hdot, hc]

theorem at_of_yields_datatypeRef {d : DatatypeRef Extent} (hw : KeywordsReserved items)
    (h : datatypeRef.Yields items i d j) : At DatatypeRef.Derives items i (d.map forget) j :=
  at_of_yields_datatypeRefWithin hw (yields_remaining_bind.1 h)

theorem exists_yields_datatypeRef {d : DatatypeRef Unit} (h : At DatatypeRef.Derives items i d j)
    (hb : kindAt items j ≠ .symbol .lBracket) (hd : kindAt items j ≠ .symbol .dot) :
    ∃ c, datatypeRef.Yields items i c j ∧ c.map forget = d := by
  obtain ⟨c, hc, hcd⟩ :=
    exists_yields_datatypeRefWithin (show items.size ≤ items.size - i + i by omega) h hb hd
  exact ⟨c, yields_remaining_bind.2 hc, hcd⟩

theorem at_of_yields_builtin {b : PlacedBuiltin Extent} (hw : KeywordsReserved items)
    (hk : kindAt items i = .builtin kind) (h : (builtin kind).Yields items i b j) :
    At PlacedBuiltin.Derives items i (b.map forget) j := by
  obtain ⟨ts, hs, hp⟩ := at_of_yields_builtinOf (at_of_yields_datatypeRef hw) h
  exact ⟨_, .cons hk (by simp) hs, .mk hk hp⟩

end Rule

end SchemaLang
