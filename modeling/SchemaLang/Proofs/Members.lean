import SchemaLang.Grammar.Member
import SchemaLang.Proofs.ExprComplete
import SchemaLang.Proofs.Phrase.Member
import SchemaLang.Proofs.Silent

/-!
# Reading members

What the rules for members read without a problem is what the grammar derives, and the other way
round as long as the next item does not belong to the member: a modifier behind a property without
one, or a symbol that opens or separates a part that the member lacks.
-/

set_option autoImplicit false

namespace SchemaLang

namespace Phrase

variable {items : Items} {i j : Nat}

theorem at_many {α : Type} {R : Phrase α} {as : List α} :
    At (Many R) items i as j ↔
      (as = [] ∧ j = i) ∨
        ∃ a rest k, At R items i a k ∧ At (Many R) items k rest j ∧ as = a :: rest := by
  constructor
  · rintro ⟨_, hs, hm⟩
    cases hm with
    | nil => exact .inl ⟨rfl, hs⟩
    | @cons ts us a as hr hm =>
      obtain ⟨k, hts, hus⟩ := stretch_append.1 hs
      exact .inr ⟨a, as, k, ⟨ts, hts, hr⟩, ⟨us, hus, hm⟩, rfl⟩
  · rintro (⟨rfl, rfl⟩ | ⟨a, rest, k, ⟨ts, hts, hr⟩, ⟨us, hus, hm⟩, rfl⟩)
    · exact ⟨[], rfl, .nil⟩
    · exact ⟨_, hts.append hus, .cons hr hm⟩

theorem at_many_nil {α : Type} {R : Phrase α} : At (Many R) items i [] j ↔ j = i := by
  rw [at_many]
  simp

theorem at_cardinality {isMany : Bool} :
    At Cardinality items i isMany j ↔
      (isMany = false ∧ j = i) ∨
        kindAt items i = .symbol .colon ∧ j = i + 2 ∧
          kindAt items (i + 1) = .keyword (if isMany then .manyWord else .oneWord) := by
  constructor
  · rintro ⟨_, hs, hc⟩
    cases hc with
    | absent => exact .inl ⟨rfl, hs⟩
    | one hc ht =>
      obtain ⟨h0, h1, rfl⟩ := hs
      exact .inr ⟨by rw [kindAt_of_getElem? h0, hc], rfl, by rw [kindAt_of_getElem? h1, ht]; rfl⟩
    | many hc ht =>
      obtain ⟨h0, h1, rfl⟩ := hs
      exact .inr ⟨by rw [kindAt_of_getElem? h0, hc], rfl, by rw [kindAt_of_getElem? h1, ht]; rfl⟩
  · rintro (⟨rfl, rfl⟩ | ⟨hc, rfl, ht⟩)
    · exact ⟨[], rfl, .absent⟩
    · have hs := Stretch.cons hc (by simp) (stretch_of_kindAt ht (by simp))
      cases isMany with
      | false => exact ⟨_, hs, .one hc ht⟩
      | true => exact ⟨_, hs, .many hc ht⟩

theorem at_multiplicityForm {m : Multiplicity} :
    At MultiplicityForm items i m j ↔
      (kindAt items i = .symbol .underscore ∧
        ∃ isMany, At Cardinality items (i + 1) isMany j ∧ m = .of false isMany) ∨
      (kindAt items i = .keyword .oneWord ∧
        ∃ isMany, At Cardinality items (i + 1) isMany j ∧ m = .of true isMany) ∨
      (kindAt items i = .keyword .manyWord ∧ m = .of false true ∧ j = i + 1) := by
  constructor
  · rintro ⟨_, hs, hm⟩
    cases hm with
    | optional ht hc =>
      obtain ⟨h0, hs⟩ := hs
      exact .inl ⟨by rw [kindAt_of_getElem? h0, ht], _, ⟨_, hs, hc⟩, rfl⟩
    | required ht hc =>
      obtain ⟨h0, hs⟩ := hs
      exact .inr (.inl ⟨by rw [kindAt_of_getElem? h0, ht], _, ⟨_, hs, hc⟩, rfl⟩)
    | many ht =>
      obtain ⟨h0, rfl⟩ := hs
      exact .inr (.inr ⟨by rw [kindAt_of_getElem? h0, ht], rfl, rfl⟩)
  · rintro (⟨ht, isMany, ⟨ts, hs, hc⟩, rfl⟩ | ⟨ht, isMany, ⟨ts, hs, hc⟩, rfl⟩ | ⟨ht, rfl, rfl⟩)
    · exact ⟨_, .cons ht (by simp) hs, .optional ht hc⟩
    · exact ⟨_, .cons ht (by simp) hs, .required ht hc⟩
    · exact ⟨_, stretch_of_kindAt ht (by simp), .many ht⟩

theorem at_multiplicity {m : Multiplicity} :
    At Multiplicity.Derives items i m j ↔
      (m = .optionalOne ∧ j = i) ∨ At (Enclosed .lParen .rParen MultiplicityForm) items i m j := by
  constructor
  · rintro ⟨ts, hs, hm⟩
    cases hm with
    | absent => exact .inl ⟨rfl, hs⟩
    | present he => exact .inr ⟨ts, hs, he⟩
  · rintro (⟨rfl, rfl⟩ | ⟨ts, hs, he⟩)
    · exact ⟨[], rfl, .absent⟩
    · exact ⟨ts, hs, .present he⟩

theorem at_reverseEdge {r : ReverseEdge Unit} :
    At ReverseEdge.Derives items i r j ↔
      kindAt items i = .symbol .slash ∧ (kindAt items (i + 1)).isWord = true ∧
        ∃ m, At Multiplicity.Derives items (i + 2) m j ∧
          r = ⟨⟨(itemAt items (i + 1)).text, ()⟩, m, ()⟩ := by
  constructor
  · rintro ⟨_, hs, ⟨hslash, hn, hm⟩⟩
    obtain ⟨h0, h1, hs⟩ := hs
    exact ⟨by rw [kindAt_of_getElem? h0, hslash], by rwa [kindAt_of_getElem? h1], _, ⟨_, hs, hm⟩,
      by rw [itemAt_of_getElem? h1]⟩
  · rintro ⟨hslash, hn, m, ⟨ts, hs, hm⟩, rfl⟩
    exact ⟨_, .cons hslash (by simp) (.cons rfl (TokenKind.ne_of_allowed hn rfl) hs), .mk hslash hn hm⟩

end Phrase

namespace Rule

open SchemaLang.Phrase

variable {items : Items} {i j : Nat}

@[simp] theorem yields_nextDoc_bind {β : Type} {f : Option String → Rule β} {b : β} :
    (nextDoc >>= f).Yields items i b j ↔ (f (itemAt items i).doc).Yields items i b j := Iff.rfl

/-! ## Multiplicities -/

theorem yields_cardinality {isMany : Bool} :
    cardinality.Yields items i isMany j ↔
      At Cardinality items i isMany j ∧ (j = i → kindAt items i ≠ .symbol .colon) := by
  rw [at_cardinality]
  simp [cardinality]
  constructor
  · rintro (⟨hc, h⟩ | ⟨hc, rfl, rfl⟩)
    · split at h
      · rename_i ht
        simp at h
        obtain ⟨rfl, rfl⟩ := h
        exact ⟨.inr ⟨hc, rfl, by simpa using ht⟩, by omega⟩
      · rename_i ht
        simp at h
        obtain ⟨rfl, rfl⟩ := h
        exact ⟨.inr ⟨hc, rfl, by simpa using ht⟩, by omega⟩
      · simp at h
    · exact ⟨.inl ⟨rfl, rfl⟩, fun _ => hc⟩
  · rintro ⟨⟨rfl, rfl⟩ | ⟨hc, rfl, ht⟩, hn⟩
    · exact .inr ⟨hn rfl, rfl, rfl⟩
    · cases isMany <;> simp_all

theorem yields_multiplicityForm {m : Multiplicity} (hj : kindAt items j = .symbol .rParen) :
    multiplicityForm.Yields items i m j ↔ At MultiplicityForm items i m j := by
  have count {isMany : Bool} :
      cardinality.Yields items (i + 1) isMany j ↔ At Cardinality items (i + 1) isMany j := by
    rw [yields_cardinality, and_iff_left]
    rintro rfl
    simp [hj]
  rw [at_multiplicityForm]
  simp only [multiplicityForm, yields_peekKind_bind]
  split
  · rename_i hk
    simp [hk, count]
  · rename_i hk
    simp [hk, count]
  · rename_i hk
    simp [hk]
  · rename_i h1 h2 h3
    simp
    exact ⟨fun h => (h1 h).elim, fun h => (h2 h).elim, fun h => (h3 h).elim⟩

/-- Without a multiplicity, no parenthesis follows. -/
theorem yields_multiplicity {m : Multiplicity} :
    multiplicity.Yields items i m j ↔
      At Multiplicity.Derives items i m j ∧ (j = i → kindAt items i ≠ .symbol .lParen) := by
  rw [at_multiplicity, at_enclosed]
  simp [multiplicity]
  constructor
  · rintro (⟨h0, k, hm, hk, rfl⟩ | ⟨h0, rfl, rfl⟩)
    · rw [yields_multiplicityForm hk] at hm
      have := hm.le
      exact ⟨.inr ⟨h0, k, hm, hk, rfl⟩, by omega⟩
    · exact ⟨.inl ⟨rfl, rfl⟩, fun _ => h0⟩
  · rintro ⟨⟨rfl, rfl⟩ | ⟨h0, k, hm, hk, rfl⟩, hn⟩
    · exact .inr ⟨hn rfl, rfl, rfl⟩
    · exact .inl ⟨h0, k, (yields_multiplicityForm hk).2 hm, hk, rfl⟩

/-! ## Reverse edges -/

theorem at_of_yields_reverseEdge {r : Option (ReverseEdge Extent)}
    (h : reverseEdge.Yields items i r j) :
    At (Optional ReverseEdge.Derives) items i (r.map (ReverseEdge.map forget)) j := by
  simp [reverseEdge, isRelationName, yields_multiplicity, and_assoc] at h
  rw [at_optional]
  rcases h with ⟨h0, hn, m, hm, -, rfl⟩ | ⟨-, rfl, rfl⟩
  · exact .inr ⟨_, at_reverseEdge.2 ⟨h0, hn, m, hm, rfl⟩, rfl⟩
  · exact .inl ⟨rfl, rfl⟩

theorem exists_yields_reverseEdge {r : Option (ReverseEdge Unit)}
    (h : At (Optional ReverseEdge.Derives) items i r j) (hs : kindAt items j ≠ .symbol .slash)
    (hp : kindAt items j ≠ .symbol .lParen) :
    ∃ s, reverseEdge.Yields items i s j ∧ s.map (ReverseEdge.map forget) = r := by
  simp [reverseEdge, isRelationName, yields_multiplicity, and_assoc]
  rcases at_optional.1 h with ⟨rfl, rfl⟩ | ⟨r, hr, rfl⟩
  · exact ⟨none, .inr ⟨hs, rfl, rfl⟩, rfl⟩
  · obtain ⟨h0, hn, m, hm, rfl⟩ := at_reverseEdge.1 hr
    exact ⟨_, .inl ⟨h0, hn, m, hm, fun he => he ▸ hp, rfl⟩, rfl⟩

/-! ## Properties -/

theorem at_propertyModifier {m : PropertyModifier} :
    At PropertyModifier.Derives items i m j ↔
      (m = .none ∧ j = i) ∨ (kindAt items i = .keyword .primaryWord ∧ m = .primary ∧ j = i + 1) ∨
        (kindAt items i = .keyword .requiredWord ∧ m = .required ∧ j = i + 1) := by
  constructor
  · rintro ⟨_, hs, hm⟩
    cases hm with
    | none => exact .inl ⟨rfl, hs⟩
    | primary ht =>
      obtain ⟨h0, rfl⟩ := hs
      exact .inr (.inl ⟨by rw [kindAt_of_getElem? h0, ht], rfl, rfl⟩)
    | required ht =>
      obtain ⟨h0, rfl⟩ := hs
      exact .inr (.inr ⟨by rw [kindAt_of_getElem? h0, ht], rfl, rfl⟩)
  · rintro (⟨rfl, rfl⟩ | ⟨ht, rfl, rfl⟩ | ⟨ht, rfl, rfl⟩)
    · exact ⟨[], rfl, .none⟩
    · exact ⟨_, stretch_of_kindAt ht (by simp), .primary ht⟩
    · exact ⟨_, stretch_of_kindAt ht (by simp), .required ht⟩

theorem yields_propertyModifier {m : PropertyModifier} :
    propertyModifier.Yields items i m j ↔
      At PropertyModifier.Derives items i m j ∧
        (m = .none → kindAt items i ∉ [.keyword .primaryWord, .keyword .requiredWord]) := by
  rw [at_propertyModifier]
  simp only [propertyModifier, yields_peekKind_bind]
  split
  · rename_i hk
    simp [hk]
    grind
  · rename_i hk
    simp [hk]
    grind
  · rename_i h1 h2
    simp
    grind

theorem at_property {p : Property Unit} :
    At Property.Derives items i p j ↔
      (kindAt items i).namesProperty = true ∧ ∃ d k m, At DatatypeRef.Derives items (i + 1) d k ∧
        At PropertyModifier.Derives items k m j ∧
        p = ⟨(itemAt items i).doc, ⟨(itemAt items i).text, ()⟩, d, m, ()⟩ := by
  constructor
  · rintro ⟨_, hs, @⟨n, ts, us, d, m, hn, hd, hm⟩⟩
    obtain ⟨h0, hs⟩ := hs
    obtain ⟨k, hts, hus⟩ := stretch_append.1 hs
    exact ⟨by rwa [kindAt_of_getElem? h0], d, k, m, ⟨ts, hts, hd⟩, ⟨us, hus, hm⟩,
      by rw [itemAt_of_getElem? h0]⟩
  · rintro ⟨hn, d, k, m, ⟨ts, hts, hd⟩, ⟨us, hus, hm⟩, rfl⟩
    have h0 : kindAt items i ≠ .endOfText := by
      intro he
      simp [he, TokenKind.namesProperty] at hn
    exact ⟨_, .cons rfl h0 (hts.append hus), .mk hn hd hm⟩

theorem at_of_yields_property {p : Property Extent} (hw : KeywordsReserved items)
    (hk : (kindAt items i).namesProperty = true) (h : property.Yields items i p j) :
    At Property.Derives items i (p.map forget) j := by
  simp [property, yields_propertyModifier, and_assoc] at h
  obtain ⟨d, k, hd, m, hm, -, rfl⟩ := h
  exact at_property.2 ⟨hk, _, k, m, at_of_yields_datatypeRef hw hd, hm, rfl⟩

/-- A datatype with a modifier or the end of a property behind it. -/
theorem exists_yields_datatypeRef_of_modifier {d : DatatypeRef Unit} {m : PropertyModifier}
    {k : Nat} (hd : At DatatypeRef.Derives items i d k) (hm : At PropertyModifier.Derives items k m j)
    (hj : (kindAt items j).Ends .lowest) :
    ∃ c, datatypeRef.Yields items i c k ∧ c.map forget = d := by
  have hk : kindAt items k ≠ .symbol .lBracket ∧ kindAt items k ≠ .symbol .dot := by
    rcases at_propertyModifier.1 hm with ⟨-, rfl⟩ | ⟨ht, -⟩ | ⟨ht, -⟩
    · exact ⟨hj.ne_lBracket, hj.ne_dot⟩
    · simp [ht]
    · simp [ht]
  exact exists_yields_datatypeRef hd hk.1 hk.2

theorem exists_yields_property {p : Property Unit} (h : At Property.Derives items i p j)
    (hj : (kindAt items j).Ends .lowest)
    (hm : p.modifier = .none →
      kindAt items j ∉ [.keyword .primaryWord, .keyword .requiredWord]) :
    ∃ q, property.Yields items i q j ∧ q.map forget = p := by
  obtain ⟨hn, d, k, m, hd, hmod, rfl⟩ := at_property.1 h
  obtain ⟨c, hc, rfl⟩ := exists_yields_datatypeRef_of_modifier hd hmod hj
  have hmod' : propertyModifier.Yields items k m j := by
    refine yields_propertyModifier.2 ⟨hmod, fun he => ?_⟩
    obtain rfl : j = k := by
      rcases at_propertyModifier.1 hmod with ⟨-, hk⟩ | ⟨-, hk, -⟩ | ⟨-, hk, -⟩
      · exact hk
      · simp [he] at hk
      · simp [he] at hk
    exact hm he
  refine ⟨⟨(itemAt items i).doc, ⟨(itemAt items i).text, .single i⟩, c, m, ⟨i, j - 1⟩⟩, ?_, rfl⟩
  simp [property]
  exact ⟨k, hc, hmod'⟩

/-- A property that is read as it is derived ends where it should. -/
theorem eq_of_yields_property {p : Property Extent} {k : Nat} (h : property.Yields items i p k)
    (hp : At Property.Derives items i (p.map forget) j) (hj : (kindAt items j).Ends .lowest) :
    k = j ∧ (p.modifier = .none →
      kindAt items j ∉ [.keyword .primaryWord, .keyword .requiredWord]) := by
  simp [property, yields_propertyModifier, and_assoc] at h
  obtain ⟨d, l, hd, m, hm, hne, rfl⟩ := h
  obtain ⟨-, d', l', m', hd', hm', he⟩ := at_property.1 hp
  obtain ⟨rfl, rfl⟩ : d.map forget = d' ∧ m = m' := by
    simp [Property.map] at he
    exact he.2
  obtain ⟨c, hc, -⟩ := exists_yields_datatypeRef_of_modifier hd' hm' hj
  obtain ⟨-, rfl⟩ := hd.unique hc
  rw [at_propertyModifier] at hm hm'
  rcases hm with ⟨rfl, rfl⟩ | ⟨-, rfl, rfl⟩ | ⟨-, rfl, rfl⟩
  · obtain rfl : j = k := by simpa using hm'
    exact ⟨rfl, fun _ => by simpa using hne⟩
  · obtain ⟨-, rfl⟩ : kindAt items l = .keyword .primaryWord ∧ j = l + 1 := by simpa using hm'
    exact ⟨rfl, by simp⟩
  · obtain ⟨-, rfl⟩ : kindAt items l = .keyword .requiredWord ∧ j = l + 1 := by simpa using hm'
    exact ⟨rfl, by simp⟩

/-! ## Bodies -/

theorem atDeclaration_iff : atDeclaration items i = true ↔
    (kindAt items i = .keyword .abstractWord ∧ kindAt items (i + 1) = .keyword .typeWord) ∨
    (kindAt items i = .keyword .partWord ∧ kindAt items (i + 1) = .keyword .typeWord) ∨
    (kindAt items i = .keyword .typeWord ∧ kindAt items (i + 1) = .upperWord ∧
      (kindAt items (i + 2) = .symbol .lBrace ∨ kindAt items (i + 2) = .symbol .assign ∨
        kindAt items (i + 2) = .keyword .extendsWord)) := by
  unfold atDeclaration
  split <;> simp_all

theorem block_closed {α : Type} {entry : Rule α} {what : Enclosure} {opened n : Nat}
    (h : kindAt items i = .symbol .rBrace) :
    block entry what opened (n + 1) items i = ⟨some [], i + 1, []⟩ := by
  unfold block
  exact if_pos h

theorem block_unclosed {α : Type} {entry : Rule α} {what : Enclosure} {opened n : Nat}
    (hk : kindAt items i ≠ .symbol .rBrace)
    (h : kindAt items i = .endOfText ∨ atDeclaration items i = true) :
    block entry what opened (n + 1) items i =
      ⟨some [], i, [⟨.unclosed .rBrace what (.single opened), .single i⟩]⟩ := by
  unfold block
  exact (if_neg hk).trans (if_pos h)

theorem block_entry {α : Type} {entry : Rule α} {what : Enclosure} {opened n : Nat}
    (hk : kindAt items i ≠ .symbol .rBrace)
    (h : ¬ (kindAt items i = .endOfText ∨ atDeclaration items i = true)) :
    block entry what opened (n + 1) items i =
      thenRest .member items i (entry items i) (block entry what opened n items) := by
  rw [block]
  exact (if_neg hk).trans (if_neg h)

theorem yields_block_succ {α : Type} {entry : Rule α} {what : Enclosure} {opened n : Nat}
    {as : List α} (hs : ¬ entry.Silent items i) :
    (block entry what opened (n + 1)).Yields items i as j ↔
      (kindAt items i = .symbol .rBrace ∧ as = [] ∧ j = i + 1) ∨
      (kindAt items i ≠ .symbol .rBrace ∧ kindAt items i ≠ .endOfText ∧
        atDeclaration items i = false ∧ ∃ a k rest, entry.Yields items i a k ∧
          (block entry what opened n).Yields items k rest j ∧ as = a :: rest) := by
  unfold Yields
  rw [block]
  dsimp only
  split
  · rename_i hk
    simp only [hk, Reply.mk.injEq, Option.some.injEq, and_true, true_and, ne_eq, not_true,
      false_and, or_false]
    exact and_congr eq_comm eq_comm
  · rename_i hk
    split
    · rename_i hd
      rcases hd with hd | hd <;> simp [hk, hd]
    · rename_i hd
      simp only [not_or, Bool.not_eq_true] at hd
      unfold thenRest
      split
      · rename_i a k ps he
        simp [hk, hd, he]
        constructor
        · rintro ⟨⟨rest, hr, rfl⟩, rfl, rfl, hp⟩
          exact ⟨rfl, rest, by rw [← hr, ← hp], rfl⟩
        · rintro ⟨rfl, rest, hr, rfl⟩
          simp [hr]
      · rename_i k ps he
        have hps : ps ≠ [] := by
          rintro rfl
          exact hs ⟨by rw [he], by rw [he]⟩
        simp [he, hps, hk]

theorem at_of_yields_block {α β : Type} {entry : Rule α} {f : α → β} {R : Phrase β}
    {what : Enclosure} {opened n : Nat} {as : List α} (hs : ∀ i, ¬ entry.Silent items i)
    (hR : ∀ {i a j}, entry.Yields items i a j → At R items i (f a) j)
    (h : (block entry what opened n).Yields items i as j) :
    ∃ k, At (Many R) items i (as.map f) k ∧ kindAt items k = .symbol .rBrace ∧ j = k + 1 := by
  induction n generalizing i as with
  | zero => simp [block, Yields] at h
  | succ n ih =>
    rw [yields_block_succ (hs i)] at h
    rcases h with ⟨hk, rfl, rfl⟩ | ⟨-, -, -, a, k, rest, ha, hrest, rfl⟩
    · exact ⟨i, at_many.2 (.inl ⟨rfl, rfl⟩), hk, rfl⟩
    · obtain ⟨m, hm, hclose, rfl⟩ := ih hrest
      exact ⟨m, at_many.2 (.inr ⟨_, _, k, hR ha, hm, rfl⟩), hclose, rfl⟩

/-! ## What members are -/

theorem at_of_yields_edgeProperty {p : Property Extent} (hw : KeywordsReserved items)
    (h : edgeProperty.Yields items i p j) : At Property.Derives items i (p.map forget) j := by
  simp [edgeProperty] at h
  exact at_of_yields_property hw h.1 h.2

theorem at_of_yields_relationBody {b : Option (RelationBody Extent)} (hw : KeywordsReserved items)
    (hi : NoInvalid items) (h : relationBody.Yields items i b j) :
    At (Optional RelationBody.Derives) items i (b.map (RelationBody.map forget)) j := by
  simp [relationBody] at h
  rw [at_optional]
  rcases h with ⟨h0, ps, hps, rfl⟩ | ⟨-, rfl, rfl⟩
  · obtain ⟨k, hm, hk, rfl⟩ := at_of_yields_block (fun _ => not_silent_edgeProperty hi)
      (at_of_yields_edgeProperty hw) hps
    obtain ⟨ts, hts, he⟩ := at_enclosed.2 ⟨h0, k, hm, hk, rfl⟩
    exact .inr ⟨_, ⟨ts, hts, .mk he⟩, rfl⟩
  · exact .inl ⟨rfl, rfl⟩

theorem at_of_yields_association {a : Association Extent} (hw : KeywordsReserved items)
    (hi : NoInvalid items) (hk : kindAt items i = .symbol .association)
    (h : association.Yields items i a j) : At Association.Derives items i (a.map forget) j := by
  simp [association, isRelationName, yields_multiplicity, and_assoc] at h
  obtain ⟨hn, m, k1, ⟨ts, hts, hm⟩, -, target, k2, ht, reverse, k3, hr, body, hb, rfl⟩ := h
  obtain ⟨us, hus, ht⟩ := at_of_yields_typeRef hw ht
  obtain ⟨vs, hvs, hr⟩ := at_of_yields_reverseEdge hr
  obtain ⟨ws, hws, hb⟩ := at_of_yields_relationBody hw hi hb
  exact ⟨_, .cons hk (by simp) (.cons rfl (TokenKind.ne_of_allowed hn rfl)
    (((hts.append hus).append hvs).append hws)), .mk hk hn hm ht hr hb⟩

theorem at_of_yields_composition {c : Composition Extent} (hw : KeywordsReserved items)
    (hk : kindAt items i = .symbol .composition) (h : composition.Yields items i c j) :
    At Composition.Derives items i (c.map forget) j := by
  simp [composition, isRelationName, yields_multiplicity, and_assoc] at h
  obtain ⟨hn, m, k1, ⟨ts, hts, hm⟩, -, target, k2, ht, reverse, hr, -, rfl⟩ := h
  obtain ⟨us, hus, ht⟩ := at_of_yields_typeRef hw ht
  obtain ⟨vs, hvs, hr⟩ := at_of_yields_reverseEdge hr
  exact ⟨_, .cons hk (by simp) (.cons rfl (TokenKind.ne_of_allowed hn rfl)
    ((hts.append hus).append hvs)), .mk hk hn hm ht hr⟩

theorem at_of_yields_invariant {v : Invariant Extent} (hk : kindAt items i = .symbol .bang)
    (h : invariant.Yields items i v j) :
    At (Invariant.Derives true) items i (v.map forget) j := by
  simp [invariant, and_assoc] at h
  obtain ⟨hm, e, he, rfl⟩ := h
  obtain ⟨ts, hts, hd⟩ := at_of_yields_expression he
  exact ⟨_, .cons hk (by simp) (.cons hm (by simp) hts), .mk hk hm hd⟩

/-- A member that is read is one of the four kinds. -/
theorem at_of_yields_typeMember {m : Member Extent} (hw : KeywordsReserved items)
    (hi : NoInvalid items) (h : typeMember.Yields items i m j) :
    At (Member.Derives true) items i (m.map forget) j := by
  simp only [typeMember, yields_peekKind_bind] at h
  split at h
  · rename_i hk
    simp at h
    obtain ⟨a, ha, rfl⟩ := h
    obtain ⟨ts, hts, hd⟩ := at_of_yields_association hw hi hk ha
    exact ⟨ts, hts, .association hd⟩
  · rename_i hk
    simp at h
    obtain ⟨c, hc, rfl⟩ := h
    obtain ⟨ts, hts, hd⟩ := at_of_yields_composition hw hk hc
    exact ⟨ts, hts, .composition hd⟩
  · rename_i hk
    simp at h
    obtain ⟨v, hv, rfl⟩ := h
    obtain ⟨ts, hts, hd⟩ := at_of_yields_invariant hk hv
    exact ⟨ts, hts, .invariant hd⟩
  · simp at h
    obtain ⟨hk, p, hp, rfl⟩ := h
    obtain ⟨ts, hts, hd⟩ := at_of_yields_property hw hk hp
    exact ⟨ts, hts, .property hd⟩

theorem at_of_yields_typeBody {name : String} {opened : Nat} {ms : List (Member Extent)}
    (hw : KeywordsReserved items) (hi : NoInvalid items)
    (hk : kindAt items i = .symbol .lBrace) (h : (typeBody name opened).Yields items (i + 1) ms j) :
    At (Enclosed .lBrace .rBrace (Many (Member.Derives true))) items i (ms.map (Member.map forget))
      j := by
  simp [typeBody] at h
  obtain ⟨k, hm, hclose, rfl⟩ := at_of_yields_block (fun _ => not_silent_typeMember hi)
    (at_of_yields_typeMember hw hi) h
  exact at_enclosed.2 ⟨hk, k, hm, hclose, rfl⟩

end Rule

end SchemaLang
