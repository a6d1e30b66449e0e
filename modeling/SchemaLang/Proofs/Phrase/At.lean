import SchemaLang.Proofs.Phrase.Basic
import SchemaLang.Proofs.Stretch

/-!
# Phrases in a sequence of items

* `Phrase.At R items i a j`: the items from `i` up to `j` are a phrase that says `a`.

For each way of making phrases a lemma says what stands where.
-/

set_option autoImplicit false

namespace SchemaLang.Phrase

def At {α : Type} (R : Phrase α) (items : Items) (i : Nat) (a : α) (j : Nat) : Prop :=
  ∃ ts, Stretch items i ts j ∧ R ts a

variable {α : Type} {R S : Phrase α} {items : Items} {i j k : Nat}

theorem At.imp (h : ∀ ts a, R ts a → S ts a) {a : α} : At R items i a j → At S items i a j
  | ⟨ts, hs, hr⟩ => ⟨ts, hs, h ts a hr⟩

theorem At.le {a : α} (h : At R items i a j) : i ≤ j := by
  obtain ⟨ts, hs, -⟩ := h
  exact hs.le

theorem At.lt {a : α} (hR : ∀ {ts a}, R ts a → ts ≠ []) (h : At R items i a j) : i < j := by
  obtain ⟨ts, hs, hr⟩ := h
  obtain ⟨t, us, rfl⟩ := List.exists_cons_of_ne_nil (hR hr)
  exact hs.lt

/-- A phrase of one item. -/
theorem at_single {P : Item → Prop} {f : Item → α} (hP : ∀ t, P t → t.kind ≠ .endOfText)
    (hR : ∀ ts a, R ts a ↔ ∃ t, ts = [t] ∧ P t ∧ a = f t) {a : α} :
    At R items i a j ↔ P (itemAt items i) ∧ a = f (itemAt items i) ∧ j = i + 1 := by
  constructor
  · rintro ⟨ts, hs, hr⟩
    obtain ⟨t, rfl, hp, rfl⟩ := (hR _ _).1 hr
    obtain ⟨h0, rfl⟩ := hs
    rw [itemAt_of_getElem? h0]
    exact ⟨hp, rfl, rfl⟩
  · rintro ⟨hp, rfl, rfl⟩
    exact ⟨_, stretch_of_kindAt rfl (hP _ hp), (hR _ _).2 ⟨_, rfl, hp, rfl⟩⟩

theorem at_enclosed {opener closer : Symbol} {a : α} :
    At (Enclosed opener closer R) items i a j ↔
      kindAt items i = .symbol opener ∧ ∃ k, At R items (i + 1) a k ∧
        kindAt items k = .symbol closer ∧ j = k + 1 := by
  constructor
  · rintro ⟨_, hs, @⟨l, r, ts, _, hl, hr, hc⟩⟩
    obtain ⟨h0, hs⟩ := hs
    obtain ⟨k, hts, h1, rfl⟩ := stretch_append.1 hs
    exact ⟨by rw [kindAt_of_getElem? h0, hl], k, ⟨ts, hts, hr⟩,
      by rw [kindAt_of_getElem? h1, hc], rfl⟩
  · rintro ⟨hl, k, ⟨ts, hts, hr⟩, hc, rfl⟩
    exact ⟨_, .cons hl (by simp) (hts.concat hc (by simp)), .mk hl hr hc⟩

theorem at_listing {a : List α} :
    At (Listing R) items i a j ↔ (a = [] ∧ j = i) ∨ At (Elements R) items i a j := by
  constructor
  · rintro ⟨ts, hs, hl⟩
    cases hl with
    | empty => exact .inl ⟨rfl, hs⟩
    | filled he => exact .inr ⟨ts, hs, he⟩
  · rintro (⟨rfl, rfl⟩ | ⟨ts, hs, he⟩)
    · exact ⟨[], rfl, .empty⟩
    · exact ⟨ts, hs, .filled he⟩

/-- Behind a comma anything or nothing may follow. -/
theorem at_elements {as : List α} :
    At (Elements R) items i as j ↔ ∃ a k, At R items i a k ∧
      ((as = [a] ∧ j = k) ∨
        kindAt items k = .symbol .comma ∧
          ∃ rest, At (Listing R) items (k + 1) rest j ∧ as = a :: rest) := by
  simp only [at_listing]
  constructor
  · rintro ⟨ts, hs, he⟩
    cases he with
    | @one _ a hr => exact ⟨a, j, ⟨ts, hs, hr⟩, .inl ⟨rfl, rfl⟩⟩
    | @ended us a c hr hc =>
      obtain ⟨k, hts, h1, rfl⟩ := stretch_append.1 hs
      exact ⟨a, k, ⟨us, hts, hr⟩,
        .inr ⟨by rw [kindAt_of_getElem? h1, hc], [], .inl ⟨rfl, rfl⟩, rfl⟩⟩
    | @more us vs a as c hr hc he =>
      obtain ⟨k, hts, h1, hvs⟩ := stretch_append.1 hs
      exact ⟨a, k, ⟨us, hts, hr⟩,
        .inr ⟨by rw [kindAt_of_getElem? h1, hc], as, .inr ⟨vs, hvs, he⟩, rfl⟩⟩
  · rintro ⟨a, k, ⟨us, hus, hr⟩, ⟨rfl, rfl⟩ | ⟨hc, as, ⟨rfl, rfl⟩ | ⟨vs, hvs, he⟩, rfl⟩⟩
    · exact ⟨us, hus, .one hr⟩
    · exact ⟨_, hus.concat hc (by simp), .ended hr hc⟩
    · exact ⟨_, hus.append (.cons hc (by simp) hvs), .more hr hc he⟩

theorem at_optional {a : Option α} :
    At (Optional R) items i a j ↔ (a = none ∧ j = i) ∨ ∃ b, At R items i b j ∧ a = some b := by
  constructor
  · rintro ⟨ts, hs, ho⟩
    cases ho with
    | absent => exact .inl ⟨rfl, hs⟩
    | present hr => exact .inr ⟨_, ⟨ts, hs, hr⟩, rfl⟩
  · rintro (⟨rfl, rfl⟩ | ⟨b, ⟨ts, hs, hr⟩, rfl⟩)
    · exact ⟨[], rfl, .absent⟩
    · exact ⟨ts, hs, .present hr⟩

theorem Elements.ne_nil {ts : List Item} {as : List α} (h : Elements R ts as) : as ≠ [] := by
  cases h <;> simp

end SchemaLang.Phrase
