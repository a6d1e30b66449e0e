import SchemaLang.Proofs.Phrase.Datatype
import SchemaLang.Proofs.Phrase.Reworded
import SchemaLang.Proofs.Written.Numbers
import SchemaLang.Proofs.Written.Quoted

/-!
# Phrases as texts

* `BreaksOff d`: no word, number or symbol of a datatype goes on with `d`.
* `Phrase.SpelledBy R a cs clean`: wherever `cs` stands before a character that breaks off, it is cut into
  words, without a fault exactly if `clean`; and then all items in these words say `a` in `R`.
* `Phrase.WrittenAs R a cs clean` adds that `cs` is not empty and does not begin with a blank.

For each way of making phrases a lemma says how they are written.
-/

set_option autoImplicit false

namespace SchemaLang

def BreaksOff (d : Char) : Prop := isWordPart d = false ∧ d ≠ '.' ∧ d ≠ '='

instance (d : Char) : Decidable (BreaksOff d) := inferInstanceAs (Decidable (_ ∧ _))

theorem BreaksOff.endsNumber {d : Char} (h : BreaksOff d) : EndsNumber d := ⟨h.1, h.2.1⟩

/-- A symbol of one character, with which only an equals sign makes a longer one. -/
structure Symbol.Punctuates (s : Symbol) (c : Char) : Prop where
  chars : s.chars = [c]
  ne_slash : s ≠ .slash
  goesOn : ∀ d, d ≠ '=' → s.goesOn d = false

namespace Symbol

theorem goesOn_eq_false {s : Symbol} {c d : Char} (hc : s.chars = [c])
    (h : ∀ t : Symbol, t.chars.take 2 ≠ [c, d]) : s.goesOn d = false := by
  rw [goesOn, List.any_eq_false]
  intro t _ ht
  rw [hc, List.isPrefixOf_iff_prefix] at ht
  exact h t (List.prefix_iff_eq_take.1 ht).symm

theorem punctuates {s : Symbol} {c : Char} (hc : s.chars = [c]) (hs : s ≠ .slash)
    (h : ∀ t : Symbol, t.chars.head? = some c → t.chars.take 2 = [c] ∨ t.chars.take 2 = [c, '=']) :
    s.Punctuates c := by
  refine ⟨hc, hs, fun d hd => goesOn_eq_false hc fun t ht => ?_⟩
  have hhead : t.chars.head? = some c := by
    have := congrArg List.head? ht
    rwa [List.head?_take, if_neg (by decide)] at this
  rcases h t hhead with h | h
  · simp [h] at ht
  · rw [h] at ht
    exact hd (List.cons.inj (List.cons.inj ht).2).1.symm

theorem punctuates_lBracket : Punctuates .lBracket '[' :=
  punctuates rfl (by decide) fun t => by cases t <;> decide

theorem punctuates_rBracket : Punctuates .rBracket ']' :=
  punctuates rfl (by decide) fun t => by cases t <;> decide

theorem punctuates_lt : Punctuates .lt '<' :=
  punctuates rfl (by decide) fun t => by cases t <;> decide

theorem punctuates_gt : Punctuates .gt '>' :=
  punctuates rfl (by decide) fun t => by cases t <;> decide

theorem punctuates_comma : Punctuates .comma ',' :=
  punctuates rfl (by decide) fun t => by cases t <;> decide

theorem punctuates_dot : Punctuates .dot '.' :=
  punctuates rfl (by decide) fun t => by cases t <;> decide

theorem punctuates_underscore : Punctuates .underscore '_' :=
  punctuates rfl (by decide) fun t => by cases t <;> decide

end Symbol

theorem Symbol.Punctuates.writes {s : Symbol} {c : Char} (h : s.Punctuates c) :
    Writes [c] [(.symbol s, s.text)] True (· ≠ '=') :=
  (writes_symbol h.chars h.ne_slash).mono Iff.rfl h.goesOn

namespace Phrase

variable {α β γ : Type} {R : Phrase α} {S : Phrase β} {T : Phrase γ} {a : α} {b : β} {x : γ}
  {cs ds : List Char} {clean clean' : Prop}

def SpelledBy (R : Phrase α) (a : α) (cs : List Char) (clean : Prop) : Prop :=
  ∃ ws, Writes cs ws clean BreaksOff ∧ (clean → ∀ us : List Item, us.map Item.word = ws → R us a)

structure WrittenAs (R : Phrase α) (a : α) (cs : List Char) (clean : Prop) : Prop where
  spelled : SpelledBy R a cs clean
  head : ∃ c ∈ cs.head?, isSpace c = false ∧ c ≠ '='

namespace SpelledBy

theorem nil (h : R [] a) : SpelledBy R a [] True := by
  refine ⟨[], writes_nil, fun _ us hus => ?_⟩
  rwa [List.map_eq_nil_iff.1 hus]

/-- A phrase of one item. -/
theorem single {kind : TokenKind} (h : Writes cs [(kind, String.ofList cs)] clean BreaksOff)
    (hR : clean → ∀ t : Item, t.kind = kind → t.text = String.ofList cs → R [t] a) :
    SpelledBy R a cs clean := by
  refine ⟨_, h, fun hclean us hus => ?_⟩
  obtain ⟨t, rfl, ht⟩ := List.map_eq_singleton_iff.1 hus
  exact hR hclean t (congrArg Prod.fst ht) (congrArg Prod.snd ht)

theorem symbol {s : Symbol} {c : Char} (hs : s.Punctuates c)
    (hR : ∀ t : Item, t.kind = .symbol s → R [t] a) : SpelledBy R a [c] True := by
  have hw := hs.writes.mono Iff.rfl fun d (hd : BreaksOff d) => hd.2.2
  rw [Symbol.text, hs.chars] at hw
  exact .single hw fun _ t ht _ => hR t ht

theorem mono (h : SpelledBy R a cs clean) (hc : clean ↔ clean') (hS : ∀ us, R us a → S us b) :
    SpelledBy S b cs clean' := by
  obtain ⟨ws, hws, hR⟩ := h
  exact ⟨ws, hws.mono hc fun _ h => h, fun hclean us hus => hS us (hR (hc.2 hclean) us hus)⟩

theorem append (h : SpelledBy R a cs clean) (h' : SpelledBy S b ds clean')
    (hd : ∀ d ∈ ds.head?, BreaksOff d)
    (hT : ∀ ts us : List Item, R ts a → S us b → T (ts ++ us) x) :
    SpelledBy T x (cs ++ ds) (clean ∧ clean') := by
  obtain ⟨ws, hws, hR⟩ := h
  obtain ⟨vs, hvs, hS⟩ := h'
  refine ⟨_, hws.append hvs hd fun _ _ h => h, ?_⟩
  rintro ⟨hclean, hclean'⟩ us hus
  obtain ⟨ts, us, rfl, hts, hus'⟩ := List.map_eq_append_iff.1 hus
  exact hT ts us (hR hclean ts hts) (hS hclean' us hus')

theorem blank {c : Char} (h : SpelledBy R a cs clean) (hc : isSpace c = true) (hne : cs ≠ [])
    (hcs : ∀ d ∈ cs.head?, isSpace d = false) : SpelledBy R a (c :: cs) clean := by
  obtain ⟨ws, hws, hR⟩ := h
  exact ⟨ws, (writes_blank hc).before hws hcs fun hnil => absurd hnil hne, hR⟩

/-- A symbol before a phrase. -/
theorem behind {s : Symbol} {c : Char} (h : SpelledBy R a cs clean) (hc : s.chars = [c])
    (hs : s ≠ .slash) (hne : cs ≠ []) (hcs : ∀ d ∈ cs.head?, s.goesOn d = false)
    (hT : ∀ (t : Item) (us : List Item), t.kind = .symbol s → R us a → T (t :: us) x) :
    SpelledBy T x (c :: cs) clean := by
  obtain ⟨ws, hws, hR⟩ := h
  refine ⟨_, (writes_symbol hc hs).before hws hcs fun hnil => absurd hnil hne, fun hclean us hus => ?_⟩
  obtain ⟨t, us, rfl, ht, hus'⟩ := List.map_eq_cons_iff.1 hus
  exact hT t us (congrArg Prod.fst ht) (hR hclean us hus')

/-- A word before a phrase. -/
theorem keyed {word : String} {kind : TokenKind} (h : SpelledBy R a cs clean)
    (hcs : ∀ d ∈ cs.head?, isWordPart d = false) (hshape : hasAliasShape word.toList = true)
    (hkind : wordKind word = kind)
    (hT : ∀ (t : Item) (us : List Item), t.kind = kind → t.text = word → R us a → T (t :: us) x) :
    WrittenAs T x (word.toList ++ cs) clean := by
  obtain ⟨ws, hws, hR⟩ := h
  have hword := (writes_word hshape).before hws hcs fun _ d hd => hd.1
  rw [String.ofList_toList, hkind] at hword
  refine ⟨⟨_, hword, fun hclean us hus => ?_⟩, ?_⟩
  · obtain ⟨t, us, rfl, ht, hus'⟩ := List.map_eq_cons_iff.1 hus
    exact hT t us (congrArg Prod.fst ht) (congrArg Prod.snd ht) (hR hclean us hus')
  · obtain ⟨c, ds, hc⟩ : ∃ c ds, word.toList = c :: ds :=
      List.exists_cons_of_ne_nil fun hnil => by simp [hnil, hasAliasShape] at hshape
    rw [hc] at hshape ⊢
    simp only [hasAliasShape, Bool.and_eq_true] at hshape
    exact ⟨c, rfl, isSpace_eq_false_of_isAlpha hshape.1, ne_of_isAlpha hshape.1 rfl⟩

end SpelledBy

namespace WrittenAs

theorem mono (h : WrittenAs R a cs clean) (hc : clean ↔ clean') (hS : ∀ us, R us a → S us b) :
    WrittenAs S b cs clean' := ⟨h.spelled.mono hc hS, h.head⟩

theorem ne_nil (h : WrittenAs R a cs clean) : cs ≠ [] := by
  obtain ⟨c, hc, -⟩ := h.head
  rintro rfl
  cases hc

theorem forall_head (h : WrittenAs R a cs clean) : ∀ c ∈ cs.head?, isSpace c = false ∧ c ≠ '=' := by
  obtain ⟨c, hc, hhead⟩ := h.head
  intro d hd
  obtain rfl := Option.mem_unique hc hd
  exact hhead

theorem blank {c : Char} (h : WrittenAs R a cs clean) (hc : isSpace c = true) :
    SpelledBy R a (c :: cs) clean :=
  h.spelled.blank hc h.ne_nil fun d hd => (h.forall_head d hd).1

theorem append (h : WrittenAs R a cs clean) (h' : SpelledBy S b ds clean')
    (hd : ∀ d ∈ ds.head?, BreaksOff d)
    (hT : ∀ ts us : List Item, R ts a → S us b → T (ts ++ us) x) :
    WrittenAs T x (cs ++ ds) (clean ∧ clean') := by
  obtain ⟨c, hc, hhead⟩ := h.head
  exact ⟨h.spelled.append h' hd hT, c, List.mem_head?_append_of_mem_head? hc, hhead⟩

/-- Phrases with a comma and a blank between them. -/
theorem pair (h : WrittenAs R a cs clean) (h' : WrittenAs S b ds clean')
    (hT : ∀ (ts us : List Item) (c : Item), R ts a → c.kind = .symbol .comma → S us b →
      T (ts ++ c :: us) x) : WrittenAs T x (cs ++ ',' :: ' ' :: ds) (clean ∧ clean') := by
  have hcomma : SpelledBy (fun us b => ∃ t vs, us = t :: vs ∧ t.kind = .symbol .comma ∧ S vs b) b
      (',' :: ' ' :: ds) clean' :=
    (h'.blank (c := ' ') (by decide)).behind rfl (by decide) (by simp)
      (by simpa using Symbol.punctuates_comma.goesOn ' ' (by decide)) fun t us ht hus => ⟨t, us, rfl, ht, hus⟩
  refine h.append hcomma (by simp; decide) ?_
  rintro ts _ hts ⟨t, us, rfl, ht, hus⟩
  exact hT ts us t hts ht hus

theorem enclosed {l r : Symbol} {lc rc : Char} (h : WrittenAs R a cs clean) (hl : l.Punctuates lc)
    (hr : r.Punctuates rc) (hrc : BreaksOff rc) :
    SpelledBy (Enclosed l r R) a (lc :: (cs ++ [rc])) clean := by
  have hcloser : SpelledBy (fun us (_ : Unit) => ∃ t : Item, us = [t] ∧ t.kind = .symbol r) () [rc] True :=
    .symbol hr fun t ht => ⟨t, rfl, ht⟩
  have hclosed : SpelledBy (fun us a => ∃ ts t, us = ts ++ [t] ∧ R ts a ∧ t.kind = .symbol r) a
      (cs ++ [rc]) (clean ∧ True) :=
    h.spelled.append hcloser (by simpa using hrc) fun ts us hts ⟨t, ht, hk⟩ => ⟨ts, t, by rw [ht], hts, hk⟩
  rw [and_true] at hclosed
  refine hclosed.behind hl.chars hl.ne_slash (by simp) ?_ ?_
  · rw [List.head?_append_of_ne_nil _ h.ne_nil]
    exact fun c hc => hl.goesOn c (h.forall_head c hc).2
  · rintro t _ ht ⟨ts, u, rfl, hts, hu⟩
    exact .mk ht hts hu

theorem brackets (h : WrittenAs R a cs clean) :
    SpelledBy (Enclosed .lBracket .rBracket R) a ('[' :: (cs ++ [']'])) clean :=
  h.enclosed Symbol.punctuates_lBracket Symbol.punctuates_rBracket (by decide)

end WrittenAs

theorem writtenAs_word {word : String} {kind : TokenKind} (hshape : hasAliasShape word.toList = true)
    (hkind : wordKind word = kind) (hR : ∀ t : Item, t.kind = kind → t.text = word → R [t] a) :
    WrittenAs R a word.toList True := by
  have hnil : SpelledBy (fun us (_ : Unit) => us = []) () [] True := .nil rfl
  have hword : WrittenAs R a (word.toList ++ []) True :=
    hnil.keyed (by simp) hshape hkind fun t us ht htext hus => hus ▸ hR t ht htext
  rwa [List.append_nil] at hword

end Phrase

end SchemaLang
