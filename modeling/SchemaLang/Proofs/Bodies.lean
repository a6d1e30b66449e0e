import Mathlib
import SchemaLang.Proofs.Streams
import SchemaLang.Proofs.Units

/-!
# Bodies are read whole

The members of a type are read as they are written, one behind the other, unless a property runs
into the next one.

* `Property.RunsInto p q`: the name of `q` belongs to `p` if it stands behind it.
* `Member.Apart`: no property of a body runs into the next one, nor does one of a relation body.

Main statement: a unit with one type is read without a problem and has just the members that are
written exactly if they are apart (`readUnit_iff_apart`). So not all bodies are read as they are written
(`not_forall_readUnit_members`).

To see that members are apart if all is read, what is read is compared with what is derived, from the
start of the body on: it ends at the same item each time, so the next member is where it should be.
-/

set_option autoImplicit false

namespace SchemaLang

open SchemaLang.Phrase

/-! ## Members that run into one another -/

/-- Behind a property without a modifier, a property named as one is taken for it. And `type Name`
with a property `extends` behind it is taken for the start of a declaration. -/
def Property.RunsInto {σ : Type} (p q : Property σ) : Prop :=
  p.modifier = .none ∧
    (q.name.text = Keyword.primaryWord.text ∨ q.name.text = Keyword.requiredWord.text ∨
      p.name.text = Keyword.typeWord.text ∧ (∃ n place, p.datatype = .named ⟨none, n, place⟩) ∧
        q.name.text = Keyword.extendsWord.text)

def Member.RunsInto {σ : Type} : Member σ → Member σ → Prop
  | .property p, .property q => p.RunsInto q
  | _, _ => False

/-- No property runs into the next one. -/
def Property.Apart {σ : Type} (ps : List (Property σ)) : Prop :=
  ps.IsChain fun p q => ¬ p.RunsInto q

/-- No member runs into the next one, and no property of a relation body does. -/
structure Member.Apart {σ : Type} (ms : List (Member σ)) : Prop where
  chain : ms.IsChain fun m n => ¬ m.RunsInto n
  bodies : ∀ a, .association a ∈ ms → ∀ b ∈ a.body, Property.Apart b.properties

variable {items : Items} {i j k : Nat}

/-- What stands behind a property is no part of it. -/
structure Property.EndsBefore (p : Property Unit) (k : TokenKind) : Prop where
  ends : k.Ends .lowest
  ne_assign : k ≠ .symbol .assign
  modifier : p.modifier = .none → k ∉ [.keyword .primaryWord, .keyword .requiredWord]
  ne_extends : p.modifier = .none → p.name.text = Keyword.typeWord.text →
    (∃ n, p.datatype = .named ⟨none, n, ()⟩) → k ≠ .keyword .extendsWord

theorem Property.Derives.ne_nil {ts : List Item} {p : Property Unit}
    (h : Property.Derives ts p) : ts ≠ [] := by
  cases h
  simp

theorem Member.Derives.ne_nil {lenient : Bool} {ts : List Item} {m : Member Unit}
    (h : Member.Derives lenient ts m) : ts ≠ [] := by
  rcases h with ⟨⟨⟩⟩ | ⟨⟨⟩⟩ | ⟨⟨⟩⟩ | ⟨⟨⟩⟩ <;> simp

theorem TokenKind.ends_of_namesProperty {k : TokenKind} (h : k.namesProperty = true) :
    k.Ends .lowest ∧ k ≠ .symbol .assign := by
  cases k with
  | lowerWord => exact ⟨by decide, nofun⟩
  | keyword w => cases w <;> first | exact ⟨by decide, nofun⟩ | cases h
  | _ => cases h

theorem Property.endsBefore_of_not_runsInto {p q : Property Unit} (hw : WellSpelled items)
    (hq : At Property.Derives items i q j) (h : ¬ p.RunsInto q) :
    p.EndsBefore (kindAt items i) := by
  obtain ⟨hn, d, k, m, -, -, rfl⟩ := Rule.at_property.1 hq
  have hends := TokenKind.ends_of_namesProperty hn
  refine ⟨hends.1, hends.2, fun hm hk => h ⟨hm, ?_⟩, fun hm ht hd hk => h ⟨hm, ?_⟩⟩
  · simp only [List.mem_cons, List.not_mem_nil, or_false] at hk
    rcases hk with hk | hk
    · exact .inl ((hw i).keyword _ hk)
    · exact .inr (.inl ((hw i).keyword _ hk))
  · obtain ⟨n, hd⟩ := hd
    exact .inr (.inr ⟨ht, ⟨n, (), hd⟩, (hw i).keyword _ hk⟩)

/-- A property name that is spelled as a keyword is that keyword. -/
theorem WellSpelled.kindAt_eq_keyword (hw : WellSpelled items) {w : Keyword}
    (hn : (kindAt items i).namesProperty = true) (ht : (itemAt items i).text = w.text) :
    kindAt items i = .keyword w := by
  cases hk : kindAt items i with
  | lowerWord =>
    have hc := (hw i).word (by rw [hk]; rfl)
    rw [ht] at hc
    exact absurd hc (by cases w <;> decide)
  | keyword v =>
    have hv := (hw i).keyword v hk
    rw [ht] at hv
    rw [Keyword.text_injective hv]
  | _ => simp [hk, TokenKind.namesProperty] at hn

theorem Property.not_runsInto_of_endsBefore {p q : Property Unit} (hw : WellSpelled items)
    (hq : At Property.Derives items i q j) (h : p.EndsBefore (kindAt items i)) :
    ¬ p.RunsInto q := by
  obtain ⟨hn, d, k, m, -, -, rfl⟩ := Rule.at_property.1 hq
  rintro ⟨hm, ht | ht | ⟨hp, ⟨n, _, hd⟩, ht⟩⟩
  · exact h.modifier hm (by simp [hw.kindAt_eq_keyword hn ht])
  · exact h.modifier hm (by simp [hw.kindAt_eq_keyword hn ht])
  · exact h.ne_extends hm hp ⟨n, hd⟩ (hw.kindAt_eq_keyword hn ht)

theorem Property.endsBefore_symbol {p : Property Unit} {s : Symbol}
    (h : s ∈ [.rBrace, .association, .composition, .bang]) : p.EndsBefore (.symbol s) := by
  have ends : (TokenKind.symbol s).Ends .lowest ∧ s ≠ .assign := by
    revert h
    cases s <;> decide
  exact ⟨ends.1, by simpa using ends.2, by simp, by simp⟩

namespace Rule

/-! ## Properties -/

/-- A property with a type name behind `type` is no declaration. -/
theorem atDeclaration_of_at_property {p : Property Unit} (hw : WellSpelled items)
    (h : At Property.Derives items i p j) (hp : p.EndsBefore (kindAt items j)) :
    atDeclaration items i = false := by
  obtain ⟨hn, d, k, m, hd, hm, rfl⟩ := at_property.1 h
  -- no datatype starts with the keyword `type`
  have hfirst : kindAt items (i + 1) ≠ .keyword .typeWord := by
    obtain ⟨ts, hs, hd⟩ := hd
    cases hd with
    | builtin _ hk _ => simp [hs.kindAt_head, hk]
    | named hr =>
      rcases at_typeRef.1 ⟨ts, hs, hr⟩ with ⟨hk, -, -⟩ | ⟨hq, -⟩
      · simp [hk]
      · intro hk
        have := hq.isWord
        simp [hk, TokenKind.isWord] at this
  unfold atDeclaration
  split
  · simp [hfirst]
  · simp [hfirst]
  · rename_i ht
    simp only [decide_eq_false_iff_not, not_and]
    intro hup hthird
    have hplain : ∃ n, d = .named ⟨none, n, ()⟩ ∧ k = i + 2 := by
      obtain ⟨ts, hs, hd⟩ := hd
      cases hd with
      | builtin _ hk _ => simp [hs.kindAt_head, hk] at hup
      | named hr =>
        rcases at_typeRef.1 ⟨ts, hs, hr⟩ with ⟨-, rfl, rfl⟩ | ⟨-, hdot, -⟩
        · exact ⟨_, rfl, rfl⟩
        · simp [hdot] at hthird
    obtain ⟨n, rfl, rfl⟩ := hplain
    obtain ⟨us, hs, hm⟩ := hm
    cases hm with
    | none =>
      obtain rfl : j = i + 2 := hs
      simp only [List.mem_cons, List.not_mem_nil, or_false] at hthird
      rcases hthird with hk | hk | hk
      · exact hp.ends.ne_lBrace hk
      · exact hp.ne_assign hk
      · exact hp.ne_extends rfl ((hw i).keyword _ ht) ⟨n, rfl⟩ hk
    | primary ht => simp [hs.kindAt_head, ht] at hthird
    | required ht => simp [hs.kindAt_head, ht] at hthird
  · rfl

theorem ne_extends_of_atDeclaration {p : Property Unit} (hw : WellSpelled items)
    (h : At Property.Derives items i p j) (hdecl : atDeclaration items i = false)
    (hm : p.modifier = .none) (ht : p.name.text = Keyword.typeWord.text)
    (hp : ∃ n, p.datatype = .named ⟨none, n, ()⟩) : kindAt items j ≠ .keyword .extendsWord := by
  intro hext
  obtain ⟨hn, d, k, m, ⟨ts, hs, hd⟩, hmod, rfl⟩ := at_property.1 h
  obtain ⟨n, rfl⟩ : ∃ n, d = .named ⟨none, n, ()⟩ := hp
  obtain rfl : m = .none := hm
  cases hd with
  | named hr =>
    rcases at_typeRef.1 ⟨ts, hs, hr⟩ with ⟨hup, -, rfl⟩ | ⟨-, -, -, he, -⟩
    · obtain rfl : j = i + 1 + 1 := by simpa using at_propertyModifier.1 hmod
      have htype := hw.kindAt_eq_keyword hn ht
      simp [atDeclaration, htype, hup, hext] at hdecl
    · simp at he

/-! ## Blocks -/

/-- An entry of a block is read if it is not taken for the end of the block. -/
def Enters {α β : Type} (entry : Rule α) (f : α → β) (items : Items) (i : Nat) (b : β) (k : Nat) :
    Prop :=
  kindAt items i ≠ .symbol .rBrace ∧ kindAt items i ≠ .endOfText ∧
    atDeclaration items i = false ∧ ∃ a, entry.Yields items i a k ∧ f a = b

/-- A block is read whole if each of its entries is, given what stands behind that. -/
theorem exists_yields_block {α β : Type} {entry : Rule α} {f : α → β} {R : Phrase β}
    {N : β → β → Prop} (what : Enclosure) (opened : Nat) {n : Nat} {bs : List β}
    (hR : ∀ {ts b}, R ts b → ts ≠ [])
    (hentry : ∀ {i k b rest}, b ∈ bs → At R items i b k → At (Many R) items k rest j →
      (∀ c ∈ rest.head?, N b c) → Enters entry f items i b k)
    (hj : kindAt items j = .symbol .rBrace) (hn : items.size ≤ n + i)
    (h : At (Many R) items i bs j) (hc : bs.IsChain N) :
    ∃ as, (block entry what opened n).Yields items i as (j + 1) ∧ as.map f = bs := by
  have hsize : j < items.size := lt_size_of_kindAt_ne (by simp [hj])
  obtain ⟨n, rfl⟩ : ∃ m, n = m + 1 := ⟨n - 1, by have := h.le; omega⟩
  induction bs generalizing i n with
  | nil =>
    obtain rfl : j = i := at_many_nil.1 h
    exact ⟨[], by simp [Yields, block, hj], rfl⟩
  | cons b bs ih =>
    rcases at_many.1 h with ⟨hb, -⟩ | ⟨b', rest, k, hb, hrest, he⟩
    · cases hb
    cases he
    obtain ⟨hhead, htail⟩ := List.isChain_cons.1 hc
    obtain ⟨hne, hne', hdecl, a, ha, rfl⟩ := hentry (List.mem_cons_self ..) hb hrest hhead
    have hlt := hb.lt hR
    have hle := hrest.le
    obtain ⟨n, rfl⟩ : ∃ m, n = m + 1 := ⟨n - 1, by omega⟩
    obtain ⟨as, has, rfl⟩ :=
      ih (fun hmem => hentry (List.mem_cons_of_mem _ hmem)) hrest htail n (by omega)
    exact ⟨a :: as, (yields_block_succ ha.not_silent).2
      (.inr ⟨hne, hne', hdecl, a, k, as, ha, has, rfl⟩), rfl⟩

/-- A block that is read as its entries are derived ends where they do, if each entry does so. What
this needs of an entry, and of an entry and the next one, holds of all. -/
theorem eq_of_yields_block {α β : Type} {entry : Rule α} {f : α → β} {R : Phrase β} {G : β → Prop}
    {N : β → β → Prop} {what : Enclosure} {opened n : Nat} {as : List α}
    (hs : ∀ i, ¬ entry.Silent items i)
    (hentry : ∀ {i k l a rest}, At R items i (f a) k → At (Many R) items k rest j →
      atDeclaration items i = false → entry.Yields items i a l →
        l = k ∧ G (f a) ∧ ∀ c ∈ rest.head?, N (f a) c)
    (h : At (Many R) items i (as.map f) j)
    (hy : (block entry what opened n).Yields items i as k) :
    k = j + 1 ∧ (∀ a ∈ as, G (f a)) ∧ (as.map f).IsChain N := by
  induction n generalizing i as with
  | zero => simp [block, Yields] at hy
  | succ n ih =>
    rcases (yields_block_succ (hs i)).1 hy with
      ⟨-, rfl, rfl⟩ | ⟨-, -, hdecl, a, l, as, ha, hrest, rfl⟩
    · obtain rfl : j = i := at_many_nil.1 h
      exact ⟨rfl, by simp, .nil⟩
    · rcases at_many.1 h with ⟨hnil, -⟩ | ⟨b, bs, l', hb, hbs, he⟩
      · cases hnil
      obtain ⟨rfl, rfl⟩ := List.cons.inj he
      obtain ⟨rfl, hg, hn⟩ := hentry hb hbs hdecl ha
      obtain ⟨hk, hgs, hc⟩ := ih hbs hrest
      exact ⟨hk, List.forall_mem_cons.2 ⟨hg, hgs⟩, List.isChain_cons.2 ⟨hn, hc⟩⟩

/-! ## Relation bodies -/

/-- Behind a property stands the name of the next one or the end of the body. -/
theorem many_property_cases {rest : List (Property Unit)}
    (h : At (Many Property.Derives) items k rest j) (hj : kindAt items j = .symbol .rBrace) :
    (rest.head? = none ∧ kindAt items k = .symbol .rBrace) ∨
      ∃ q l, rest.head? = some q ∧ At Property.Derives items k q l := by
  rcases at_many.1 h with ⟨rfl, rfl⟩ | ⟨q, rest, m, hq, -, rfl⟩
  · exact .inl ⟨rfl, hj⟩
  · exact .inr ⟨q, m, rfl, hq⟩

theorem endsBefore_of_many_property {p : Property Unit} {rest : List (Property Unit)}
    (hw : WellSpelled items) (h : At (Many Property.Derives) items k rest j)
    (hj : kindAt items j = .symbol .rBrace) (hp : ∀ q ∈ rest.head?, ¬ p.RunsInto q) :
    p.EndsBefore (kindAt items k) := by
  rcases many_property_cases h hj with ⟨-, hk⟩ | ⟨q, l, hq, hat⟩
  · rw [hk]
    exact Property.endsBefore_symbol (by decide)
  · exact Property.endsBefore_of_not_runsInto hw hat (hp q hq)

theorem ends_of_many_property {rest : List (Property Unit)}
    (h : At (Many Property.Derives) items k rest j) (hj : kindAt items j = .symbol .rBrace) :
    (kindAt items k).Ends .lowest ∧ kindAt items k ≠ .symbol .assign := by
  rcases many_property_cases h hj with ⟨-, hk⟩ | ⟨q, l, -, hat⟩
  · rw [hk]
    exact ⟨by decide, by simp⟩
  · exact TokenKind.ends_of_namesProperty (at_property.1 hat).1

theorem not_runsInto_of_many_property {p : Property Unit} {rest : List (Property Unit)}
    (hw : WellSpelled items) (h : At (Many Property.Derives) items k rest j)
    (hj : kindAt items j = .symbol .rBrace) (hp : p.EndsBefore (kindAt items k)) :
    ∀ q ∈ rest.head?, ¬ p.RunsInto q := by
  intro q hq
  rcases many_property_cases h hj with ⟨hn, -⟩ | ⟨q', l, hq', hat⟩
  · simp [hn] at hq
  · obtain rfl : q' = q := by simpa [hq'] using hq
    exact Property.not_runsInto_of_endsBefore hw hat hp

/-- What stands behind a property that is read as it is derived is no part of it. -/
theorem endsBefore_of_yields_property {p : Property Extent} {l : Nat} (hw : WellSpelled items)
    (h : property.Yields items i p l) (hp : At Property.Derives items i (p.map forget) k)
    (hdecl : atDeclaration items i = false)
    (hk : (kindAt items k).Ends .lowest ∧ kindAt items k ≠ .symbol .assign) :
    l = k ∧ (p.map forget).EndsBefore (kindAt items k) := by
  obtain ⟨hlk, hm⟩ := eq_of_yields_property h hp hk.1
  exact ⟨hlk, hk.1, hk.2, hm, ne_extends_of_atDeclaration hw hp hdecl⟩

theorem enters_edgeProperty {p : Property Unit} (hw : WellSpelled items)
    (h : At Property.Derives items i p k) (hp : p.EndsBefore (kindAt items k)) :
    Enters edgeProperty (Property.map forget) items i p k := by
  have hn := (at_property.1 h).1
  obtain ⟨q, hq, hqp⟩ := exists_yields_property h hp.ends hp.modifier
  refine ⟨?_, ?_, atDeclaration_of_at_property hw h hp, q, ?_, hqp⟩
  · intro hk
    simp [hk, TokenKind.namesProperty] at hn
  · intro hk
    simp [hk, TokenKind.namesProperty] at hn
  · simp [edgeProperty, hn, hq]

theorem exists_yields_relationBody {b : Option (RelationBody Unit)} (hw : WellSpelled items)
    (h : At (Optional RelationBody.Derives) items i b j) (hj : kindAt items j ≠ .symbol .lBrace)
    (hb : ∀ c ∈ b, Property.Apart c.properties) :
    ∃ c, relationBody.Yields items i c j ∧ c.map (RelationBody.map forget) = b := by
  simp [relationBody]
  rcases at_optional.1 h with ⟨rfl, rfl⟩ | ⟨b, ⟨ts, hts, ⟨he⟩⟩, rfl⟩
  · exact ⟨none, .inr ⟨hj, rfl, rfl⟩, rfl⟩
  · obtain ⟨h0, k, hps, hk, rfl⟩ := at_enclosed.1 ⟨ts, hts, he⟩
    obtain ⟨qs, hqs, rfl⟩ := exists_yields_block (f := Property.map forget)
      (n := items.size - (i + 1)) .relationBody i Property.Derives.ne_nil
      (fun _ hp hrest hhead =>
        enters_edgeProperty hw hp (endsBefore_of_many_property hw hrest hk hhead))
      hk (by omega) hps (hb _ rfl)
    exact ⟨_, .inl ⟨h0, qs, hqs, rfl⟩, rfl⟩

theorem eq_of_yields_relationBody {b : Option (RelationBody Extent)} {l : Nat}
    (hw : WellSpelled items) (hi : NoInvalid items) (h : relationBody.Yields items i b l)
    (hb : At (Optional RelationBody.Derives) items i (b.map (RelationBody.map forget)) j)
    (hj : kindAt items j ≠ .symbol .lBrace) :
    l = j ∧ ∀ c ∈ b.map (RelationBody.map forget), Property.Apart c.properties := by
  simp [relationBody] at h
  rcases h with ⟨h0, ps, hps, rfl⟩ | ⟨h0, rfl, rfl⟩
  · rcases at_optional.1 hb with ⟨hn, -⟩ | ⟨b, ⟨ts, hts, ⟨he⟩⟩, hbs⟩
    · cases hn
    cases hbs
    obtain ⟨-, k, hat, hk, rfl⟩ := at_enclosed.1 ⟨ts, hts, he⟩
    obtain ⟨rfl, -, hc⟩ := eq_of_yields_block (f := Property.map forget) (G := fun _ => True)
      (N := fun p q => ¬ p.RunsInto q) (fun _ => not_silent_edgeProperty hi)
      (fun hp hrest hdecl hy => by
        simp [edgeProperty] at hy
        obtain ⟨rfl, hends⟩ :=
          endsBefore_of_yields_property hw hy.2 hp hdecl (ends_of_many_property hrest hk)
        exact ⟨rfl, trivial, not_runsInto_of_many_property hw hrest hk hends⟩)
      hat hps
    refine ⟨rfl, fun c hc' => ?_⟩
    cases hc'
    exact hc
  · rcases at_optional.1 hb with ⟨-, rfl⟩ | ⟨b, -, hbs⟩
    · exact ⟨rfl, by simp⟩
    · cases hbs

/-! ## Relations -/

/-- What stands behind the name of a relation, up to its reverse edge. -/
theorem exists_yields_target {m : Multiplicity} {target : TypeRef Unit}
    {reverse : Option (ReverseEdge Unit)} {k1 k2 : Nat} (hm : At Multiplicity.Derives items i m k1)
    (ht : At TypeRef.Derives items k1 target k2)
    (hr : At (Optional ReverseEdge.Derives) items k2 reverse j)
    (hdot : kindAt items j ≠ .symbol .dot) (hslash : kindAt items j ≠ .symbol .slash)
    (hparen : kindAt items j ≠ .symbol .lParen) :
    multiplicity.Yields items i m k1 ∧
      (∃ t, typeRef.Yields items k1 t k2 ∧ t.map forget = target) ∧
      ∃ r, reverseEdge.Yields items k2 r j ∧ r.map (ReverseEdge.map forget) = reverse := by
  refine ⟨yields_multiplicity.2 ⟨hm, ?_⟩, exists_yields_typeRef ht ?_,
    exists_yields_reverseEdge hr hslash hparen⟩
  · rintro rfl hk
    rcases at_typeRef.1 ht with ⟨hn, -⟩ | ⟨hq, -⟩
    · simp [hk] at hn
    · have := hq.isWord
      simp [hk, TokenKind.isWord] at this
  · rcases at_optional.1 hr with ⟨-, rfl⟩ | ⟨r, hr, -⟩
    · exact hdot
    · simp [(at_reverseEdge.1 hr).1]

/-- An association as it is derived, with its parts read up to the body. -/
theorem exists_yields_before_relationBody {a : Association Unit}
    (h : At Association.Derives items i a j) (hj : (kindAt items j).Ends .lowest) :
    kindAt items i = .symbol .association ∧ (kindAt items (i + 1)).isWord = true ∧
      ∃ m k1 t k2 r k3 body, multiplicity.Yields items (i + 2) m k1 ∧
        typeRef.Yields items k1 t k2 ∧ reverseEdge.Yields items k2 r k3 ∧
        At (Optional RelationBody.Derives) items k3 body j ∧
        a = ⟨(itemAt items i).doc, ⟨(itemAt items (i + 1)).text, ()⟩, m, t.map forget,
          r.map (ReverseEdge.map forget), body, ()⟩ := by
  obtain ⟨_, hs, @⟨_, _, _, _, _, _, m, _, _, body, ha, hn, hm, ht, hr, hbody⟩⟩ := h
  obtain ⟨h0, h1, hs⟩ := hs
  obtain ⟨k3, hs, hws⟩ := stretch_append.1 hs
  obtain ⟨k2, hs, hvs⟩ := stretch_append.1 hs
  obtain ⟨k1, hts, hus⟩ := stretch_append.1 hs
  -- behind the reverse edge comes the body or what stands behind the association
  have hk3 : kindAt items k3 = .symbol .lBrace ∨ k3 = j := by
    rcases at_optional.1 ⟨_, hws, hbody⟩ with ⟨-, hk⟩ | ⟨_, ⟨_, hs, ⟨he⟩⟩, -⟩
    · exact .inr hk.symm
    · exact .inl (at_enclosed.1 ⟨_, hs, he⟩).1
  have hdot : kindAt items k3 ≠ .symbol .dot ∧ kindAt items k3 ≠ .symbol .slash ∧
      kindAt items k3 ≠ .symbol .lParen := by
    rcases hk3 with hk | rfl
    · simp [hk]
    · exact ⟨hj.ne_dot, hj.ne_slash, hj.ne_lParen⟩
  obtain ⟨hym, ⟨t, hyt, rfl⟩, r, hyr, rfl⟩ :=
    exists_yields_target ⟨_, hts, hm⟩ ⟨_, hus, ht⟩ ⟨_, hvs, hr⟩ hdot.1 hdot.2.1 hdot.2.2
  refine ⟨by rw [kindAt_of_getElem? h0, ha], by rwa [kindAt_of_getElem? h1], m, k1, t, k2, r, k3,
    body, hym, hyt, hyr, ⟨_, hws, hbody⟩, ?_⟩
  rw [itemAt_of_getElem? h0, itemAt_of_getElem? h1]

theorem exists_yields_association {a : Association Unit} (hw : WellSpelled items)
    (h : At Association.Derives items i a j) (hj : (kindAt items j).Ends .lowest)
    (hb : ∀ b ∈ a.body, Property.Apart b.properties) :
    kindAt items i = .symbol .association ∧
      ∃ c, association.Yields items i c j ∧ c.map forget = a := by
  obtain ⟨h0, h1, m, k1, t, k2, r, k3, body, hm, ht, hr, hbody, rfl⟩ :=
    exists_yields_before_relationBody h hj
  obtain ⟨b, hyb, rfl⟩ := exists_yields_relationBody hw hbody hj.ne_lBrace hb
  refine ⟨h0, ⟨(itemAt items i).doc, ⟨(itemAt items (i + 1)).text, .single (i + 1)⟩, m, t, r, b,
    ⟨i, j - 1⟩⟩, ?_, rfl⟩
  simp [association, isRelationName]
  exact ⟨h1, k1, hm, k2, ht, k3, hr, hyb⟩

theorem eq_of_yields_association {a : Association Extent} {l : Nat} (hw : WellSpelled items)
    (hi : NoInvalid items) (h : association.Yields items i a l)
    (ha : At Association.Derives items i (a.map forget) j) (hj : (kindAt items j).Ends .lowest) :
    l = j ∧ ∀ b ∈ (a.map forget).body, Property.Apart b.properties := by
  simp [association, isRelationName] at h
  obtain ⟨-, m, k1, hm, t, k2, ht, r, k3, hr, body, hb, rfl⟩ := h
  obtain ⟨-, -, m', k1', t', k2', r', k3', body', hm', ht', hr', hb', he⟩ :=
    exists_yields_before_relationBody ha hj
  obtain ⟨-, rfl⟩ := hm.unique hm'
  obtain ⟨-, rfl⟩ := ht.unique ht'
  obtain ⟨-, rfl⟩ := hr.unique hr'
  obtain rfl : body.map (RelationBody.map forget) = body' := congrArg Association.body he
  exact eq_of_yields_relationBody hw hi hb hb' hj.ne_lBrace

theorem exists_yields_composition {c : Composition Unit}
    (h : At Composition.Derives items i c j) (hj : (kindAt items j).Ends .lowest) :
    kindAt items i = .symbol .composition ∧
      ∃ d, composition.Yields items i d j ∧ d.map forget = c := by
  obtain ⟨_, hs, @⟨_, _, _, _, _, m, _, _, ha, hn, hm, ht, hr⟩⟩ := h
  obtain ⟨h0, h1, hs⟩ := hs
  obtain ⟨k2, hs, hvs⟩ := stretch_append.1 hs
  obtain ⟨k1, hts, hus⟩ := stretch_append.1 hs
  obtain ⟨hym, ⟨t, hyt, rfl⟩, r, hyr, rfl⟩ := exists_yields_target ⟨_, hts, hm⟩ ⟨_, hus, ht⟩
    ⟨_, hvs, hr⟩ hj.ne_dot hj.ne_slash hj.ne_lParen
  refine ⟨by rw [kindAt_of_getElem? h0, ha], ⟨(itemAt items i).doc,
    ⟨(itemAt items (i + 1)).text, .single (i + 1)⟩, m, t, r, ⟨i, j - 1⟩⟩, ?_, ?_⟩
  · simp [composition, isRelationName]
    exact ⟨by rwa [kindAt_of_getElem? h1], k1, hym, k2, hyt, hyr, hj.ne_lBrace⟩
  · simp [Composition.map, itemAt_of_getElem? h0, itemAt_of_getElem? h1, Name.map, forget]

theorem exists_yields_invariant {v : Invariant Unit}
    (h : At (Invariant.Derives true) items i v j) (hj : (kindAt items j).Ends .lowest) :
    kindAt items i = .symbol .bang ∧ ∃ w, invariant.Yields items i w j ∧ w.map forget = v := by
  obtain ⟨_, hs, ⟨hb, hm, he⟩⟩ := h
  obtain ⟨h0, h1, hs⟩ := hs
  obtain ⟨e, hye, rfl⟩ := exists_yields_expression ⟨_, hs, he⟩ hj
  refine ⟨by rw [kindAt_of_getElem? h0, hb], ⟨stringValue (itemAt items (i + 1)).text, e,
    ⟨i, j - 1⟩⟩, ?_, ?_⟩
  · simp [invariant]
    exact ⟨by rw [kindAt_of_getElem? h1, hm], hye⟩
  · simp [Invariant.map, itemAt_of_getElem? h1, forget]

/-! ## Members -/

/-- Behind a member stands a property, or one of the symbols that start a member or end the body. -/
theorem many_member_cases {rest : List (Member Unit)}
    (h : At (Many (Member.Derives true)) items k rest j) (hj : kindAt items j = .symbol .rBrace) :
    ((∀ q, rest.head? ≠ some (.property q)) ∧
        ∃ s ∈ [Symbol.rBrace, .association, .composition, .bang], kindAt items k = .symbol s) ∨
      ∃ q l, rest.head? = some (.property q) ∧ At Property.Derives items k q l := by
  rcases at_many.1 h with ⟨rfl, rfl⟩ | ⟨n, rest, l, ⟨ts, hs, hn⟩, -, rfl⟩
  · exact .inl ⟨nofun, .rBrace, by decide, hj⟩
  · cases hn with
    | property hq => exact .inr ⟨_, l, rfl, ts, hs, hq⟩
    | association ha =>
      obtain ⟨ha, -⟩ := ha
      exact .inl ⟨nofun, .association, by decide, by rw [hs.kindAt_head, ha]⟩
    | composition hc =>
      obtain ⟨hc, -⟩ := hc
      exact .inl ⟨nofun, .composition, by decide, by rw [hs.kindAt_head, hc]⟩
    | invariant hv =>
      obtain ⟨hb, -⟩ := hv
      exact .inl ⟨nofun, .bang, by decide, by rw [hs.kindAt_head, hb]⟩

theorem ends_of_many_member {rest : List (Member Unit)}
    (h : At (Many (Member.Derives true)) items k rest j) (hj : kindAt items j = .symbol .rBrace) :
    (kindAt items k).Ends .lowest ∧ kindAt items k ≠ .symbol .assign := by
  rcases many_member_cases h hj with ⟨-, s, hs, hk⟩ | ⟨q, l, -, hat⟩
  · rw [hk]
    revert hs
    cases s <;> decide
  · exact TokenKind.ends_of_namesProperty (at_property.1 hat).1

theorem endsBefore_of_many_member {p : Property Unit} {rest : List (Member Unit)}
    (hw : WellSpelled items) (h : At (Many (Member.Derives true)) items k rest j)
    (hj : kindAt items j = .symbol .rBrace)
    (hp : ∀ n ∈ rest.head?, ¬ (Member.property p).RunsInto n) : p.EndsBefore (kindAt items k) := by
  rcases many_member_cases h hj with ⟨-, s, hs, hk⟩ | ⟨q, l, hq, hat⟩
  · rw [hk]
    exact Property.endsBefore_symbol hs
  · exact Property.endsBefore_of_not_runsInto hw hat (hp _ hq)

theorem not_runsInto_of_many_member {p : Property Unit} {rest : List (Member Unit)}
    (hw : WellSpelled items) (h : At (Many (Member.Derives true)) items k rest j)
    (hj : kindAt items j = .symbol .rBrace) (hp : p.EndsBefore (kindAt items k)) :
    ∀ n ∈ rest.head?, ¬ (Member.property p).RunsInto n := by
  intro n hn
  rcases many_member_cases h hj with ⟨hq, -⟩ | ⟨q, l, hq, hat⟩
  · cases n with
    | property q => exact absurd hn (hq q)
    | _ => exact id
  · obtain rfl : .property q = n := by simpa [hq] using hn
    exact Property.not_runsInto_of_endsBefore hw hat hp

theorem enters_typeMember {m : Member Unit} (hw : WellSpelled items)
    (h : At (Member.Derives true) items i m k) (hends : (kindAt items k).Ends .lowest)
    (hp : ∀ p, m = .property p → p.EndsBefore (kindAt items k))
    (hb : ∀ a, m = .association a → ∀ b ∈ a.body, Property.Apart b.properties) :
    Enters typeMember (Member.map forget) items i m k := by
  obtain ⟨ts, hs, hm⟩ := h
  cases hm with
  | property hq =>
    obtain ⟨hne, hend, hdecl, q, hyq, rfl⟩ := enters_edgeProperty hw ⟨ts, hs, hq⟩ (hp _ rfl)
    simp [edgeProperty] at hyq
    refine ⟨hne, hend, hdecl, .property q, ?_, rfl⟩
    simp only [typeMember, yields_peekKind_bind]
    split <;> simp_all [TokenKind.namesProperty]
  | association ha =>
    obtain ⟨hk, c, hyc, rfl⟩ := exists_yields_association hw ⟨ts, hs, ha⟩ hends (hb _ rfl)
    exact ⟨by simp [hk], by simp [hk], by simp [atDeclaration, hk], .association c,
      by simp [typeMember, hk, hyc], rfl⟩
  | composition hc =>
    obtain ⟨hk, c, hyc, rfl⟩ := exists_yields_composition ⟨ts, hs, hc⟩ hends
    exact ⟨by simp [hk], by simp [hk], by simp [atDeclaration, hk], .composition c,
      by simp [typeMember, hk, hyc], rfl⟩
  | invariant hv =>
    obtain ⟨hk, c, hyc, rfl⟩ := exists_yields_invariant ⟨ts, hs, hv⟩ hends
    exact ⟨by simp [hk], by simp [hk], by simp [atDeclaration, hk], .invariant c,
      by simp [typeMember, hk, hyc], rfl⟩

/-- A member that is read as it is derived ends where it should, and does not run into the next
one. -/
theorem eq_of_yields_typeMember {m : Member Extent} {rest : List (Member Unit)} {l : Nat}
    (hw : WellSpelled items) (hi : NoInvalid items)
    (hm : At (Member.Derives true) items i (m.map forget) k)
    (hrest : At (Many (Member.Derives true)) items k rest j)
    (hj : kindAt items j = .symbol .rBrace) (hdecl : atDeclaration items i = false)
    (h : typeMember.Yields items i m l) :
    l = k ∧
      (∀ a, m.map forget = .association a → ∀ b ∈ a.body, Property.Apart b.properties) ∧
        ∀ n ∈ rest.head?, ¬ (m.map forget).RunsInto n := by
  have hk := ends_of_many_member hrest hj
  obtain ⟨ts, hs, hm⟩ := hm
  simp only [typeMember, yields_peekKind_bind] at h
  split at h
  · simp at h
    obtain ⟨a, ha, rfl⟩ := h
    cases hm with
    | association hd =>
      obtain ⟨rfl, hb⟩ := eq_of_yields_association hw hi ha ⟨ts, hs, hd⟩ hk.1
      exact ⟨rfl, fun _ he => by cases he; exact hb, fun _ _ => id⟩
  · simp at h
    obtain ⟨c, hc, rfl⟩ := h
    cases hm with
    | composition hd =>
      obtain ⟨-, c', hc', -⟩ := exists_yields_composition ⟨ts, hs, hd⟩ hk.1
      exact ⟨(hc.unique hc').2, nofun, fun _ _ => id⟩
  · simp at h
    obtain ⟨v, hv, rfl⟩ := h
    cases hm with
    | invariant hd =>
      obtain ⟨-, v', hv', -⟩ := exists_yields_invariant ⟨ts, hs, hd⟩ hk.1
      exact ⟨(hv.unique hv').2, nofun, fun _ _ => id⟩
  · simp at h
    obtain ⟨-, p, hp, rfl⟩ := h
    cases hm with
    | property hd =>
      obtain ⟨rfl, hends⟩ := endsBefore_of_yields_property hw hp ⟨ts, hs, hd⟩ hdecl hk
      exact ⟨rfl, nofun, not_runsInto_of_many_member hw hrest hj hends⟩

/-- The members of a type are read if they are apart. -/
theorem exists_yields_typeBody (name : String) (opened : Nat) {ms : List (Member Unit)}
    (hw : WellSpelled items) (h : At (Many (Member.Derives true)) items i ms j)
    (hj : kindAt items j = .symbol .rBrace) (hm : Member.Apart ms) :
    ∃ ns, (typeBody name opened).Yields items i ns (j + 1) ∧ ns.map (Member.map forget) = ms := by
  obtain ⟨ns, hns, hmap⟩ := exists_yields_block (f := Member.map forget) (n := items.size - i)
    (.typeBody name) opened Member.Derives.ne_nil
    (fun hmem hat hrest hhead => enters_typeMember hw hat (ends_of_many_member hrest hj).1
      (fun p hp => endsBefore_of_many_member hw hrest hj (hp ▸ hhead))
      fun a ha => hm.bodies a (ha ▸ hmem))
    hj (by omega) h hm.chain
  exact ⟨ns, yields_remaining_bind.2 hns, hmap⟩

/-- They are read as they are derived only then. -/
theorem apart_of_yields_typeBody {name : String} {opened l : Nat} {ns : List (Member Extent)}
    (hw : WellSpelled items) (hi : NoInvalid items)
    (h : At (Many (Member.Derives true)) items i (ns.map (Member.map forget)) j)
    (hj : kindAt items j = .symbol .rBrace) (hns : (typeBody name opened).Yields items i ns l) :
    Member.Apart (ns.map (Member.map forget)) := by
  obtain ⟨-, hb, hc⟩ := eq_of_yields_block (f := Member.map forget)
    (G := fun m => ∀ a, m = .association a → ∀ b ∈ a.body, Property.Apart b.properties)
    (N := fun m n => ¬ m.RunsInto n) (fun _ => not_silent_typeMember hi)
    (fun hm hrest hdecl hy => eq_of_yields_typeMember hw hi hm hrest hj hdecl hy)
    h (yields_remaining_bind.1 hns)
  refine ⟨hc, fun a ha => ?_⟩
  obtain ⟨m, hm, he⟩ := List.mem_map.1 ha
  exact hb m hm a he

/-- A declaration `type Name` with members that are apart. -/
theorem exists_yields_declaration {ms : List (Member Unit)} (hw : WellSpelled items)
    (h0 : kindAt items i = .keyword .typeWord) (h1 : kindAt items (i + 1) = .upperWord)
    (h2 : kindAt items (i + 2) = .symbol .lBrace)
    (h : At (Many (Member.Derives true)) items (i + 3) ms j)
    (hj : kindAt items j = .symbol .rBrace) (hm : Member.Apart ms) :
    ∃ d, declaration.Yields items i d (j + 1) ∧
      d.map forget = .type ⟨(itemAt items i).doc, ⟨(itemAt items (i + 1)).text, ()⟩, .none, [], ms,
        ()⟩ := by
  obtain ⟨ns, hns, rfl⟩ := exists_yields_typeBody (itemAt items (i + 1)).text (i + 2) hw h hj hm
  refine ⟨.type ⟨(itemAt items i).doc, ⟨(itemAt items (i + 1)).text, .single (i + 1)⟩, .none, [], ns,
    ⟨i, j⟩⟩, ?_, rfl⟩
  simp [declaration, typeModifier, h0, yields_declarationName, h1]
  have h2' : kindAt items (i + 1 + 1) = .symbol .lBrace := h2
  simp [h2', parents]
  exact hns

theorem apart_of_yields_declaration {d : Declaration Extent} {ms : List (Member Unit)} {l : Nat}
    (hw : WellSpelled items) (hi : NoInvalid items) (h0 : kindAt items i = .keyword .typeWord)
    (h1 : kindAt items (i + 1) = .upperWord) (h2 : kindAt items (i + 2) = .symbol .lBrace)
    (h : At (Many (Member.Derives true)) items (i + 3) ms j)
    (hj : kindAt items j = .symbol .rBrace) (hd : declaration.Yields items i d l)
    (hms : ∃ doc name, d.map forget = .type ⟨doc, name, .none, [], ms, ()⟩) : Member.Apart ms := by
  have h2' : kindAt items (i + 1 + 1) = .symbol .lBrace := h2
  simp [declaration, typeModifier, h0, yields_declarationName, h1, h2', parents] at hd
  obtain ⟨ns, hns, rfl⟩ := hd
  obtain ⟨doc, name, he⟩ := hms
  obtain rfl : ns.map (Member.map forget) = ms := by
    simp [Declaration.map, TypeDecl.map] at he
    exact he.2.2
  exact apart_of_yields_typeBody hw hi h hj hns

end Rule

/-! ## Units -/

/-- The items of a unit with one type. Those of its members end before item `j`. -/
structure HoldsType (items : Items) (ms : List (Member Unit)) (j : Nat) : Prop where
  schemaWord : kindAt items 0 = .keyword .schemaWord
  unitName : kindAt items 1 = .stringLit
  typeWord : kindAt items 2 = .keyword .typeWord
  typeName : kindAt items 3 = .upperWord
  lBrace : kindAt items 4 = .symbol .lBrace
  members : At (Many (Member.Derives true)) items 5 ms j
  rBrace : kindAt items j = .symbol .rBrace
  ending : kindAt items (j + 1) = .endOfText

namespace HoldsType

variable {ms : List (Member Unit)} (h : HoldsType items ms j)

include h

theorem yields_header :
    Rule.header.Yields items 0
      ⟨stringValue (itemAt items 1).text, some ⟨0, 1⟩, (itemAt items 0).doc⟩ 2 :=
  Rule.yields_header h.schemaWord h.unitName

/-- The body of the unit is read from its first declaration on. -/
theorem exists_wholeBody_eq : ∃ n, wholeBody items = unitBody items (n + 2) .empty false 2 := by
  have hsize : j < items.size := lt_size_of_kindAt_ne (by simp [h.rBrace])
  have hle := h.members.le
  refine ⟨items.size - 2, ?_⟩
  rw [wholeBody, h.yields_header, show items.size - 2 + 2 = items.size by omega]

theorem readUnit_of_apart (hw : WellSpelled items) (ha : Member.Apart ms) :
    (readUnit items).2 = [] ∧ (readUnit items).1.map forget =
      ⟨stringValue (itemAt items 1).text, some (), (itemAt items 0).doc, [],
        [.type ⟨(itemAt items 2).doc, ⟨(itemAt items 3).text, ()⟩, .none, [], ms, ()⟩], ()⟩ := by
  obtain ⟨d, hd, hmap⟩ := Rule.exists_yields_declaration hw h.typeWord h.typeName h.lBrace
    h.members h.rBrace ha
  obtain ⟨n, hbody⟩ := h.exists_wholeBody_eq
  have hentry : Rule.entry.Yields items 2 (.declaration d) (j + 1) := by
    simp [Rule.entry, h.typeWord, hd]
  have hrun : unitBody items (n + 2) .empty false 2 = ⟨[], [d], [], j + 1⟩ := by
    rw [unitBody, if_neg (by simp [h.typeWord]), hentry]
    simp [unitBody, h.ending, UnitBody.empty, UnitBody.addDeclaration, UnitBody.addProblems]
  unfold readUnit
  rw [h.yields_header, hbody, hrun]
  exact ⟨rfl, by simp [SchemaUnit.map, hmap, forget]⟩

theorem apart_of_readUnit (hw : WellSpelled items) (hi : NoInvalid items)
    (hp : (readUnit items).2 = [])
    (hu : ∃ doc name, ((readUnit items).1.map forget).declarations =
      [.type ⟨doc, name, .none, [], ms, ()⟩]) : Member.Apart ms := by
  obtain ⟨n, hbody⟩ := h.exists_wholeBody_eq
  unfold readUnit at hp hu
  rw [hbody, unitBody, if_neg (by simp [h.typeWord])] at hp hu
  obtain ⟨v, l, ps, he⟩ : ∃ v l ps, Rule.entry items 2 = ⟨v, l, ps⟩ := ⟨_, _, _, rfl⟩
  rw [he] at hp hu
  cases v with
  | none =>
    simp only [UnitBody.addProblems, List.append_eq_nil_iff] at hp
    exact absurd ⟨by rw [he], by rw [he]; exact hp.2.1⟩ (Rule.not_silent_entry (i := 2) hi)
  | some e =>
    cases e with
    | import_ d =>
      simp only [UnitBody.addProblems, List.append_eq_nil_iff] at hp
      obtain ⟨-, ⟨⟨rfl, -⟩, -⟩, -⟩ := hp
      have hentry : Rule.entry.Yields items 2 (.import_ d) l := he
      simp [Rule.entry, h.typeWord] at hentry
    | declaration d =>
      simp only [UnitBody.addProblems, List.append_eq_nil_iff] at hp
      obtain ⟨-, rfl, -⟩ := hp
      have hentry : Rule.entry.Yields items 2 (.declaration d) l := he
      simp [Rule.entry, h.typeWord] at hentry
      obtain ⟨doc, name, hu⟩ := hu
      simp only [SchemaUnit.map, UnitBody.addProblems, UnitBody.addDeclaration, List.map_cons,
        List.cons.injEq] at hu
      exact Rule.apart_of_yields_declaration hw hi h.typeWord h.typeName h.lBrace h.members h.rBrace
        hentry ⟨doc, name, hu.1⟩

end HoldsType

/-- **Exactness of bodies.** A unit with one type is read without a problem, and as the unit with the
members it is written with, exactly if these are apart. That holds in both grammars. -/
theorem readUnit_iff_apart (lenient : Bool) (s n t c l r e : Item) (ts : List Item)
    (ms : List (Member Unit))
    (hs : s.kind = .keyword .schemaWord) (hn : n.kind = .stringLit)
    (ht : t.kind = .keyword .typeWord) (hc : c.kind = .upperWord) (hl : l.kind = .symbol .lBrace)
    (hm : Many (Member.Derives lenient) ts ms) (hr : r.kind = .symbol .rBrace)
    (he : e.kind = .endOfText)
    (hw : WellSpelled (s :: n :: t :: c :: l :: (ts ++ [r, e])).toArray) :
    ((readUnit (s :: n :: t :: c :: l :: (ts ++ [r, e])).toArray).2 = [] ∧
      (readUnit (s :: n :: t :: c :: l :: (ts ++ [r, e])).toArray).1.map forget =
        ⟨stringValue n.text, some (), s.doc, [],
          [.type ⟨t.doc, ⟨c.text, ()⟩, .none, [], ms, ()⟩], ()⟩) ↔ Member.Apart ms := by
  replace hm : Many (Member.Derives true) ts ms := hm.imp fun _ _ => Member.Derives.toLenient
  have hall := stretch_toArray [] (s :: n :: t :: c :: l :: (ts ++ [r, e])) []
  have hi : NoInvalid (s :: n :: t :: c :: l :: (ts ++ [r, e])).toArray := by
    refine noInvalid_toArray fun x hx => ?_
    have hms : Legible ts := isLegible_member.many _ _ hm
    simp only [List.mem_cons, List.mem_append, List.not_mem_nil, or_false] at hx
    rcases hx with rfl | rfl | rfl | rfl | rfl | hx | rfl | rfl
    all_goals first
      | exact fun hx' => hms _ hx (by simp [hx'])
      | simp [*]
  rw [List.nil_append, List.append_nil] at hall
  generalize (s :: n :: t :: c :: l :: (ts ++ [r, e])).toArray = items at hw hi hall ⊢
  obtain ⟨h0, h1, h2, h3, h4, hrest⟩ : items[0]? = some s ∧ items[1]? = some n ∧
    items[2]? = some t ∧ items[3]? = some c ∧ items[4]? = some l ∧ Stretch items 5 (ts ++ [r, e]) _ :=
      hall
  obtain ⟨k, hts, h5, h6, -⟩ := stretch_append.1 hrest
  have h : HoldsType items ms k :=
    ⟨(kindAt_of_getElem? h0).trans hs, (kindAt_of_getElem? h1).trans hn,
      (kindAt_of_getElem? h2).trans ht, (kindAt_of_getElem? h3).trans hc,
      (kindAt_of_getElem? h4).trans hl, ⟨ts, hts, hm⟩, (kindAt_of_getElem? h5).trans hr,
      (kindAt_of_getElem? h6).trans he⟩
  rw [← itemAt_of_getElem? h0, ← itemAt_of_getElem? h1, ← itemAt_of_getElem? h2,
    ← itemAt_of_getElem? h3]
  constructor
  · rintro ⟨hp, hu⟩
    exact h.apart_of_readUnit hw hi hp ⟨_, _, congrArg SchemaUnit.declarations hu⟩
  · exact h.readUnit_of_apart hw

/-- A property that is a date. -/
theorem Property.derives_date {n t : Item} (hn : n.kind.namesProperty = true)
    (ht : t.kind = .builtin .date) :
    Property.Derives [n, t] ⟨n.doc, ⟨n.text, ()⟩, .builtin .date (), .none, ()⟩ :=
  @Property.Derives.mk n [t] [] _ _ hn
    (.builtin (R := fun _ _ => False) (fun _ _ h => h.elim) ht .date) .none

/-- A property `type` with `extends` behind it, a relation with a body, and an invariant. -/
def apartText : String :=
  "schema\"\"type T\x7b\ntype Date\nextends Date\n-->P Q\x7bx Date\x7d\n!\"\"y\n\x7d"

theorem itemsOf_apartText :
    itemsOf (tokenize apartText).1 =
      (⟨.keyword .schemaWord, "schema", none, true⟩ :: ⟨.stringLit, "\"\"", none, false⟩ ::
        ⟨.keyword .typeWord, "type", none, false⟩ :: ⟨.upperWord, "T", none, false⟩ ::
        ⟨.symbol .lBrace, "\x7b", none, false⟩ ::
        ([⟨.keyword .typeWord, "type", none, true⟩, ⟨.builtin .date, "Date", none, false⟩,
          ⟨.keyword .extendsWord, "extends", none, true⟩, ⟨.builtin .date, "Date", none, false⟩,
          ⟨.symbol .association, "-->", none, true⟩, ⟨.upperWord, "P", none, false⟩,
          ⟨.upperWord, "Q", none, false⟩, ⟨.symbol .lBrace, "\x7b", none, false⟩,
          ⟨.lowerWord, "x", none, false⟩, ⟨.builtin .date, "Date", none, false⟩,
          ⟨.symbol .rBrace, "\x7d", none, false⟩, ⟨.symbol .bang, "!", none, true⟩,
          ⟨.stringLit, "\"\"", none, false⟩, ⟨.lowerWord, "y", none, false⟩] ++
        [⟨.symbol .rBrace, "\x7d", none, true⟩, ⟨.endOfText, "", none, false⟩])).toArray := by
  decide +kernel

theorem readUnit_iff_apart_apartText :
    let date (name : String) : Property Unit := ⟨none, ⟨name, ()⟩, .builtin .date (), .none, ()⟩
    (readUnit (itemsOf (tokenize apartText).1)).2 = [] ∧
      (readUnit (itemsOf (tokenize apartText).1)).1.map forget =
        ⟨"", some (), none, [], [.type ⟨none, ⟨"T", ()⟩, .none, [],
          [.property (date "type"), .property (date "extends"),
            .association ⟨none, ⟨"P", ()⟩, .optionalOne, ⟨none, ⟨"Q", ()⟩, ()⟩, none,
              some ⟨[date "x"], ()⟩, ()⟩,
            .invariant ⟨"", .property "y" (), ()⟩], ()⟩], ()⟩ := by
  intro date
  have hw := wellSpelled_itemsOf apartText
  rw [itemsOf_apartText] at hw ⊢
  have property : Many Property.Derives [⟨.lowerWord, "x", none, false⟩,
      ⟨.builtin .date, "Date", none, false⟩] [date "x"] :=
    .cons (Property.derives_date rfl rfl) .nil
  have body : RelationBody.Derives [⟨.symbol .lBrace, "\x7b", none, false⟩,
      ⟨.lowerWord, "x", none, false⟩, ⟨.builtin .date, "Date", none, false⟩,
      ⟨.symbol .rBrace, "\x7d", none, false⟩] ⟨[date "x"], ()⟩ :=
    .mk (.mk rfl property rfl)
  have association := @Association.Derives.mk ⟨.symbol .association, "-->", none, true⟩
    ⟨.upperWord, "P", none, false⟩ [] [⟨.upperWord, "Q", none, false⟩] [] _ _ _ _ _ rfl rfl .absent
    (.plain rfl) .absent (.present body)
  have invariant := @Invariant.Derives.mk true ⟨.symbol .bang, "!", none, true⟩
    ⟨.stringLit, "\"\"", none, false⟩ [⟨.lowerWord, "y", none, false⟩] _ rfl rfl
    (.operand (.property rfl))
  refine (readUnit_iff_apart true _ _ _ _ _ _ _ _ _ rfl rfl rfl rfl rfl
    (.cons (.property (Property.derives_date rfl rfl)) (.cons (.property (Property.derives_date rfl rfl))
      (.cons (.association association) (.cons (.invariant invariant) .nil)))) rfl rfl hw).2 ?_
  refine ⟨by simp [Member.RunsInto, Property.RunsInto, Keyword.text], ?_⟩
  intro a ha b hb
  simp only [List.mem_cons, List.not_mem_nil, or_false, reduceCtorEq, Member.association.injEq,
    false_or] at ha
  subst ha
  cases hb
  exact .singleton _

/-- A member of the strict grammar at the start of a line. -/
def Member.StartsLine (ts : List Item) (m : Member Unit) : Prop :=
  Member.Derives false ts m ∧ ∀ t ∈ ts.head?, t.lineStart = true

/-- `a Date` and on the next line `primary Date`. -/
def clashingText : String := "schema\"\"type T\x7b\na Date\nprimary Date\n\x7d"

theorem itemsOf_clashingText :
    itemsOf (tokenize clashingText).1 =
      (⟨.keyword .schemaWord, "schema", none, true⟩ :: ⟨.stringLit, "\"\"", none, false⟩ ::
        ⟨.keyword .typeWord, "type", none, false⟩ :: ⟨.upperWord, "T", none, false⟩ ::
        ⟨.symbol .lBrace, "\x7b", none, false⟩ ::
        ([⟨.lowerWord, "a", none, true⟩, ⟨.builtin .date, "Date", none, false⟩,
          ⟨.keyword .primaryWord, "primary", none, true⟩, ⟨.builtin .date, "Date", none, false⟩] ++
        [⟨.symbol .rBrace, "\x7d", none, true⟩, ⟨.endOfText, "", none, false⟩])).toArray := by
  decide +kernel

/-- The first property of it is read as a primary one, and the rest of the line is lost, so not even
all bodies with each member on a line of its own are read as they are derived. -/
theorem not_forall_readUnit_members :
    ¬ ∀ (text : String) (s n t c l r e : Item) (ts : List Item) (ms : List (Member Unit)),
      itemsOf (tokenize text).1 = (s :: n :: t :: c :: l :: (ts ++ [r, e])).toArray →
      (tokenize text).2 = [] → s.kind = .keyword .schemaWord → n.kind = .stringLit →
      t.kind = .keyword .typeWord → c.kind = .upperWord → l.kind = .symbol .lBrace →
      Many Member.StartsLine ts ms → r.kind = .symbol .rBrace → e.kind = .endOfText →
      (readUnit (itemsOf (tokenize text).1)).2 = [] ∧
        (readUnit (itemsOf (tokenize text).1)).1.map forget =
          ⟨stringValue n.text, some (), s.doc, [],
            [.type ⟨t.doc, ⟨c.text, ()⟩, .none, [], ms, ()⟩], ()⟩ := by
  intro h
  have hfaults : (tokenize clashingText).2 = [] := by decide +kernel
  have property {n t : Item} (hn : n.kind.namesProperty = true) (ht : t.kind = .builtin .date)
      (hl : n.lineStart = true) :
      Member.StartsLine [n, t] (.property ⟨n.doc, ⟨n.text, ()⟩, .builtin .date (), .none, ()⟩) :=
    ⟨.property (Property.derives_date hn ht), by simpa using hl⟩
  have hrun := h clashingText _ _ _ _ _ _ _ _ _ itemsOf_clashingText hfaults rfl rfl rfl rfl rfl
    (.cons (property rfl rfl rfl) (.cons (property rfl rfl rfl) .nil)) rfl rfl
  rw [itemsOf_clashingText] at hrun
  exact absurd (congrArg List.isEmpty hrun.1) (by decide)

end SchemaLang
