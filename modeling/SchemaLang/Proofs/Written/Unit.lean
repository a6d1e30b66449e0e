import SchemaLang.Proofs.Streams
import SchemaLang.Proofs.Units
import SchemaLang.Proofs.Written.Datatypes

/-!
# Units with one datatype as texts

* `Builtin.declared schema name b` is the text of a unit that declares the datatype `b` and nothing else.
* `Declares name` and `DeclaresOnly schema name`: the phrases that are such a declaration and such a unit.

Main statements: the text is cut into words of such a unit (`writtenAs_declared`), and such a unit is read
without a problem (`DeclaresOnly.exists_readUnit`).
-/

set_option autoImplicit false

namespace SchemaLang

open Phrase

variable {σ : Type} {schema name : String}

def Builtin.declared (schema name : String) (b : Builtin σ) : String :=
  s!"schema {Text.quoted schema}\ntype {name} = {b.text}"

def Declares (name : String) : Phrase (Builtin Unit) := fun ts b =>
  ∃ doc, DatatypeDecl.Derives ts ⟨doc, ⟨name, ()⟩, ⟨b, ()⟩, ()⟩

def DeclaresOnly (schema name : String) : Phrase (Builtin Unit) := fun ts b =>
  ∃ doc d, d.name.text = name ∧ d.datatype.type = b ∧
    SchemaUnit.Derives true ts ⟨schema, some (), doc, [], [.datatype d], ()⟩

/-! ## Words -/

theorem Builtin.toList_declared (b : Builtin σ) : (b.declared schema name).toList =
    "schema".toList ++ ' ' :: ((Text.quoted schema).toList ++ '\n' ::
      ("type".toList ++ ' ' :: (name.toList ++ ' ' :: '=' :: ' ' :: b.text.toList))) := by
  show ("schema " ++ Text.quoted schema ++ "\ntype " ++ name ++ " = " ++ b.text).toList = _
  simp

section

variable {b : Builtin Unit} {cs : List Char} {clean : Prop}

theorem writtenAs_declares (h : WrittenAs PlacedBuiltin.Derives ⟨b, ()⟩ cs clean)
    (hshape : hasAliasShape name.toList = true) (hkind : wordKind name = .upperWord) :
    WrittenAs (Declares name) b
      ("type".toList ++ ' ' :: (name.toList ++ ' ' :: '=' :: ' ' :: cs)) clean := by
  have hassign : SpelledBy (fun ts b => ∃ a us, ts = a :: us ∧ a.kind = .symbol .assign ∧
      PlacedBuiltin.Derives us ⟨b, ()⟩) b ('=' :: ' ' :: cs) clean :=
    (h.blank (c := ' ') (by decide)).behind rfl (by decide) (by simp) (by simp; decide)
      fun a us ha hus => ⟨a, us, rfl, ha, hus⟩
  have hname : WrittenAs (fun ts b => ∃ n a us, ts = n :: a :: us ∧ n.kind = .upperWord ∧
      n.text = name ∧ a.kind = .symbol .assign ∧ PlacedBuiltin.Derives us ⟨b, ()⟩) b
      (name.toList ++ ' ' :: '=' :: ' ' :: cs) clean := by
    refine (hassign.blank (c := ' ') (by decide) (by simp) (by simp; decide)).keyed (by simp; decide) hshape
      hkind ?_
    rintro n _ hn htext ⟨a, us, rfl, ha, hus⟩
    exact ⟨n, a, us, rfl, hn, htext, ha, hus⟩
  have hword : wordKind "type" = .keyword .typeWord := by decide
  refine (hname.blank (c := ' ') (by decide)).keyed (by simp; decide) (by decide) hword ?_
  rintro k _ hk - ⟨n, a, us, rfl, hn, rfl, ha, hus⟩
  exact ⟨k.doc, .mk hk hn ha hus⟩

theorem writtenAs_declared (h : WrittenAs PlacedBuiltin.Derives ⟨b, ()⟩ b.text.toList clean)
    (hschema : Text.Readable schema) (hshape : hasAliasShape name.toList = true)
    (hkind : wordKind name = .upperWord) :
    WrittenAs (DeclaresOnly schema name) b (b.declared schema name).toList clean := by
  have hdecl := (writtenAs_declares h hshape hkind).blank (c := '\n') (by decide)
  have htitled := (writtenAs_stringLiteral schema).append hdecl (by simp; decide)
    (T := fun ts b => ∃ n us, ts = n :: us ∧ n.kind = .stringLit ∧ stringValue n.text = schema ∧
      Declares name us b) (x := b) <| by
        rintro _ us ⟨hn⟩ hus
        exact ⟨_, us, rfl, hn, rfl, hus⟩
  have hword : wordKind "schema" = .keyword .schemaWord := by decide
  rw [Builtin.toList_declared]
  refine ((htitled.blank (c := ' ') (by decide)).keyed (by simp; decide) (by decide) hword ?_).mono
    (by simp [hschema]) fun _ h => h
  rintro s _ hs - ⟨n, us, rfl, hn, rfl, doc, hus⟩
  refine ⟨s.doc, ⟨doc, ⟨name, ()⟩, ⟨b, ()⟩, ()⟩, rfl, rfl, ?_⟩
  have hdecls : Many (Declaration.Derives true) (us ++ []) _ := .cons (.datatype hus) .nil
  rw [List.append_nil] at hdecls
  exact .mk hs hn .nil hdecls

end

/-- The items of a whole text are a phrase, if it has no faults. -/
theorem Phrase.SpelledBy.tokenize {α : Type} {R : Phrase α} {a : α} {text : String} {clean : Prop}
    (h : SpelledBy R a text.toList clean) : ((tokenize text).2 = [] ↔ clean) ∧
      (clean → ∃ j, At R (itemsOf (tokenize text).1) 0 a j ∧
        kindAt (itemsOf (tokenize text).1) j = .endOfText) := by
  obtain ⟨ws, hws, hR⟩ := h
  obtain ⟨l, hl, hwords, hfaults⟩ := hws (Lexer.ofText text) [] (by simp [Lexer.ofText]) nofun
  rw [Lexer.words_of_rest_eq_nil hl, List.append_nil] at hwords
  rw [Lexer.faults_of_rest_eq_nil hl, eq_self, and_true] at hfaults
  refine ⟨hfaults, fun hclean => ?_⟩
  obtain ⟨us, hus, -, hend, -, hmap⟩ := exists_stretch_itemsOf (SchemaLang.tokenize text).1
  exact ⟨_, ⟨us, hus, hR hclean us (hmap.trans hwords)⟩, hend⟩

/-! ## Units -/

variable {items : Items} {i j : Nat}

theorem Rule.exists_yields_declaredDatatype {b : PlacedBuiltin Unit}
    (h : At PlacedBuiltin.Derives items i b j) (hj : kindAt items j ≠ .symbol .lBracket) :
    ∃ c, declaredDatatype.Yields items i c j ∧ c.map forget = b := by
  obtain ⟨_, hs, @⟨k, kind, ts, b, hk, hp⟩⟩ := h
  obtain ⟨h0, hs⟩ := hs
  obtain ⟨c, hc, rfl⟩ := exists_yields_builtinOf
    (fun _ hm hd => exists_yields_datatypeRef hd (by simp [hm]) (by simp [hm])) ⟨ts, hs, hp⟩ hj
  refine ⟨c, ?_, rfl⟩
  simp only [declaredDatatype, yields_peekKind_bind, kindAt_of_getElem? h0, hk]
  exact hc

theorem Rule.exists_yields_datatypeEntry {d : DatatypeDecl Unit}
    (h : At DatatypeDecl.Derives items i d j) (hj : kindAt items j ≠ .symbol .lBracket) :
    ∃ e, entry.Yields items i (.declaration (.datatype e)) j ∧ e.map forget = d := by
  obtain ⟨_, hs, @⟨k, n, a, ts, b, hk, hn, ha, hb⟩⟩ := h
  obtain ⟨h0, h1, h2, hs⟩ := hs
  obtain ⟨c, hc, rfl⟩ := exists_yields_declaredDatatype ⟨ts, hs, hb⟩ hj
  refine ⟨⟨k.doc, ⟨n.text, .single (i + 1)⟩, c, ⟨i, j - 1⟩⟩, ?_, rfl⟩
  simp [entry, declaration, typeModifier, yields_declarationName, kindAt_of_getElem? h0,
    kindAt_of_getElem? h1, kindAt_of_getElem? h2, itemAt_of_getElem? h0, itemAt_of_getElem? h1, hk, hn, ha, hc]

theorem DeclaresOnly.exists_readUnit {b : Builtin Unit} (h : At (DeclaresOnly schema name) items 0 b j)
    (hj : kindAt items j = .endOfText) :
    (readUnit items).2 = [] ∧ ∃ d, (readUnit items).1.declarations = [.datatype d] ∧
      d.name.text = name ∧ d.datatype.type.map forget = b := by
  obtain ⟨_, hs, doc, c, rfl, rfl, @⟨s, n, ts, us, _, _, hschema, hn, himports, hdecls⟩⟩ := h
  obtain ⟨h0, h1, hs⟩ := hs
  -- behind the header no item is left for imports, and all are the one declaration
  obtain ⟨k, himports, hdecls⟩ : ∃ k, At (Many Import.Derives) items 2 [] k ∧
      At (Many (Declaration.Derives true)) items k [.datatype c] j := by
    obtain ⟨k, hts, hus⟩ := stretch_append.1 hs
    exact ⟨k, ⟨ts, hts, himports⟩, us, hus, hdecls⟩
  obtain rfl := at_many_nil.1 himports
  rcases at_many.1 hdecls with ⟨⟨⟩, -⟩ | ⟨_, _, l, ⟨vs, hvs, hd⟩, hrest, ⟨⟩⟩
  obtain rfl := at_many_nil.1 hrest
  rcases hd with _ | hd
  obtain ⟨d, he, rfl⟩ := Rule.exists_yields_datatypeEntry ⟨vs, hvs, hd⟩ (by simp [hj])
  have hk : kindAt items 2 ≠ .endOfText := by
    rcases Rule.kindAt_of_yields_entry he with ⟨hk, -⟩ | ⟨hk | hk | hk, -⟩ <;> simp [hk]
  obtain ⟨m, hm⟩ := Nat.exists_eq_succ_of_ne_zero (Nat.ne_zero_of_lt (lt_size_of_kindAt_ne hk))
  unfold readUnit wholeBody
  rw [Rule.yields_header (kindAt_of_getElem? h0 ▸ hschema) (kindAt_of_getElem? h1 ▸ hn), hm,
    unitBody_of_declaration hk he, unitBody_of_end hj]
  exact ⟨rfl, d, rfl, rfl, rfl⟩

end SchemaLang
