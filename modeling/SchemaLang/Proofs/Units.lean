import SchemaLang.Proofs.Lexed
import SchemaLang.Proofs.Members
import SchemaLang.Proofs.Phrase.Unit

/-!
# Reading units

What is read as a unit without a problem is what the grammar derives, as long as the items are
spelled as tokens are and none is malformed text (`derives_of_readUnit`). The loop over entries keeps
the aliases of the imports so far apart from those to come.
-/

set_option autoImplicit false

namespace SchemaLang

open SchemaLang.Phrase

variable {items : Items} {i j : Nat}

theorem WellSpelled.keywordsReserved (hw : WellSpelled items) : Rule.KeywordsReserved items := by
  intro i hk
  have hs := hw i
  cases h : kindAt items i with
  | keyword k =>
    rw [hs.keyword k h]
    cases k <;> decide
  | builtin b =>
    rw [hs.builtin b h]
    cases b <;> decide
  | _ => simp [h, TokenKind.isKeyword] at hk

theorem WellSpelled.isAlias (hw : WellSpelled items) (hk : (kindAt items i).isWord = true) :
    (itemAt items i).IsAlias := ⟨hk, (hw i).word hk⟩

namespace Rule

/-! ## Imports -/

theorem at_of_yields_importDecl {d : Import Extent} (hw : WellSpelled items)
    (hk : kindAt items i = .keyword .importWord) (h : importDecl.Yields items i d j) :
    At Import.Derives items i (d.map forget) j := by
  simp [importDecl, aliasName, toBool_checkAlias, and_assoc] at h
  obtain ⟨hp, ⟨ha, name, hname, rfl⟩ | ⟨-, rfl, rfl⟩⟩ := h
  · rcases hname with ⟨hn, rfl, rfl⟩ | ⟨-, hn, hc, -⟩
    · exact ⟨_, .cons hk (by simp) (.cons hp (by simp) (.cons ha (by simp)
        (stretch_of_kindAt rfl (TokenKind.ne_of_allowed hn rfl)))), .aliased hk hp ha (hw.isAlias hn)⟩
    · have := hw.keywordsReserved _ hn
      simp [isReserved_eq_false_of_checkAlias hc] at this
  · exact ⟨_, .cons hk (by simp) (stretch_of_kindAt hp (by simp)), .plain hk hp⟩

/-! ## Declarations -/

theorem at_of_yields_parents {ps : List (TypeRef Extent)} (hw : WellSpelled items)
    (h : parents.Yields items i ps j) :
    At Parents items i (ps.map (TypeRef.map forget)) j := by
  simp [parents] at h
  rcases h with ⟨h0, r, k, hr, rest, hrest, rfl⟩ | ⟨-, rfl, rfl⟩
  · rw [furtherParents_eq] at hrest
    obtain ⟨ts, hts, he⟩ := at_of_yields_further (at_of_yields_typeRef hw.keywordsReserved)
      (at_of_yields_typeRef hw.keywordsReserved hr) hrest
    exact ⟨_, .cons h0 (by simp) hts, .present h0 he⟩
  · exact ⟨[], rfl, .absent⟩

/-- The first word of a declaration. -/
def startsDeclaration (k : TokenKind) : Prop :=
  k = .keyword .typeWord ∨ k = .keyword .abstractWord ∨ k = .keyword .partWord

theorem at_of_yields_typeModifier {m : TypeModifier} (hk : startsDeclaration (kindAt items i))
    (h : typeModifier.Yields items i m j) :
    ∃ fs, Stretch items i (itemAt items i :: fs) j ∧
      TypeModifier.Derives (itemAt items i :: fs) m := by
  simp only [typeModifier, yields_peekKind_bind] at h
  split at h
  · rename_i h0
    simp at h
    obtain ⟨⟨h1, rfl⟩, rfl⟩ := h
    exact ⟨_, .cons h0 (by simp) (stretch_of_kindAt h1 (by simp)), .abstract_ h0 h1⟩
  · rename_i h0
    simp at h
    obtain ⟨⟨h1, rfl⟩, rfl⟩ := h
    exact ⟨_, .cons h0 (by simp) (stretch_of_kindAt h1 (by simp)), .part h0 h1⟩
  · rename_i ha hp
    simp at h
    obtain ⟨rfl, rfl⟩ := h
    rcases hk with h0 | h0 | h0
    · exact ⟨[], stretch_of_kindAt h0 (by simp), .none h0⟩
    · exact absurd h0 ha
    · exact absurd h0 hp

theorem yields_declarationName {n : Name Extent} :
    declarationName.Yields items i n j ↔
      kindAt items i = .upperWord ∧ n = ⟨(itemAt items i).text, .single i⟩ ∧ j = i + 1 := by
  simp only [declarationName, yields_peek_bind]
  split
  · rename_i h
    simp
    rintro hk
    simp [kind_itemAt, hk, TokenKind.isKeyword] at h
  · simp [isUpperWord]

theorem at_of_yields_declaration {d : Declaration Extent} (hw : WellSpelled items)
    (hi : NoInvalid items) (hk : startsDeclaration (kindAt items i))
    (h : declaration.Yields items i d j) :
    At (Declaration.Derives true) items i (d.map forget) j := by
  simp [declaration, yields_declarationName] at h
  obtain ⟨m, k, hm, hn, h⟩ := h
  obtain ⟨fs, hfs, hm⟩ := at_of_yields_typeModifier hk hm
  have type : (∃ ps k', parents.Yields items (k + 1) ps k' ∧ kindAt items k' = .symbol .lBrace ∧
      ∃ ms, (typeBody (itemAt items k).text k').Yields items (k' + 1) ms j ∧
        d = .type ⟨(itemAt items i).doc, ⟨(itemAt items k).text, .single k⟩, m, ps, ms,
          ⟨i, j - 1⟩⟩) →
      At (Declaration.Derives true) items i (d.map forget) j := by
    rintro ⟨ps, k', hps, hb, ms, hms, rfl⟩
    obtain ⟨ts, hts, hps⟩ := at_of_yields_parents hw hps
    obtain ⟨us, hus, hms⟩ := at_of_yields_typeBody hw.keywordsReserved hi hb hms
    exact ⟨_, hfs.append (.cons hn (by simp) (hts.append hus)), .type (.mk hm hn hps hms)⟩
  split at h
  · rename_i ha
    simp [declaredDatatype] at h
    obtain ⟨rfl, b, hb, rfl⟩ := h
    split at hb
    · rename_i kind hkind
      obtain ⟨ts, hts, hb⟩ := at_of_yields_builtin hw.keywordsReserved hkind hb
      cases hm with
      | none ht =>
        exact ⟨_, hfs.append (.cons hn (by simp) (.cons ha (by simp) hts)),
          .datatype (.mk ht hn ha hb)⟩
    · simp at hb
  · simp [and_assoc] at h
    exact type h
  · simp [and_assoc] at h
    exact type h
  · simp at h

/-- Recovery stops where a declaration is read. -/
theorem atDeclaration_of_yields {d : Declaration Extent} (hk : startsDeclaration (kindAt items i))
    (h : declaration.Yields items i d j) : atDeclaration items i = true := by
  simp [declaration, yields_declarationName] at h
  obtain ⟨m, k, hm, hn, h⟩ := h
  simp only [typeModifier, yields_peekKind_bind] at hm
  split at hm
  · rename_i h0
    simp at hm
    exact atDeclaration_iff.2 (.inl ⟨h0, hm.1.1⟩)
  · rename_i h0
    simp at hm
    exact atDeclaration_iff.2 (.inr (.inl ⟨h0, hm.1.1⟩))
  · rename_i ha hp
    simp at hm
    obtain ⟨-, rfl⟩ := hm
    have h0 : kindAt items i = .keyword .typeWord := by
      rcases hk with h0 | h0 | h0
      · exact h0
      · exact absurd h0 ha
      · exact absurd h0 hp
    refine atDeclaration_iff.2 (.inr (.inr ⟨h0, hn, ?_⟩))
    split at h
    · rename_i h2
      exact .inr (.inl h2)
    · rename_i h2
      exact .inr (.inr h2)
    · rename_i h2
      exact .inl h2
    · simp at h

/-! ## Entries -/

theorem kindAt_of_yields_entry {e : Entry} (h : entry.Yields items i e j) :
    (kindAt items i = .keyword .importWord ∧ ∃ d, e = .import_ d) ∨
      (startsDeclaration (kindAt items i) ∧ ∃ d, e = .declaration d ∧ declaration.Yields items i d j) := by
  simp only [entry, yields_peekKind_bind] at h
  split at h
  · rename_i hk
    simp at h
    obtain ⟨d, -, rfl⟩ := h
    exact .inl ⟨hk, d, rfl⟩
  · rename_i hk
    simp at h
    obtain ⟨d, hd, rfl⟩ := h
    exact .inr ⟨.inl hk, d, rfl, hd⟩
  · rename_i hk
    simp at h
    obtain ⟨d, hd, rfl⟩ := h
    exact .inr ⟨.inr (.inl hk), d, rfl, hd⟩
  · rename_i hk
    simp at h
    obtain ⟨d, hd, rfl⟩ := h
    exact .inr ⟨.inr (.inr hk), d, rfl, hd⟩
  · simp at h
  · simp at h

theorem entry_of_startsDeclaration (h : startsDeclaration (kindAt items i)) :
    entry items i = (do return Entry.declaration (← declaration) : Rule Entry) items i := by
  have hkind : peekKind.Yields items i (kindAt items i) i := rfl
  rw [entry, hkind.bind_eq]
  rcases h with h | h | h <;> rw [h]

theorem entry_cases {e : Entry} (hw : WellSpelled items) (hi : NoInvalid items)
    (h : entry.Yields items i e j) :
    (∃ d, e = .import_ d ∧ At Import.Derives items i (d.map forget) j) ∨
      ∃ d, e = .declaration d ∧ At (Declaration.Derives true) items i (d.map forget) j := by
  simp only [entry, yields_peekKind_bind] at h
  split at h
  · rename_i hk
    simp at h
    obtain ⟨d, hd, rfl⟩ := h
    exact .inl ⟨d, rfl, at_of_yields_importDecl hw hk hd⟩
  · rename_i hk
    simp at h
    obtain ⟨d, hd, rfl⟩ := h
    exact .inr ⟨d, rfl, at_of_yields_declaration hw hi (.inl hk) hd⟩
  · rename_i hk
    simp at h
    obtain ⟨d, hd, rfl⟩ := h
    exact .inr ⟨d, rfl, at_of_yields_declaration hw hi (.inr (.inl hk)) hd⟩
  · rename_i hk
    simp at h
    obtain ⟨d, hd, rfl⟩ := h
    exact .inr ⟨d, rfl, at_of_yields_declaration hw hi (.inr (.inr hk)) hd⟩
  · simp at h
  · simp at h

end Rule

/-! ## Aliases -/

/-- Without a problem, an alias is new. -/
theorem AliasTable.of_add_eq_nil {t t' : AliasTable} {d : Import Extent}
    (h : t.add d = ([], t')) :
    t.find? d.effectiveAlias = none ∧ (d.alias_ = none → isReserved d.effectiveAlias = false) ∧
      ∀ name, t'.find? name = none ↔ name ≠ d.effectiveAlias ∧ t.find? name = none := by
  unfold add at h
  dsimp only at h
  split at h
  · simp at h
  · rename_i hr
    split at h
    · simp at h
    · rename_i hf
      simp only [Prod.mk.injEq, true_and] at h
      subst h
      refine ⟨hf, fun ha => by simpa [ha] using hr, fun name => ?_⟩
      simp only [find?, List.lookup_cons]
      split <;> simp_all

@[simp] theorem Import.effectiveAlias_map {σ τ : Type} (f : σ → τ) (d : Import σ) :
    (d.map f).effectiveAlias = d.effectiveAlias := by
  unfold effectiveAlias map
  cases d.alias_ <;> rfl

theorem checkAlias_derivedAlias {path : String} (h : isReserved (derivedAlias path) = false) :
    checkAlias (derivedAlias path) = .ok () := by
  simp [checkAlias, hasAliasShape_derivedAlias, h]

theorem Import.Derives.checkAlias_eq_ok {ts : List Item} {d : Import Extent}
    (h : Import.Derives ts (d.map forget))
    (hr : d.alias_ = none → isReserved d.effectiveAlias = false) :
    checkAlias d.effectiveAlias = .ok () := by
  rw [← Import.effectiveAlias_map forget]
  generalize hd : d.map forget = d' at h
  cases h with
  | plain =>
    have hnone : d.alias_ = none := by
      have := congrArg Import.alias_ hd
      simpa [Import.map] using this
    have := hr hnone
    rw [← Import.effectiveAlias_map forget, hd] at this
    exact checkAlias_derivedAlias this
  | aliased _ _ _ hn => exact hn.check

/-! ## The loop over entries -/

/-- What a body without problems is, given the aliases taken before it and whether a declaration
stands before it. -/
structure UnitBody.Derived (items : Items) (aliases : AliasTable) (declared : Bool) (i : Nat)
    (b : UnitBody) : Prop where
  parts : ∃ m k, At (Many Import.Derives) items i (b.imports.map (Import.map forget)) m ∧
    At (Many (Declaration.Derives true)) items m (b.declarations.map (Declaration.map forget)) k ∧
    kindAt items k = .endOfText
  late : declared = true → b.imports = []
  fresh : ∀ d ∈ b.imports, aliases.find? d.effectiveAlias = none ∧
    checkAlias d.effectiveAlias = .ok ()
  distinct : (b.imports.map Import.effectiveAlias).Nodup

variable {aliases aliases' : AliasTable} {declared : Bool} {b : UnitBody}

/-- An import before the rest of a body, which has no declaration before it then. -/
theorem UnitBody.Derived.addImport {d : Import Extent}
    (hb : UnitBody.Derived items aliases' declared j b)
    (hd : At Import.Derives items i (d.map forget) j) (hadd : aliases.add d = ([], aliases'))
    (hlate : declared = false) :
    UnitBody.Derived items aliases declared i (b.addImport d) := by
  obtain ⟨hnew, hderived, hfind⟩ := AliasTable.of_add_eq_nil hadd
  obtain ⟨m, k, himports, hdecls, hend⟩ := hb.parts
  have hcheck : checkAlias d.effectiveAlias = .ok () := by
    obtain ⟨ts, -, hts⟩ := hd
    exact hts.checkAlias_eq_ok hderived
  refine ⟨⟨m, k, at_many.2 (.inr ⟨_, _, _, hd, himports, rfl⟩), hdecls, hend⟩,
    fun h => by simp [hlate] at h, ?_, ?_⟩
  · intro d' hd'
    rcases List.mem_cons.1 hd' with rfl | hd'
    · exact ⟨hnew, hcheck⟩
    · obtain ⟨hf, hc⟩ := hb.fresh d' hd'
      exact ⟨((hfind _).1 hf).2, hc⟩
  · refine List.nodup_cons.2 ⟨fun hmem => ?_, hb.distinct⟩
    obtain ⟨d', hd', heq⟩ := List.mem_map.1 hmem
    exact ((hfind _).1 (hb.fresh d' hd').1).1 heq

/-- A declaration before the rest of a body, which has no imports then. -/
theorem UnitBody.Derived.addDeclaration {d : Declaration Extent}
    (hb : UnitBody.Derived items aliases' true j b)
    (hd : At (Declaration.Derives true) items i (d.map forget) j) :
    UnitBody.Derived items aliases declared i (b.addDeclaration d) := by
  obtain ⟨m, k, himports, hdecls, hend⟩ := hb.parts
  have hnone : b.imports = [] := hb.late rfl
  rw [hnone] at himports
  obtain rfl : m = j := at_many_nil.1 himports
  have hi : (b.addDeclaration d).imports = [] := hnone
  refine ⟨⟨i, k, ?_, at_many.2 (.inr ⟨_, _, _, hd, hdecls, rfl⟩), hend⟩, fun _ => hi, ?_, ?_⟩
  · rw [hi]
    exact at_many_nil.2 rfl
  · simp [hi]
  · simp [hi]

theorem unitBody_of_end {n : Nat} (h : kindAt items i = .endOfText) :
    unitBody items n aliases declared i = .empty i := by
  cases n with
  | zero => rfl
  | succ n => rw [unitBody, if_pos h]

theorem unitBody_of_import {n : Nat} {d : Import Extent} (hd : Rule.entry.Yields items i (.import_ d) j)
    (hadd : aliases.add d = ([], aliases')) :
    unitBody items (n + 1) aliases false i = (unitBody items n aliases' false j).addImport d := by
  rcases Rule.kindAt_of_yields_entry hd with ⟨hk, -⟩ | ⟨-, d', hd', -⟩
  · rw [unitBody, if_neg (by simp [hk]), hd]
    dsimp only
    rw [hadd]
    rfl
  · cases hd'

theorem unitBody_of_declaration {n : Nat} {d : Declaration Extent} {ps : List (Problem Extent)}
    (hk : kindAt items i ≠ .endOfText) (hd : Rule.entry items i = ⟨some (.declaration d), j, ps⟩) :
    unitBody items (n + 1) aliases declared i =
      ((unitBody items n aliases true j).addDeclaration d).addProblems ps := by
  rw [unitBody, if_neg hk, hd]

/-- A round without problems. -/
theorem unitBody_cases (hi : NoInvalid items) {n : Nat} (hk : kindAt items i ≠ .endOfText)
    (h : (unitBody items (n + 1) aliases declared i).problems = []) :
    (∃ d j aliases', Rule.entry.Yields items i (.import_ d) j ∧ declared = false ∧
      aliases.add d = ([], aliases') ∧
      unitBody items (n + 1) aliases declared i = (unitBody items n aliases' false j).addImport d) ∨
    ∃ d j, Rule.entry.Yields items i (.declaration d) j ∧
      unitBody items (n + 1) aliases declared i =
        (unitBody items n aliases true j).addDeclaration d := by
  rw [unitBody, if_neg hk] at h ⊢
  obtain ⟨v, j, ps, he⟩ : ∃ v j ps, Rule.entry items i = ⟨v, j, ps⟩ := ⟨_, _, _, rfl⟩
  rw [he] at h ⊢
  cases v with
  | none =>
    -- giving up without a problem is not possible
    simp only [UnitBody.addProblems, List.append_eq_nil_iff] at h
    exact absurd ⟨by rw [he], by rw [he]; exact h.1⟩ (Rule.not_silent_entry (i := i) hi)
  | some e =>
    cases e with
    | import_ d =>
      obtain ⟨clash, aliases', hadd⟩ : ∃ clash t, aliases.add d = (clash, t) := ⟨_, _, rfl⟩
      simp only [hadd, UnitBody.addProblems, UnitBody.addImport, List.append_eq_nil_iff] at h ⊢
      obtain ⟨⟨⟨rfl, hlate⟩, rfl⟩, -⟩ := h
      obtain rfl : declared = false := by simpa using hlate
      exact .inl ⟨d, j, aliases', he, rfl, hadd, rfl⟩
    | declaration d =>
      simp only [UnitBody.addProblems, UnitBody.addDeclaration, List.append_eq_nil_iff] at h ⊢
      obtain ⟨rfl, -⟩ := h
      exact .inr ⟨d, j, he, rfl⟩

theorem UnitBody.derived_of_problems_eq_nil (hw : WellSpelled items) (hi : NoInvalid items) {n : Nat}
    (hn : items.size ≤ n + i)
    (h : (unitBody items n aliases declared i).problems = []) :
    UnitBody.Derived items aliases declared i (unitBody items n aliases declared i) := by
  induction n generalizing aliases declared i with
  | zero =>
    refine ⟨⟨i, i, at_many.2 (.inl ⟨rfl, rfl⟩), at_many.2 (.inl ⟨rfl, rfl⟩),
      kindAt_of_size_le (by omega)⟩, fun _ => rfl, nofun, .nil⟩
  | succ n ih =>
    by_cases hk : kindAt items i = .endOfText
    · rw [unitBody_of_end hk]
      exact ⟨⟨i, i, at_many.2 (.inl ⟨rfl, rfl⟩), at_many.2 (.inl ⟨rfl, rfl⟩), hk⟩, fun _ => rfl,
        nofun, .nil⟩
    · rcases unitBody_cases hi hk h with ⟨d, j, aliases', hd, rfl, hadd, hb⟩ | ⟨d, j, hd, hb⟩
      · rw [hb] at h ⊢
        rcases Rule.entry_cases hw hi hd with ⟨d', hd', hat⟩ | ⟨d', hd', -⟩
        · cases hd'
          have := hat.lt Import.Derives.ne_nil
          exact (ih (by omega) h).addImport hat hadd rfl
        · cases hd'
      · rw [hb] at h ⊢
        rcases Rule.entry_cases hw hi hd with ⟨d', hd', -⟩ | ⟨d', hd', hat⟩
        · cases hd'
        · cases hd'
          have := hat.lt Declaration.Derives.ne_nil
          exact (ih (by omega) h).addDeclaration hat

/-! ## Whole units -/

theorem Rule.yields_header (h0 : kindAt items 0 = .keyword .schemaWord)
    (h1 : kindAt items 1 = .stringLit) :
    header.Yields items 0 ⟨stringValue (itemAt items 1).text, some ⟨0, 1⟩, (itemAt items 0).doc⟩ 2 := by
  simp [header, h0, h1]

theorem Rule.header_eq_of_problems_eq_nil (hi : NoInvalid items)
    (h : (Rule.header items 0).problems = []) :
    kindAt items 0 = .keyword .schemaWord ∧ kindAt items 1 = .stringLit ∧
      Rule.header items 0 =
        ⟨some ⟨stringValue (itemAt items 1).text, some ⟨0, 1⟩, (itemAt items 0).doc⟩, 2, []⟩ := by
  have hs : ¬ Rule.header.Silent items 0 := by simp [Rule.header, hi]
  obtain ⟨a, ha⟩ := Rule.yields_of_problems_eq_nil hs h
  generalize (Rule.header items 0).next = k at ha
  have hy := ha
  simp [Rule.header, yields_blame_bind, hi _] at hy
  obtain ⟨h0, h1, rfl, rfl⟩ := hy
  exact ⟨h0, h1, ha⟩

/-- What is read without a problem is derived by all items before the end of the text. -/
theorem derives_of_readUnit (hw : WellSpelled items) (hi : NoInvalid items)
    (h : (readUnit items).2 = []) :
    ∃ ts k, Stretch items 0 ts k ∧ kindAt items k = .endOfText ∧
      SchemaUnit.Derives true ts ((readUnit items).1.map forget) ∧
      (∀ d ∈ (readUnit items).1.imports, checkAlias d.effectiveAlias = .ok ()) ∧
      ((readUnit items).1.imports.map Import.effectiveAlias).Nodup := by
  unfold readUnit wholeBody at h ⊢
  simp only [List.append_eq_nil_iff] at h ⊢
  obtain ⟨hh, hb⟩ := h
  obtain ⟨h0, h1, he⟩ := Rule.header_eq_of_problems_eq_nil hi hh
  rw [he] at hb ⊢
  have hd := UnitBody.derived_of_problems_eq_nil hw hi (by omega) hb
  obtain ⟨m, k, ⟨ts, hts, himports⟩, ⟨us, hus, hdecls⟩, hend⟩ := hd.parts
  refine ⟨_, k, .cons h0 (by simp) (.cons h1 (by simp) (hts.append hus)), hend,
    .mk h0 h1 himports hdecls, fun d hd' => (hd.fresh d hd').2, hd.distinct⟩

end SchemaLang
