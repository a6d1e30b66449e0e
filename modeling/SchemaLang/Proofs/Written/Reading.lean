import SchemaLang.Proofs.Located.Lexical
import SchemaLang.Proofs.Nested.Reading
import SchemaLang.Proofs.Phrase.Visited
import SchemaLang.Proofs.Readings
import SchemaLang.Proofs.Written.Unit

/-!
# Datatypes are read back from their texts

A datatype that is read without a diagnostic is derived by items that are spelled as words of their kinds, so
its text is one of a phrase that derives it again.

Main statement: a source that declares a datatype by its text is read, without a diagnostic exactly if the
strings in the datatype are readable, and then as that datatype (`Registry.readsBack_of_read`). Some strings
of schemas are not (`Registry.not_forall_readsBack`).
-/

set_option autoImplicit false

namespace SchemaLang

open Phrase

/-! ## Words as they are spelled -/

theorem Lexeme.wordKind_scan (afterOperand : Bool) (c : Char) (cs : List Char)
    (hk : (scan afterOperand c cs).kind.isWord = true) :
    wordKind (.ofList (scan afterOperand c cs).text) = (scan afterOperand c cs).kind := by
  have hs := scanned_scan afterOperand c cs
  generalize scan afterOperand c cs = x at hs hk ⊢
  cases hs with
  | word => rfl
  | blank | lineComment | symbol | dollar | unexpected => cases hk
  | blockComment =>
    unfold blockComment at hk
    split at hk <;> cases hk
  | regex =>
    unfold regex at hk
    dsimp only at hk
    split at hk <;> cases hk
  | string =>
    unfold string at hk
    dsimp only at hk
    split at hk <;> cases hk
  | number =>
    unfold number at hk
    dsimp only at hk
    split at hk <;> cases hk

theorem wordKind_of_mem_steps {l : Lexer} :
    ∀ s ∈ l.steps, s.token.kind.isWord = true → wordKind s.token.text = s.token.kind := by
  refine Lexer.forall_mem_steps (I := fun _ => True) (fun _ _ => trivial) (fun l _ => ?_) trivial
  cases hr : l.rest with
  | nil =>
    rw [Lexer.next_of_rest_eq_nil hr]
    nofun
  | cons c cs =>
    rw [Lexer.next_of_rest_eq_cons hr]
    exact Lexeme.wordKind_scan l.afterOperand c cs

theorem isSpelled_itemsOf (text : String) (i : Nat) :
    (itemAt (itemsOf (tokenize text).1) i).IsSpelled := by
  intro hk
  refine ⟨Rule.hasAliasShape_of_checkAlias ((wellSpelled_itemsOf text i).word hk), ?_⟩
  rcases itemAt_itemsOf (tokenize text).1 i with he | ⟨t, ht, hkind, htext⟩
  · rw [← kind_itemAt] at he
    rw [he] at hk
    cases hk
  · obtain ⟨s, hs, rfl⟩ := List.mem_map.1 (mem_visibleTokens ht).1
    rw [htext, kind_itemAt, hkind]
    exact wordKind_of_mem_steps s hs (hkind ▸ hk)

theorem Stretch.exists_itemAt {items : Items} {i j : Nat} {ts : List Item} (h : Stretch items i ts j)
    {t : Item} (ht : t ∈ ts) : ∃ k, itemAt items k = t := by
  obtain ⟨n, hn, rfl⟩ := List.getElem_of_mem ht
  exact ⟨i + n, itemAt_of_getElem? ((h.getElem? hn).trans (List.getElem?_eq_getElem hn))⟩

namespace Registry

variable {r r' : Registry} {id id' : SourceId} {reading : Reading} {source : Source}

/-- The datatypes that are read without a diagnostic are derived. -/
theorem meets_of_read (h : r.read id = .ok reading) (hd : reading.diagnostics = []) :
    ∀ v ∈ (reading.unit.map forget).walk, v.Meets fun b =>
      ∃ ts kind, (∀ t ∈ ts, Item.IsSpelled t) ∧ Parameters DatatypeRef.Derives kind ts b := by
  obtain ⟨source, -, hf, hp, table, hu⟩ := exists_of_read_of_diagnostics_eq_nil h hd
  obtain ⟨ts, k, hs, -, hder, -, -⟩ :=
    derives_of_readUnit (wellSpelled_itemsOf source.text) (noInvalid_itemsOf hf) hp
  have hforget : reading.unit.map forget =
      (readUnit (itemsOf (tokenize source.text).1)).1.map forget := by
    rw [hu, SchemaUnit.map_map]
    rfl
  rw [hforget]
  refine hder.meets_of_mem_walk fun us kind b hus hb => ⟨us, kind, fun t ht => ?_, hb⟩
  obtain ⟨n, rfl⟩ := hs.exists_itemAt (hus ht)
  exact isSpelled_itemsOf source.text n

/-- A source that declares one datatype. -/
theorem exists_read_of_declared {schema name : String} {b : Builtin Unit} {clean : Prop}
    (hfind : r.find id = .ok source)
    (h : SpelledBy (DeclaresOnly schema name) b source.text.toList clean) :
    ∃ reading, r.read id = .ok reading ∧ (reading.diagnostics = [] ↔ clean) ∧
      (clean → ∃ d, reading.unit.declarations = [.datatype d] ∧ d.name.text = name ∧
        d.datatype.type.map forget = b) := by
  obtain ⟨lexical, table, hlexical, -, hread⟩ := exists_read_eq hfind
  obtain ⟨hfaults, hitems⟩ := h.tokenize
  have hnil : lexical = [] ↔ clean := by
    rw [← hfaults, ← List.length_eq_zero_iff, ← List.length_eq_zero_iff,
      (forall₂_of_mapM hlexical).length_eq]
  have hunit := fun hclean =>
    have ⟨_, hat, hj⟩ := hitems hclean
    DeclaresOnly.exists_readUnit hat hj
  refine ⟨_, hread, ?_, fun hclean => ?_⟩
  · rw [List.append_eq_nil_iff, hnil, List.map_eq_nil_iff]
    exact ⟨And.left, fun hclean => ⟨hclean, (hunit hclean).1⟩⟩
  · obtain ⟨-, d, hd, hname, htype⟩ := hunit hclean
    refine ⟨d.map table.span, by simp [SchemaUnit.map, hd, Declaration.map], hname, ?_⟩
    rw [← htype]
    exact Builtin.map_map ..

/-- **Datatypes come back from their texts.** A built-in datatype stands, at any depth, in a source that is
read without a diagnostic. Another source declares it by its text. That source is read without a diagnostic
exactly if the strings in the datatype are readable, and then as a declaration of the same datatype. Floats
are assumed to read back. -/
theorem readsBack_of_read (r : Registry) (id : SourceId) (reading : Reading)
    (h : r.read id = .ok reading) (hd : reading.diagnostics = []) (depth : Nat) (b : Builtin Unit)
    (hb : ⟨depth, .builtin b⟩ ∈ (reading.unit.map forget).walk) (hx : ∀ x ∈ b.floats, x.ReadsBack)
    (schema name : String) (hschema : Text.Readable schema) (hshape : hasAliasShape name.toList = true)
    (hname : wordKind name = .upperWord) (r' : Registry) (id' : SourceId) (source : Source)
    (hfind : r'.find id' = .ok source) (htext : source.text = b.declared schema name) :
    ∃ reading', r'.read id' = .ok reading' ∧
      (reading'.diagnostics = [] ↔ ∀ s ∈ b.strings, Text.Readable s) ∧
      ((∀ s ∈ b.strings, Text.Readable s) → ∃ d, reading'.unit.declarations = [.datatype d] ∧
        d.name.text = name ∧ d.datatype.type.map forget = b) := by
  obtain ⟨ts, kind, hts, hp⟩ := meets_of_read h hd _ hb b rfl
  have hw := writtenAs_declared (PlacedBuiltin.writtenAs hp hts hx) hschema hshape hname
  rw [← htext] at hw
  exact exists_read_of_declared hfind hw.spelled

theorem exists_read_of_map_eq {u : SchemaUnit Unit}
    (h : (r.read id).map (fun x => (x.diagnostics, x.unit.map forget)) = .ok ([], u)) :
    ∃ reading, r.read id = .ok reading ∧ reading.diagnostics = [] ∧ reading.unit.map forget = u := by
  cases hread : r.read id with
  | error e => simp [hread, Except.map] at h
  | ok reading =>
    simp only [hread, Except.map, Except.ok.injEq, Prod.mk.injEq] at h
    exact ⟨reading, rfl, h.1, h.2⟩

/-- The list of floats is read from a text with other blanks than its own. -/
theorem readsBack_of_read_list :
    let r : Registry := ⟨#[Source.ofText "" "schema\"\"type T=List<Float[-1.5,_]>[1,_]"]⟩
    let b : Builtin Unit :=
      .list (.builtin (.float (.value ⟨0xBFF8000000000000⟩) .unbounded) ()) (.value 1) .unbounded
    let source := Source.ofText "" (b.declared "a\n" "T")
    let r' : Registry := ⟨#[source]⟩
    (∀ x ∈ b.floats, x.ReadsBack) ∧ ∃ reading depth, r.read ⟨1⟩ = .ok reading ∧ reading.diagnostics = [] ∧
      ⟨depth, .builtin b⟩ ∈ (reading.unit.map forget).walk ∧
      ∃ reading', r'.read ⟨1⟩ = .ok reading' ∧
        (reading'.diagnostics = [] ↔ ∀ s ∈ b.strings, Text.Readable s) ∧
        ((∀ s ∈ b.strings, Text.Readable s) → ∃ d, reading'.unit.declarations = [.datatype d] ∧
          d.name.text = "T" ∧ d.datatype.type.map forget = b) := by
  intro r b source r'
  have hx : ∀ x ∈ b.floats, x.ReadsBack := by decide
  have hread : (r.read ⟨1⟩).map (fun x => (x.diagnostics, x.unit.map forget)) =
      .ok ([], ⟨"", some (), none, [], [.datatype ⟨none, ⟨"T", ()⟩, ⟨b, ()⟩, ()⟩], ()⟩) := by cbv
  obtain ⟨reading, h, hd, hunit⟩ := exists_read_of_map_eq hread
  have hb : ⟨3, .builtin b⟩ ∈ (reading.unit.map forget).walk := by
    rw [hunit]
    simp [SchemaUnit.walk, Declaration.walk, DatatypeDecl.walk, b, Builtin.walk]
  exact ⟨hx, reading, 3, h, hd, hb, readsBack_of_read r ⟨1⟩ reading h hd 3 b hb hx "a\n" "T"
    (by decide) (by decide) (by decide) r' ⟨1⟩ source rfl rfl⟩

theorem declared_backspace : (Builtin.enum ["\x08", "b"] : Builtin Unit).declared "S" "T" =
    "schema \"S\"\ntype T = Enum[\"\\u\x7b8\x7d\", \"b\"]" := by
  decide

/-- A backspace has an escape in schemas, but its text in a datatype is no such escape. -/
theorem not_forall_readsBack : ¬ ∀ (r : Registry) (id : SourceId) (reading : Reading),
    r.read id = .ok reading → reading.diagnostics = [] → ∀ (depth : Nat) (b : Builtin Unit),
      ⟨depth, .builtin b⟩ ∈ (reading.unit.map forget).walk → (∀ x ∈ b.floats, x.ReadsBack) →
        ∀ (r' : Registry) (id' : SourceId) (source : Source), r'.find id' = .ok source →
          source.text = b.declared "S" "T" → ∃ reading', r'.read id' = .ok reading' ∧
            reading'.diagnostics = [] ∧ ∃ d, reading'.unit.declarations = [.datatype d] ∧
              d.datatype.type.map forget = b := by
  intro hall
  let r : Registry := ⟨#[Source.ofText "" "schema\"\"type T=Enum[\"\\b\",\"b\"]"]⟩
  let b : Builtin Unit := .enum ["\x08", "b"]
  let source := Source.ofText "" "schema \"S\"\ntype T = Enum[\"\\u\x7b8\x7d\", \"b\"]"
  have hread : (r.read ⟨1⟩).map (fun x => (x.diagnostics, x.unit.map forget)) =
      .ok ([], ⟨"", some (), none, [], [.datatype ⟨none, ⟨"T", ()⟩, ⟨b, ()⟩, ()⟩], ()⟩) := by cbv
  have hfaults : (tokenize source.text).2.isEmpty = false := by cbv
  obtain ⟨reading, h, hd, hunit⟩ := exists_read_of_map_eq hread
  have hb : ⟨3, .builtin b⟩ ∈ (reading.unit.map forget).walk := by
    rw [hunit]
    simp [SchemaUnit.walk, Declaration.walk, DatatypeDecl.walk, b, Builtin.walk]
  obtain ⟨reading', h', hd', -⟩ :=
    hall r ⟨1⟩ reading h hd 3 b hb (by decide) ⟨#[source]⟩ ⟨1⟩ source rfl declared_backspace.symm
  obtain ⟨source', hsource, hclean, -⟩ := exists_of_read_of_diagnostics_eq_nil h' hd'
  obtain rfl : source = source' := Except.ok.inj hsource
  simp [hclean] at hfaults

end Registry

end SchemaLang
