import Mathlib
import SchemaLang.Proofs.Expressions
import SchemaLang.Proofs.Phrase.InOrder
import SchemaLang.Proofs.Streams
import SchemaLang.Proofs.Units
import SchemaLang.Reading

/-!
# Readings without diagnostics

Main statement: the tokens of a source that is read without a diagnostic derive the unit that is
read, all of them and nothing else (`Registry.derives_of_read`).

The grammar is the lenient one; in the strict grammar the statement fails
(`Registry.not_forall_read_strict`).
-/

set_option autoImplicit false

namespace SchemaLang

namespace Registry

variable {r : Registry} {id : SourceId} {reading : Reading}

/-- A reading without diagnostics comes from a text without faults and a unit without problems. -/
theorem exists_of_read_of_diagnostics_eq_nil (h : r.read id = .ok reading)
    (hd : reading.diagnostics = []) :
    ∃ source, r.find id = .ok source ∧ (tokenize source.text).2 = [] ∧
      (readUnit (itemsOf (tokenize source.text).1)).2 = [] ∧
      ∃ table : SpanTable,
        reading.unit = (readUnit (itemsOf (tokenize source.text).1)).1.map table.span := by
  unfold read at h
  split at h
  · cases h
  rename_i source hsource
  dsimp only at h
  split at h
  · cases h
  rename_i lexical hlexical
  split at h
  · cases h
  rename_i u hu
  cases h
  obtain ⟨rfl, hg⟩ := List.append_eq_nil_iff.1 hd
  have hfaults : (tokenize source.text).2 = [] := by
    cases hf : (tokenize source.text).2 with
    | nil => rfl
    | cons f fs =>
      rw [hf, List.mapM_cons] at hlexical
      cases h1 : r.faultDiagnostic id f with
      | error e => simp [h1, bind, Except.bind] at hlexical
      | ok d =>
        cases h2 : fs.mapM (r.faultDiagnostic id) <;>
          simp [h1, h2, bind, Except.bind, pure, Except.pure] at hlexical
  unfold readTokens at hu
  dsimp only at hu
  split at hu
  · cases hu
  rename_i table htable
  cases hu
  exact ⟨source, hsource, hfaults, by simpa using hg, table, rfl⟩

/-- **Soundness of clean readings.** If a source is read without a diagnostic, its visible tokens
derive the unit that is read. In that unit all ranges are in order, and all imports have aliases that
are words, no keywords and not taken twice. -/
theorem derives_of_read (r : Registry) (id : SourceId) (reading : Reading)
    (h : r.read id = .ok reading) (hd : reading.diagnostics = []) :
    ∃ source, r.find id = .ok source ∧
      ∃ ts : List Item, ts.map (fun t => (t.kind, t.text)) =
          (visibleTokens (tokenize source.text).1).map (fun t => (t.kind, t.text)) ∧
        SchemaUnit.Derives true ts (reading.unit.map forget) ∧
        (∀ v ∈ (reading.unit.map forget).walk, v.InOrder) ∧
        (∀ d ∈ reading.unit.imports, checkAlias d.effectiveAlias = .ok ()) ∧
        (reading.unit.imports.map Import.effectiveAlias).Nodup := by
  obtain ⟨source, hsource, hf, hp, table, hu⟩ := exists_of_read_of_diagnostics_eq_nil h hd
  obtain ⟨ts, k, hs, hk, hder, halias, hnodup⟩ :=
    derives_of_readUnit (wellSpelled_itemsOf source.text) (noInvalid_itemsOf hf) hp
  obtain ⟨us, hus, hnus, hkus, -, hm⟩ := exists_stretch_itemsOf (tokenize source.text).1
  have hts : ts = us := hs.eq_of_noEnd hder.legible.noEnd hk hus hnus hkus
  have hforget : reading.unit.map forget =
      (readUnit (itemsOf (tokenize source.text).1)).1.map forget := by
    rw [hu, SchemaUnit.map_map]
    rfl
  have himports : reading.unit.imports =
      (readUnit (itemsOf (tokenize source.text).1)).1.imports.map (Import.map table.span) := by
    rw [hu]
    rfl
  refine ⟨source, hsource, ts, hts ▸ hm, hforget ▸ hder, ?_, ?_, ?_⟩
  · rw [hforget]
    exact hder.inOrder_of_mem_walk
  · rw [himports]
    simpa using halias
  · rw [himports, List.map_map]
    simpa [Function.comp_def] using hnodup

/-- A type with an enumeration is read and derived. -/
theorem derives_of_read_enum :
    let r : Registry :=
      ⟨#[Source.ofText "" "schema\"s\"type T\x7ba Enum[\"x\",\"y\"]\x7d"]⟩
    ∃ reading, r.read ⟨1⟩ = .ok reading ∧ reading.diagnostics = [] ∧
      ∃ source, r.find ⟨1⟩ = .ok source ∧
        ∃ ts : List Item, ts.map (fun t => (t.kind, t.text)) =
            (visibleTokens (tokenize source.text).1).map (fun t => (t.kind, t.text)) ∧
          SchemaUnit.Derives true ts (reading.unit.map forget) ∧
          (∀ v ∈ (reading.unit.map forget).walk, v.InOrder) ∧
          (∀ d ∈ reading.unit.imports, checkAlias d.effectiveAlias = .ok ()) ∧
          (reading.unit.imports.map Import.effectiveAlias).Nodup := by
  have hclean : (read ⟨#[Source.ofText "" "schema\"s\"type T\x7ba Enum[\"x\",\"y\"]\x7d"]⟩ ⟨1⟩).map
      Reading.diagnostics = .ok [] := by decide +kernel
  intro r
  cases h : r.read ⟨1⟩ with
  | error e => simp [r, h, Except.map] at hclean
  | ok reading =>
    have hd : reading.diagnostics = [] := by simpa [r, h, Except.map] using hclean
    exact ⟨reading, rfl, hd, derives_of_read r ⟨1⟩ reading h hd⟩

end Registry

/-! ## The strict grammar -/

/-- In the strict grammar, a constraint that is an operation with a ternary on its left has a
parenthesis. -/
theorem SchemaUnit.Derives.exists_lParen {ts : List Item} {u : SchemaUnit Unit}
    (h : SchemaUnit.Derives false ts u) {t : TypeDecl Unit} {i : Invariant Unit}
    (ht : .type t ∈ u.declarations) (hi : .invariant i ∈ t.members) {op : BinaryOp}
    {c a b e : Expr Unit} (hc : i.constraint = .binary op (.ternary c a b ()) e ()) :
    ∃ x ∈ ts, x.kind = .symbol .lParen := by
  obtain ⟨-, -, -, hdecls⟩ := h
  obtain ⟨us, hus, ⟨⟨-, -, -, -, hms, -⟩⟩⟩ := hdecls.exists_of_mem ht
  obtain ⟨vs, hvs, hm⟩ := hms.exists_of_mem hi
  rcases hm with _ | _ | _ | ⟨⟨-, -, he⟩⟩
  dsimp only at hc
  subst hc
  obtain ⟨x, xs, rfl, hx⟩ := Expr.Derives.binary_strict he
  have hx' := hvs (List.mem_cons_of_mem _ (List.mem_cons_of_mem _ (List.mem_cons_self ..)))
  exact ⟨x, by
    have := hus (show x ∈ _ by simp [hx'])
    simp [this], hx⟩

namespace Registry

/-- Its constraint is `a ? {b} : {c} + d`. -/
def ternaryOperandText : String := "schema\"\"type T\x7b!\"\"a?\x7bb\x7d:\x7bc\x7d+d\x7d"

theorem read_ternaryOperandText :
    (read ⟨#[Source.ofText "" ternaryOperandText]⟩ ⟨1⟩).map
        (fun x => (x.diagnostics, x.unit.map forget)) =
      .ok ([], ⟨"", some (), none, [], [.type ⟨none, ⟨"T", ()⟩, .none, [], [.invariant ⟨"",
        .binary .add (.ternary (.property "a" ()) (.property "b" ()) (.property "c" ()) ())
          (.property "d" ()) (), ()⟩], ()⟩], ()⟩) := by
  cbv

theorem all_ne_lParen_ternaryOperandText :
    ((visibleTokens (tokenize ternaryOperandText).1).all fun t => t.kind != .symbol .lParen) =
      true := by
  decide +kernel

/-- The constraint is read as a sum, which no tokens without parentheses derive in the strict
grammar. -/
theorem not_forall_read_strict :
    ¬ ∀ (r : Registry) (id : SourceId) (reading : Reading), r.read id = .ok reading →
      reading.diagnostics = [] → ∃ source, r.find id = .ok source ∧
        ∃ ts : List Item, ts.map (fun t => (t.kind, t.text)) =
            (visibleTokens (tokenize source.text).1).map (fun t => (t.kind, t.text)) ∧
          SchemaUnit.Derives false ts (reading.unit.map forget) := by
  intro hall
  have hread := read_ternaryOperandText
  cases h : read ⟨#[Source.ofText "" ternaryOperandText]⟩ ⟨1⟩ with
  | error e => simp [h, Except.map] at hread
  | ok reading =>
    simp only [h, Except.map, Except.ok.injEq, Prod.mk.injEq] at hread
    obtain ⟨source, hsource, ts, hts, hder⟩ := hall _ ⟨1⟩ reading h hread.1
    obtain rfl : Source.ofText "" ternaryOperandText = source := by
      simpa [find, find?, SourceId.isNone] using hsource
    rw [hread.2] at hder
    obtain ⟨x, hx, hk⟩ :=
      hder.exists_lParen (List.mem_singleton.2 rfl) (List.mem_singleton.2 rfl) rfl
    have hmem : (x.kind, x.text) ∈ ts.map fun t => (t.kind, t.text) := List.mem_map_of_mem hx
    rw [hts] at hmem
    obtain ⟨y, hy, hxy⟩ := List.mem_map.1 hmem
    have := List.all_eq_true.1 all_ne_lParen_ternaryOperandText y hy
    simp only [Prod.mk.injEq] at hxy
    simp [hxy.1, hk] at this

end Registry

end SchemaLang
