import SchemaLang.Proofs.Located.Lexical
import SchemaLang.Proofs.Located.Places
import SchemaLang.Proofs.Nested.Reading
import SchemaLang.Proofs.Spared.Unit

/-!
# No lexical error is reported twice

* `Span.Apart s t`: two spans of one source have no byte in common, and neither lies inside the other.

A malformed token is an item of its text, and an extent that is clear has it before its first item or behind
its last one.

Main statement: what is reported about the grammar of a source is apart from its malformed tokens
(`Registry.apart_of_find`).
-/

set_option autoImplicit false

namespace SchemaLang

structure Span.Apart (s t : Span) : Prop where
  source_eq : s.source = t.source
  apart : s.stop.byte ≤ t.start.byte ∨ t.stop.byte ≤ s.start.byte

/-! ## Diagnostics -/

@[simp] theorem Diagnostic.phase_ofCode (c : ErrorCode) (values : List String) (s : Span) :
    (ofCode c values s).phase = some c.phase := by
  unfold ofCode
  split <;> rfl

@[simp] theorem Diagnostic.span_ofCode (c : ErrorCode) (values : List String) (s : Span) :
    (ofCode c values s).span = some s := by
  unfold ofCode
  split <;> rfl

theorem FaultCause.phase_diagnostic (c : FaultCause) (s : Span) :
    (c.diagnostic s).phase = some .lexical := by
  cases c <;> exact Diagnostic.phase_ofCode ..

theorem Problem.span_diagnostic (p : Problem Span) : p.diagnostic.span = some p.place := by
  obtain ⟨c, place⟩ := p
  cases c <;>
    simp [Problem.diagnostic, Diagnostic.withHintAt, Diagnostic.withHelp, Diagnostic.withNote,
      Diagnostic.withHint, Diagnostic.addHint]

/-! ## Items -/

/-- A token that is not hidden is an item. -/
theorem exists_item_of_visible {stream : List Token} {t : Token} (ht : t ∈ visibleTokens stream) :
    ∃ k, ∃ hk : k < (placedItems stream).length, kindAt (itemsOf stream) k = t.kind ∧
      (placedItems stream)[k].start = t.start ∧ (placedItems stream)[k].stop = t.stop := by
  obtain ⟨ps, last, hps, -, hmap⟩ := exists_placedItems_eq_append stream
  rw [← hmap] at ht
  obtain ⟨p, hp, rfl⟩ := List.mem_map.1 ht
  obtain ⟨k, hk, rfl⟩ := List.getElem_of_mem (show p ∈ placedItems stream by simp [hps, hp])
  refine ⟨k, hk, ?_, rfl, rfl⟩
  exact kindAt_of_getElem? (by simp [itemsOf, List.getElem?_eq_getElem hk])

theorem mem_visibleTokens_of_invalid {text : String} {t : Token} (ht : t ∈ (tokenize text).1)
    (hk : t.kind = .invalid) : t ∈ visibleTokens (tokenize text).1 := by
  obtain ⟨ts, hts, hall⟩ := (Lexer.reads_ofText text).tokens_eq_append
  rw [show (tokenize text).1 = _ from hts] at ht ⊢
  rcases List.mem_append.1 ht with ht | ht
  · rw [visibleTokens_append fun u hu => (hall u hu).1, List.mem_append]
    refine .inl (List.mem_filter.2 ⟨?_, by simp [Token.isHidden, hk, TokenKind.isTrivia]⟩)
    rw [List.takeWhile_eq_self_iff.2 fun u hu => by simpa using (hall u hu).1]
    exact ht
  · obtain rfl := List.mem_singleton.1 ht
    cases hk

/-- Where an extent is clear, a malformed item is before it or behind it. -/
theorem SpanTable.Spaced.apart {table : SpanTable} {id : SourceId} {items : Items} {e : Extent}
    {k : Nat} (h : table.Spaced id items.size) (he : e.Clear items) (hlast : e.last < items.size)
    (hk : k < items.size) (hkind : kindAt items k = .invalid) :
    (table.span e).Apart (table.at_ k) := by
  have hle := he.le
  refine ⟨(h.source _ (by omega)).trans (h.source k hk).symm, ?_⟩
  rw [h.stop_span hle hlast]
  show _ ∨ _ ≤ (table.at_ e.first).start.byte
  by_cases hfirst : k < e.first
  · exact .inr (h.lt k e.first hfirst (by omega)).2
  · by_cases hbehind : e.last < k
    · exact .inl (h.lt e.last k hbehind hk).2
    · exact absurd hkind (he.valid.ne_invalid k (by omega) (by omega))

/-! ## Readings -/

namespace Registry

theorem phase_of_faultDiagnostic {r : Registry} {id : SourceId} {f : Fault} {d : Diagnostic}
    (hd : r.faultDiagnostic id f = .ok d) : d.phase = some .lexical := by
  obtain ⟨s, -, rfl⟩ := exists_spanOf_of_faultDiagnostic hd
  exact FaultCause.phase_diagnostic ..

/-- **Lexical errors are reported once.** A registered source is read, whatever it holds, and each
diagnostic on its grammar has a span that is apart from those of all malformed tokens. -/
theorem apart_of_find (r : Registry) (id : SourceId) (source : Source)
    (h : r.find id = .ok source) :
    ∃ reading, r.read id = .ok reading ∧
      ∀ d ∈ reading.diagnostics, d.phase = some .syntactic → ∃ s, d.span = some s ∧
        ∀ t ∈ (tokenize source.text).1, t.kind = .invalid →
          ∃ st, r.spanOf id t.start t.stop = .ok st ∧ s.Apart st := by
  obtain ⟨lexical, table, hlexical, htable, hread⟩ := exists_read_eq h
  refine ⟨_, hread, ?_⟩
  have hended := ended_itemsOf (tokenize source.text).1
  have hspaced := spaced_spanTable h (spaced_placedItems source.text) htable
  have hsize : (itemsOf (tokenize source.text).1).size =
      (placedItems (tokenize source.text).1).length := by simp [itemsOf]
  rw [← hsize] at hspaced
  intro d hd hphase
  rcases List.mem_append.1 hd with hd | hd
  · obtain ⟨i, hi, rfl⟩ := List.getElem_of_mem hd
    have hall := forall₂_of_mapM hlexical
    have hfault := hall.get (hall.length_eq ▸ hi) hi
    cases (phase_of_faultDiagnostic hfault).symm.trans hphase
  · obtain ⟨p, hp, rfl⟩ := List.mem_map.1 hd
    refine ⟨table.span p.place, Problem.span_diagnostic _, fun t ht hk => ?_⟩
    obtain ⟨k, hk', hkind, hstart, hstop⟩ := exists_item_of_visible (mem_visibleTokens_of_invalid ht hk)
    refine ⟨table.at_ k, ?_, ?_⟩
    · rw [← hstart, ← hstop]
      exact spanOf_at htable hk'
    · exact hspaced.apart (clear_readUnit hended p hp)
        (hended.readWithin.lt_of_mem_problems p hp _ (List.mem_cons_self ..)).2 (hsize ▸ hk')
        (hkind.trans hk)

/-- The body of the type is not closed, and the member in it has text behind its name that is not a datatype
and text that is no token. -/
theorem apart_of_find_unclosed :
    let source := Source.ofText "" "schema \"S\" type T \x7b a + # b Enum[\"x\" ~"
    let r : Registry := ⟨#[source]⟩
    r.find ⟨1⟩ = .ok source ∧ ∃ reading, r.read ⟨1⟩ = .ok reading ∧
      ∀ d ∈ reading.diagnostics, d.phase = some .syntactic → ∃ s, d.span = some s ∧
        ∀ t ∈ (tokenize source.text).1, t.kind = .invalid →
          ∃ st, r.spanOf ⟨1⟩ t.start t.stop = .ok st ∧ s.Apart st := by
  intro source r
  have hfind : r.find ⟨1⟩ = .ok source := rfl
  exact ⟨hfind, apart_of_find r ⟨1⟩ source hfind⟩

end Registry

end SchemaLang
