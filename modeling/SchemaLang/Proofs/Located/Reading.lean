import SchemaLang.Proofs.Located.Lexical
import SchemaLang.Proofs.Located.Places
import SchemaLang.Proofs.Nested.Reading

/-!
# Every place that is reported is in the text

* `Registry.Real r id text s`: the span `s` is one of the source `id`, and both of its ends are positions
  of the text.
* `Span.Holds s text word`: at the bytes of the span, the text is `word`.
* `FaultFree text`: there is nothing to report of a text; `Registry.Reports`: what is reported.
* `Reading.Located`: all spans of a unit and of its diagnostics are real, and names are what the text has
  at their spans.

The span of an extent starts at the first item and ends at one of its two ends, so it is real if the
spans of both items are (`SpanTable.real_span`).

Main statement: whatever a registered source holds, it is read, and all that is read is located
(`Registry.located_of_find`).
-/

set_option autoImplicit false

namespace SchemaLang

structure Registry.Real (r : Registry) (id : SourceId) (text : String) (s : Span) : Prop where
  source_eq : s.source = id
  start_le : s.start.byte ≤ s.stop.byte
  stop_le : s.stop.byte ≤ text.utf8ByteSize
  start_eq : r.positionAt? id s.start.byte = some s.start
  stop_eq : r.positionAt? id s.stop.byte = some s.stop

def Span.Holds (s : Span) (text word : String) : Prop :=
  ∃ before after, text = before ++ word ++ after ∧ before.utf8ByteSize = s.start.byte ∧
    (before ++ word).utf8ByteSize = s.stop.byte

structure Reading.Located (r : Registry) (text : String) (x : Reading) : Prop where
  places : ∀ s ∈ x.unit.places, r.Real x.source text s
  reports : ∀ d ∈ x.diagnostics, ∀ s ∈ d.spans, r.Real x.source text s
  /-- A parameter stands behind a dollar sign, which its name leaves out. -/
  names : ∀ n ∈ x.unit.spellings, n.place.Holds text n.text

/-- Nothing is wrong with the lexemes of a text or with its grammar. -/
def FaultFree (text : String) : Prop :=
  (tokenize text).2 = [] ∧ (readUnit (itemsOf (tokenize text).1)).2 = []

/-! ## Bytes -/

namespace Source

variable {s : Source}

theorem byte_le_of_positionAt? {byte : Nat} {p : Position} (h : s.positionAt? byte = some p) :
    byte ≤ s.text.utf8ByteSize := by
  obtain ⟨before, ⟨after, hafter⟩, rfl, -⟩ := positionAt?_eq_some_iff.1 h
  rw [← utf8Len_toList, ← hafter, String.utf8Len_append]
  omega

/-- A place is as many bytes behind the start of the text as the code points before it have. -/
theorem eq_utf8Len_of_byteOf? {i byte : Nat} (h : s.byteOf? i = some byte) :
    byte = String.utf8Len (s.text.toList.take i) := by
  rw [byteOf?_eq] at h
  split at h
  · exact (Option.some.inj h).symm
  · cases h

end Source

/-! ## Spans -/

@[simp] theorem SpanTable.span_single (table : SpanTable) (k : Nat) :
    table.span (.single k) = table.at_ k := by
  show Span.mk _ _ (Position.later _ _) = _
  unfold Position.later
  split <;> rfl

namespace Registry

variable {r : Registry} {id : SourceId} {source : Source}

theorem real_spanOf (h : r.find id = .ok source) {start stop : Nat} {s : Span}
    (hs : r.spanOf id start stop = .ok s) : r.Real id source.text s := by
  obtain ⟨hle, hstop⟩ := le_of_spanOf h hs
  obtain ⟨hsource, hstartByte, hstopByte⟩ := bytes_of_spanOf h hs
  rw [spanOf_eq h hle hstop] at hs
  cases hs
  have hposition (i : Nat) : r.positionAt? id (Position.behind (source.text.toList.take i)).byte =
      some (.behind (source.text.toList.take i)) := by
    rw [positionAt?, find?_of_find h, Option.bind_some]
    exact Source.positionAt?_utf8Len (List.take_prefix i _)
  refine ⟨hsource, Source.le_of_byteOf? hstartByte hstopByte hle, ?_, hposition _, hposition _⟩
  have hlast := hposition stop
  rw [positionAt?, find?_of_find h, Option.bind_some] at hlast
  exact Source.byte_le_of_positionAt? hlast

theorem real_of_faultDiagnostic (h : r.find id = .ok source) {f : Fault} {d : Diagnostic}
    (hd : r.faultDiagnostic id f = .ok d) : ∀ s ∈ d.spans, r.Real id source.text s := by
  obtain ⟨s, hspan, rfl⟩ := exists_spanOf_of_faultDiagnostic hd
  rw [FaultCause.spans_diagnostic]
  simpa using real_spanOf h hspan

/-- An extent ends where one of its two items ends. -/
theorem Real.span {text : String} {table : SpanTable} {size : Nat}
    (h : ∀ i < size, r.Real id text (table.at_ i)) {e : Extent} (hfirst : e.first < size)
    (hlast : e.last < size) : r.Real id text (table.span e) := by
  have hf := h e.first hfirst
  have hl := h e.last hlast
  have hstart : (table.span e).start = (table.at_ e.first).start := rfl
  have hstop : (table.span e).stop = (table.at_ e.first).stop ∨
      (table.span e).stop = (table.at_ e.last).stop := by
    show Position.later _ _ = _ ∨ Position.later _ _ = _
    unfold Position.later
    split
    · exact .inl rfl
    · exact .inr rfl
  have hle : (table.at_ e.first).stop.byte ≤ (table.span e).stop.byte := by
    show _ ≤ (Position.later _ _).byte
    rw [Position.byte_later]
    exact Nat.le_max_left ..
  refine ⟨hf.source_eq, ?_, ?_, by rw [hstart]; exact hf.start_eq, ?_⟩
  · rw [hstart]
    exact Nat.le_trans hf.start_le hle
  · rcases hstop with hstop | hstop
    · rw [hstop]
      exact hf.stop_le
    · rw [hstop]
      exact hl.stop_le
  · rcases hstop with hstop | hstop
    · rw [hstop]
      exact hf.stop_eq
    · rw [hstop]
      exact hl.stop_eq

/-! ## Diagnostics -/

/-- What a diagnostic of a reading reports: a fault of the text at its span, or a problem of its grammar
with the spans of its places. -/
inductive Reports (r : Registry) (id : SourceId) (text : String) (table : SpanTable) :
    Diagnostic → Prop
  | fault {f : Fault} {s : Span} : f ∈ (tokenize text).2 → r.spanOf id f.start f.stop = .ok s →
      Reports r id text table (f.cause.diagnostic s)
  | problem {p : Problem Extent} : p ∈ (readUnit (itemsOf (tokenize text).1)).2 →
      Reports r id text table (p.map table.span).diagnostic

/-- A registered source is read. Its diagnostics report what is wrong with the text, and there are none
exactly if nothing is. -/
theorem exists_read_reports (h : r.find id = .ok source) :
    ∃ table reading, r.spanTable id (placedItems (tokenize source.text).1) = .ok table ∧
      r.read id = .ok reading ∧ (∀ d ∈ reading.diagnostics, r.Reports id source.text table d) ∧
      (reading.diagnostics = [] ↔ FaultFree source.text) := by
  obtain ⟨lexical, table, hlexical, htable, hread⟩ := exists_read_eq h
  have hall := forall₂_of_mapM hlexical
  refine ⟨table, _, htable, hread, fun d hd => ?_, ?_⟩
  · rcases List.mem_append.1 hd with hd | hd
    · obtain ⟨i, hi, rfl⟩ := List.getElem_of_mem hd
      obtain ⟨s, hs, hds⟩ :=
        exists_spanOf_of_faultDiagnostic (hall.get (hall.length_eq ▸ hi) hi)
      rw [List.get_eq_getElem] at hds
      rw [hds]
      exact .fault (List.get_mem ..) hs
    · obtain ⟨p, hp, rfl⟩ := List.mem_map.1 hd
      exact .problem hp
  · have hnil : lexical = [] ↔ (tokenize source.text).2 = [] := by
      rw [← List.length_eq_zero_iff, ← hall.length_eq, List.length_eq_zero_iff]
    rw [List.append_eq_nil_iff, hnil, List.map_eq_nil_iff, FaultFree]

/-! ## Names -/

theorem holds_spanOf (h : r.find id = .ok source) {p : PlacedItem} (hp : Sliced source.text p)
    {s : Span} (hs : r.spanOf id p.start p.stop = .ok s) : s.Holds source.text p.item.text := by
  obtain ⟨-, hstart, hstop⟩ := bytes_of_spanOf h hs
  have hstart := Source.eq_utf8Len_of_byteOf? hstart
  have hstop := Source.eq_utf8Len_of_byteOf? hstop
  -- the text up to the end of the item
  have htake : source.text.toList.take p.start ++ p.item.text.toList =
      source.text.toList.take p.stop := by
    have hp' := hp.start_le
    rw [hp.text_eq, show p.stop = p.start + (p.stop - p.start) by omega, List.take_add]
    simp
  have hbytes (cs : List Char) (word : String) :
      (String.ofList cs ++ word).utf8ByteSize = String.utf8Len (cs ++ word.toList) := by
    rw [String.utf8ByteSize_append, String.utf8ByteSize_ofList, ← utf8Len_toList,
      String.utf8Len_append]
  refine ⟨.ofList (source.text.toList.take p.start), .ofList (source.text.toList.drop p.stop),
    ?_, ?_, ?_⟩
  · refine String.toList_injective ?_
    rw [String.toList_append, String.toList_append, String.toList_ofList, String.toList_ofList,
      htake, List.take_append_drop]
  · rw [String.utf8ByteSize_ofList, hstart]
  · rw [hbytes, htake, hstop]

/-- At the span of an item, the text is the item. Behind the last item both are empty. -/
theorem holds_at (h : r.find id = .ok source) {table : SpanTable}
    (ht : r.spanTable id (placedItems (tokenize source.text).1) = .ok table) (k : Nat) :
    (table.span (.single k)).Holds source.text
      (itemAt (itemsOf (tokenize source.text).1) k).text := by
  rw [SpanTable.span_single]
  by_cases hk : k < (placedItems (tokenize source.text).1).length
  · rw [itemAt_itemsOf_of_lt hk]
    exact holds_spanOf h (sliced_of_mem_placedItems _ (List.getElem_mem hk)) (spanOf_at ht hk)
  · have hitem : (itemAt (itemsOf (tokenize source.text).1) k).text = "" := by
      have hsize : (itemsOf (tokenize source.text).1).size ≤ k := by
        simpa [itemsOf] using Nat.le_of_not_lt hk
      simp [itemAt, Array.getD_eq_getD_getElem?, Array.getElem?_eq_none hsize, Item.atEnd]
    have hzero : table.at_ k = Span.zero := by
      have hsize : table.spans.size ≤ k := by
        rw [← Array.length_toList, ← (forall₂_spanTable ht).length_eq]
        exact Nat.le_of_not_lt hk
      rw [SpanTable.at_, Array.getD_eq_getD_getElem?, Array.getElem?_eq_none hsize,
        Option.getD_none]
    rw [hitem, hzero]
    exact ⟨"", source.text, by simp, rfl, rfl⟩

/-! ## Readings -/

/-- **Real places.** A registered source is read, whatever it holds. All spans of the unit and of its
diagnostics are ranges of positions of its text, and each name is what the text has at its span. -/
theorem located_of_find (r : Registry) (id : SourceId) (source : Source)
    (h : r.find id = .ok source) :
    ∃ reading, r.read id = .ok reading ∧ reading.source = id ∧ reading.Located r source.text := by
  -- faults
  obtain ⟨lexical, hlexical⟩ : ∃ ds,
      (tokenize source.text).2.mapM (r.faultDiagnostic id) = .ok ds := by
    refine exists_mapM fun f hf => ?_
    obtain ⟨hle, hstop⟩ := within_of_mem_tokenize f hf
    obtain ⟨s, hs⟩ := exists_spanOf h hle hstop
    exact ⟨f.cause.diagnostic s, by rw [faultDiagnostic, hs]; rfl⟩
  have hfaults : ∀ d ∈ lexical, ∀ s ∈ d.spans, r.Real id source.text s := by
    intro d hd
    obtain ⟨i, hi, rfl⟩ := List.getElem_of_mem hd
    have hall := forall₂_of_mapM hlexical
    exact real_of_faultDiagnostic h (hall.get (hall.length_eq ▸ hi) hi)
  -- items
  let items := itemsOf (tokenize source.text).1
  obtain ⟨table, htable⟩ : ∃ table,
      r.spanTable id (placedItems (tokenize source.text).1) = .ok table := by
    refine exists_spanTable fun p hp => ?_
    obtain ⟨hle, hstop, -⟩ := sliced_of_mem_placedItems p hp
    exact exists_spanOf h hle hstop
  have hsize : items.size = (placedItems (tokenize source.text).1).length := by simp [items]
  have hat : ∀ i < items.size, r.Real id source.text (table.at_ i) := by
    intro i hi
    exact real_spanOf h (spanOf_at htable (hsize ▸ hi))
  have hread : ReadWithin items := (ended_itemsOf _).readWithin
  have hplaces := hread.lt_of_mem_places
  refine ⟨⟨id, (readUnit items).1.map table.span,
    lexical ++ (readUnit items).2.map fun p => (p.map table.span).diagnostic⟩, ?_, rfl, ?_, ?_, ?_⟩
  · simp only [read, h, hlexical, readTokens, htable, items]
  · intro s hs
    rw [SchemaUnit.places_map] at hs
    obtain ⟨e, he, rfl⟩ := List.mem_map.1 hs
    exact Real.span hat (hplaces e he).1 (hplaces e he).2
  · intro d hd s hs
    rcases List.mem_append.1 hd with hd | hd
    · exact hfaults d hd s hs
    · obtain ⟨p, hp, rfl⟩ := List.mem_map.1 hd
      rw [Problem.spans_diagnostic, Problem.places_map] at hs
      obtain ⟨e, he, rfl⟩ := List.mem_map.1 hs
      obtain ⟨hfirst, hlast⟩ := hread.lt_of_mem_problems p hp e he
      exact Real.span hat hfirst hlast
  · intro n hn
    rw [SchemaUnit.spellings_map] at hn
    obtain ⟨m, hm, rfl⟩ := List.mem_map.1 hn
    obtain ⟨k, rfl⟩ := spelt_readUnit (dollarsFirst_itemsOf source.text) m hm
    exact holds_at h htable k

/-- The header has an escape that means nothing behind a character of two bytes, and the type is not
closed. -/
theorem located_of_find_unclosed :
    let source := Source.ofText "" "schema \"é\\q\" type T \x7b ! \"ü\" a -> f |$x| \x7b $x.d \x7d"
    let r : Registry := ⟨#[source]⟩
    r.find ⟨1⟩ = .ok source ∧
      ∃ reading, r.read ⟨1⟩ = .ok reading ∧ reading.source = ⟨1⟩ ∧ reading.Located r source.text := by
  intro source r
  have hfind : r.find ⟨1⟩ = .ok source := rfl
  exact ⟨hfind, located_of_find r ⟨1⟩ source hfind⟩

end Registry

end SchemaLang
