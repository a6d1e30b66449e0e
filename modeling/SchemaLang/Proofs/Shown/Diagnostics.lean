import SchemaLang.Proofs.Shown.Marked
import SchemaLang.Proofs.Shown.Snippet
import SchemaLang.Proofs.Spared.Reading
import SchemaLang.Report.Render

/-!
# Diagnostics in their source

* `Span.ShownIn s text picture`: a picture starts with the line on which a span starts, and has carets
  below it from the column of the start on.
* `Span.AtEmptyEnd text s`: a span that starts at the end of a text, on a line without a character.

A text that ends in a newline has a place behind it, and so has the empty text. The place has a line and a
column, but readers count no line there, so a snippet has no row for it. A diagnostic at the end of such a
text is the only one that its snippet does not show.

Main statements: a span that marks its text is shown unless it is at such an end (`Span.Marks.shownIn`,
`Span.Marks.snippet_eq_gutter`), and so is each diagnostic of a reading (`Registry.shown_of_find`).
-/

set_option autoImplicit false

namespace SchemaLang

namespace Span

/-- Some of the line, from its start, is in the first row below the gutter, with its number. The first
caret in the next row is at the column at which the span starts. -/
def ShownIn (s : Span) (text picture : String) : Prop :=
  ∃ width line shown carets rest, (Text.pieces text.toList)[s.start.line - 1]? = some line ∧
    shown <+: line ∧ s.start.column ≤ shown.length ∧ (toString s.start.line).length ≤ width ∧
    0 < carets ∧
    picture = gutter width ++ caretRows width s.start.line s.start.column carets shown ++ rest

def AtEmptyEnd (text : String) (s : Span) : Prop :=
  s.start.byte = text.utf8ByteSize ∧ s.start.column = 0

theorem length_toString_le {m n : Nat} (h : m ≤ n) : (toString m).length ≤ (toString n).length := by
  have hn : n < 10 ^ (toString n).length :=
    (Nat.length_repr_le_iff Nat.length_repr_pos).1 (Nat.le_refl _)
  exact (Nat.length_repr_le_iff Nat.length_repr_pos).2 (Nat.lt_of_le_of_lt h hn)

variable {text : String} {s : Span}

/-- A line that is shown as far as its span starts. -/
theorem shownIn_snippet {before after line : List Char} (htext : text.toList = before ++ after)
    (hstart : s.start = .behind before) (hline : Text.lineAround? before after = some line)
    (hcolumn : s.start.column ≤ (s.shownLine line).length) :
    s.ShownIn text (snippet (some text) s false) := by
  obtain ⟨rest, hrest, -⟩ := exists_snippet_eq htext hstart hline hcolumn
  refine ⟨_, Text.around before after, s.shownLine line, _, rest, ?_,
    (s.shownLine_isPrefix line).trans (Text.isPrefix_around hline), hcolumn,
    length_toString_le s.start_le_lastLine, s.carets_pos _, hrest⟩
  rw [htext, hstart]
  exact Text.getElem?_pieces before after

/-- A gutter has no carets. -/
theorem not_shownIn_gutter (width : Nat) : ¬ s.ShownIn text (gutter width) := by
  rintro ⟨width', line, shown, carets, rest, -, -, -, -, hcarets, heq⟩
  have hcaret : '^' ∈ (gutter width).toList := by
    rw [heq]
    simp [caretRows, Nat.ne_of_gt hcarets]
  simp [gutter, spaces] at hcaret

namespace Marks

theorem shownIn (h : s.Marks text.toList) (hend : ¬ s.AtEmptyEnd text) :
    s.ShownIn text (snippet (some text) s false) := by
  cases h with
  | atEnd hstart hstop =>
    have hlast : Text.lastPart text.toList ≠ [] := by
      intro hnil
      refine hend ⟨by rw [hstart, ← utf8Len_toList]; rfl, ?_⟩
      rw [hstart, Position.behind, hnil]
      rfl
    have hline : Text.lineAround? text.toList [] = some (Text.lastPart text.toList) := by
      simp [Text.lineAround?, Text.around, hlast]
    refine shownIn_snippet (List.append_nil _).symm hstart hline ?_
    have hcolumn : s.start.column = (Text.lastPart text.toList).length := by rw [hstart]; rfl
    have hshown : s.shownLine (Text.lastPart text.toList) = Text.lastPart text.toList := by
      rw [shownLine, if_pos (by rw [hstart, hstop])]
      exact displayedLine_of_length_le (Nat.le_of_eq (by rw [hstop]; rfl))
    rw [hshown, hcolumn]
  | stretch before covered after c htext hc hstart hstop =>
    obtain ⟨line, hline, hreach⟩ :=
      Text.exists_lineAround?_eq before [] (covered ++ after) (by simp) hc
    rw [List.append_nil] at hreach
    refine shownIn_snippet htext hstart hline ?_
    have hcolumn : s.start.column = (Text.lastPart before).length := by rw [hstart]; rfl
    have hshown : Text.lastPart before ++ [c] <+: s.shownLine line := by
      unfold shownLine
      split
      · rename_i heq
        refine isPrefix_displayedLine hreach hc ?_
        -- a span that stays on its line has no newline in it
        have hnewline : '\n' ∉ c :: covered := by
          rw [hstart, hstop] at heq
          simp only [Position.behind, List.count_append] at heq
          exact List.count_eq_zero.1 (by omega)
        rw [hstop, Position.behind, Text.lastPart_append_of_notMem _ hnewline]
        simp
      · exact hreach
    have := hshown.length_le
    rw [List.length_append] at this
    omega

/-- At an empty end there is nothing to show. -/
theorem snippet_eq_gutter (h : s.Marks text.toList) (hend : s.AtEmptyEnd text) :
    snippet (some text) s false = gutter (toString s.start.line).length := by
  obtain ⟨hbyte, hcolumn⟩ := hend
  rw [← utf8Len_toList] at hbyte
  cases h with
  | atEnd hstart hstop =>
    have hlast : Text.lastPart text.toList = [] := by
      rw [hstart] at hcolumn
      exact List.length_eq_zero_iff.1 hcolumn
    rw [SchemaLang.snippet_eq_gutter (List.append_nil _).symm hstart
      (Text.lineAround?_eq_none_iff.2 ⟨hlast, rfl⟩), lastLine_of_eq (by rw [hstart, hstop])]
  | stretch before covered after c htext hc hstart hstop =>
    rw [hstart, htext] at hbyte
    have := utf8Len_pos (List.cons_ne_nil c (covered ++ after))
    simp only [Position.behind, String.utf8Len_append] at hbyte
    omega

end Marks

end Span

/-! ## Readings -/

theorem FaultCause.span_diagnostic (c : FaultCause) (s : Span) : (c.diagnostic s).span = some s := by
  cases c <;> exact Diagnostic.span_ofCode ..

/-- A diagnostic at a place has the snippet of the place between its location and its hints. -/
theorem Diagnostic.render_eq {d : Diagnostic} {s : Span} (hspan : d.span = some s)
    (hs : s.isZero = false) (source : Option String) (file : String) (color : Bool) :
    d.render source file color = d.header color ++ d.messageBlock ++ d.locationBlock file ++
      snippet source s color ++ hintBlock source d.hints color := by
  have hplace : d.place? = some s := by
    rw [Diagnostic.place?, hspan]
    simp [hs]
  rw [Diagnostic.render, hplace]

theorem Span.Marks.isZero {text : List Char} {s : Span} (h : s.Marks text) : s.isZero = false := by
  have hline : s.start.line ≠ 0 := by
    cases h with
    | atEnd hstart => rw [hstart]; exact Nat.succ_ne_zero _
    | stretch _ _ _ _ _ _ hstart => rw [hstart]; exact Nat.succ_ne_zero _
  refine decide_eq_false fun hzero => hline ?_
  rw [hzero]
  rfl

namespace Registry

theorem Reports.exists_marks {r : Registry} {id : SourceId} {source : Source}
    (h : r.find id = .ok source) {table : SpanTable}
    (htable : r.spanTable id (placedItems (tokenize source.text).1) = .ok table) {d : Diagnostic}
    (hd : r.Reports id source.text table d) :
    ∃ span, d.span = some span ∧ span.Marks source.text.toList := by
  cases hd with
  | fault hf hs => exact ⟨_, FaultCause.span_diagnostic .., marks_of_fault h hf hs⟩
  | @problem p hp =>
    have hsize : (itemsOf (tokenize source.text).1).size =
        (placedItems (tokenize source.text).1).length := by simp [itemsOf]
    obtain ⟨hfirst, hlast⟩ := (ended_itemsOf _).readWithin.lt_of_mem_problems p hp p.place
      (List.mem_cons_self ..)
    exact ⟨table.span p.place, Problem.span_diagnostic _,
      marks_span h htable (hsize ▸ hfirst) (hsize ▸ hlast)⟩

/-- **Diagnostics are shown.** Whatever a registered source holds, each diagnostic of what is read from it
has a place, and is rendered with a snippet of the place. The snippet shows the line on which the place
starts, with carets from there on; only at the end of the text, on a line without a character, it has
nothing but the gutter. -/
theorem shown_of_find (r : Registry) (id : SourceId) (source : Source)
    (h : r.find id = .ok source) :
    ∃ reading, r.read id = .ok reading ∧ ∀ d ∈ reading.diagnostics, ∃ span, d.span = some span ∧
      (∀ file, d.render (some source.text) file false =
        d.header false ++ d.messageBlock ++ d.locationBlock file ++
          snippet (some source.text) span false ++ hintBlock (some source.text) d.hints false) ∧
      (¬ span.AtEmptyEnd source.text →
        span.ShownIn source.text (snippet (some source.text) span false)) ∧
      (span.AtEmptyEnd source.text →
        snippet (some source.text) span false = gutter (toString span.start.line).length) := by
  obtain ⟨table, reading, htable, hread, hreports, -⟩ := exists_read_reports h
  refine ⟨reading, hread, fun d hd => ?_⟩
  obtain ⟨span, hspan, hmarks⟩ := (hreports d hd).exists_marks h htable
  exact ⟨span, hspan, fun file => Diagnostic.render_eq hspan hmarks.isZero _ file false,
    hmarks.shownIn, hmarks.snippet_eq_gutter⟩

/-- A text with a problem of grammar has a diagnostic. -/
theorem diagnostics_ne_nil {r : Registry} {id : SourceId} {source : Source} {reading : Reading}
    (h : r.find id = .ok source) (hread : r.read id = .ok reading)
    (hproblems : (readUnit (itemsOf (tokenize source.text).1)).2.isEmpty = false) :
    reading.diagnostics ≠ [] := by
  obtain ⟨table, reading', -, hread', -, hnil⟩ := exists_read_reports h
  obtain rfl := Except.ok.inj (hread'.symm.trans hread)
  intro hempty
  rw [(hnil.1 hempty).2] at hproblems
  cases hproblems

/-- The bracket is not closed where the text ends, behind a comment on the second line. -/
theorem shown_of_find_unclosed :
    let source := Source.ofText "" "schema \"s\"\ntype T = List[é // é"
    let r : Registry := ⟨#[source]⟩
    r.find ⟨1⟩ = .ok source ∧ ∃ reading, r.read ⟨1⟩ = .ok reading ∧ reading.diagnostics ≠ [] ∧
      ∀ d ∈ reading.diagnostics, ∃ span, d.span = some span ∧
        (¬ span.AtEmptyEnd source.text →
          span.ShownIn source.text (snippet (some source.text) span false)) := by
  intro source r
  have hfind : r.find ⟨1⟩ = .ok source := rfl
  have hproblems : (readUnit (itemsOf (tokenize source.text).1)).2.isEmpty = false := by
    decide +kernel
  obtain ⟨reading, hread, hshown⟩ := shown_of_find r ⟨1⟩ source hfind
  refine ⟨hfind, reading, hread, diagnostics_ne_nil hfind hread hproblems, fun d hd => ?_⟩
  obtain ⟨span, hspan, -, hshows, -⟩ := hshown d hd
  exact ⟨span, hspan, hshows⟩

/-- The empty text lacks its header, and the snippet that should show where has nothing but the
gutter. -/
theorem not_forall_shownIn : ¬ ∀ (r : Registry) (id : SourceId) (source : Source),
    r.find id = .ok source → ∃ reading, r.read id = .ok reading ∧
      ∀ d ∈ reading.diagnostics, ∃ span, d.span = some span ∧
        span.ShownIn source.text (snippet (some source.text) span false) := by
  intro hall
  obtain ⟨source, hsource⟩ : ∃ source, source = Source.ofText "" "" := ⟨_, rfl⟩
  have htext : source.text = "" := by rw [hsource]; rfl
  have hproblems : (readUnit (itemsOf (tokenize source.text).1)).2.isEmpty = false := by
    rw [htext]
    decide +kernel
  have hfind : (⟨#[source]⟩ : Registry).find ⟨1⟩ = .ok source := rfl
  obtain ⟨table, reading, htable, hread, hreports, -⟩ := exists_read_reports hfind
  obtain ⟨reading', hread', hshown⟩ := hall _ _ _ hfind
  obtain rfl := Except.ok.inj (hread.symm.trans hread')
  have hfaulty := diagnostics_ne_nil hfind hread hproblems
  obtain ⟨d, hd⟩ := List.exists_mem_of_ne_nil _ hfaulty
  obtain ⟨span, hspan, hmarks⟩ := (hreports d hd).exists_marks hfind htable
  obtain ⟨span', hspan', hshows⟩ := hshown d hd
  obtain rfl := Option.some.inj (hspan.symm.trans hspan')
  have hend : span.AtEmptyEnd source.text := by
    rw [htext] at hmarks ⊢
    cases hmarks with
    | atEnd hstart => exact ⟨by rw [hstart]; rfl, by rw [hstart]; rfl⟩
    | stretch _ _ _ _ hnil => simp at hnil
  rw [hmarks.snippet_eq_gutter hend] at hshows
  exact Span.not_shownIn_gutter _ hshows

end Registry

end SchemaLang
