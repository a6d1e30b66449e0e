import SchemaLang.Proofs.Faults
import SchemaLang.Proofs.Located.Reading

/-!
# Spans that start visibly

* `Span.Marks text s`: the span is that of the end of the text, or of a stretch that does not start with
  a blank.

No token starts with a blank but the blank ones, which no fault and no item of the grammar is. A bad
escape starts with its backslash. So the spans of faults and of items mark their text, and a span that
goes on from an item to another one starts where the first one does (`Span.Marks.extend`).

Main statements: the faults of a text and the extents of its items have spans that mark it
(`Registry.marks_of_fault`, `Registry.marks_span`).
-/

set_option autoImplicit false

namespace SchemaLang

inductive Span.Marks (text : List Char) (s : Span) : Prop where
  | atEnd : s.start = .behind text → s.stop = .behind text → s.Marks text
  | stretch (before covered after : List Char) (c : Char) :
      text = before ++ c :: (covered ++ after) → Text.isBlank c = false →
        s.start = .behind before → s.stop = .behind (before ++ c :: covered) → s.Marks text

/-! ## First characters -/

namespace Lexer

/-- A token starts with the character that the scan of its lexeme looks at first. -/
theorem startsVisibly_of_mem_steps {l : Lexer} : ∀ s ∈ l.steps, s.token.kind ≠ .blank →
    ∀ c ∈ s.token.text.toList.head?, Text.isBlank c = false := by
  refine forall_mem_steps (I := fun _ => True) (fun _ _ => trivial) (fun l _ => ?_) trivial
  cases hr : l.rest with
  | nil =>
    rw [next_of_rest_eq_nil hr]
    exact fun _ _ hc => by cases hc
  | cons c cs =>
    rw [next_of_rest_eq_cons hr]
    intro hk d hd
    have hspace : isSpace c = false := by
      simpa using fun h => hk ((Lexeme.kind_scan_eq_blank_iff l.afterOperand c cs).2 h)
    have hs : _ ++ _ = c :: cs := Lexeme.splits_scan l.afterOperand c cs
    obtain ⟨e, es, he⟩ := List.exists_cons_of_ne_nil (Lexeme.text_scan_ne_nil l.afterOperand c cs)
    rw [he, List.cons_append] at hs
    obtain ⟨rfl, -⟩ := List.cons.inj hs
    have hde : d = e := by simpa [stepOver, he] using hd.symm
    rw [hde]
    exact (Bool.or_eq_false_iff.1 hspace).1

end Lexer

/-- A bad escape starts with a backslash. -/
theorem head?_sequence_of_mem_bad {skip offset : Nat} {cs : List Char} :
    ∀ b ∈ (unescapeFrom skip offset cs).bad, b.sequence.toList.head? = some '\\' := by
  induction cs generalizing skip offset with
  | nil => cases skip <;> simp [unescapeFrom, Unescaped.empty]
  | cons c cs ih =>
    intro b hb
    cases skip with
    | succ skip => exact ih b hb
    | zero =>
      rw [unescapeFrom] at hb
      split at hb
      · rename_i hc
        split at hb
        · exact ih b hb
        · rcases List.mem_cons.1 hb with rfl | hb
          · simp [hc]
          · exact ih b hb
      · exact ih b hb

/-! ## Places -/

theorem isPrefix_of_utf8Len_le {as bs cs : List Char} (has : as <+: cs) (hbs : bs <+: cs)
    (h : String.utf8Len as ≤ String.utf8Len bs) : as <+: bs := by
  rcases List.prefix_or_prefix_of_prefix has hbs with hab | ⟨between, rfl⟩
  · exact hab
  · have hnil : between = [] := by
      by_contra hne
      have := utf8Len_pos hne
      rw [String.utf8Len_append] at h
      omega
    rw [hnil, List.append_nil]

namespace Span.Marks

variable {text : List Char} {s : Span}

theorem exists_stop (h : s.Marks text) : ∃ before, before <+: text ∧ s.stop = .behind before := by
  cases h with
  | atEnd _ hstop => exact ⟨text, List.prefix_rfl, hstop⟩
  | stretch before covered after c htext _ _ hstop =>
    exact ⟨_, ⟨after, by rw [htext, List.append_assoc]; rfl⟩, hstop⟩

/-- A span may go on up to any place behind. -/
theorem extend (h : s.Marks text) {before : List Char} (hb : before <+: text) :
    Marks text ⟨s.source, s.start, s.stop.later (.behind before)⟩ := by
  unfold Position.later
  split
  · exact h
  rename_i hle
  have hle : s.stop.byte ≤ String.utf8Len before := Nat.le_of_not_lt hle
  cases h with
  | atEnd hstart hstop =>
    rw [hstop] at hle
    obtain rfl := (isPrefix_of_utf8Len_le List.prefix_rfl hb hle).eq_of_length_le hb.length_le
    exact .atEnd hstart rfl
  | stretch us covered vs c htext hc hstart hstop =>
    rw [hstop] at hle
    have hstretch : us ++ c :: covered <+: text := ⟨vs, by rw [htext, List.append_assoc]; rfl⟩
    obtain ⟨more, rfl⟩ := isPrefix_of_utf8Len_le hstretch hb hle
    obtain ⟨rest, hrest⟩ := hb
    exact .stretch us (covered ++ more) rest c (by rw [← hrest]; simp) hc hstart (by simp)

end Span.Marks

namespace Registry

variable {r : Registry} {id : SourceId} {source : Source}

theorem marks_spanOf (h : r.find id = .ok source) {start stop : Nat} {s : Span}
    (hs : r.spanOf id start stop = .ok s) (hlt : start < stop)
    (hc : ∀ c ∈ (source.text.toList.drop start).head?, Text.isBlank c = false) :
    s.Marks source.text.toList := by
  obtain ⟨hle, hstop⟩ := le_of_spanOf h hs
  rw [spanOf_eq h hle hstop] at hs
  cases hs
  have hsize : source.text.toList.length = source.size := String.length_toList
  obtain ⟨c, cs, hdrop⟩ : ∃ c cs, source.text.toList.drop start = c :: cs :=
    List.exists_cons_of_ne_nil (by
      rw [ne_eq, List.drop_eq_nil_iff]
      omega)
  have htake : source.text.toList.take stop =
      source.text.toList.take start ++ c :: cs.take (stop - (start + 1)) := by
    rw [show stop = start + (stop - (start + 1) + 1) by omega, List.take_add, hdrop,
      List.take_succ_cons, show start + (stop - (start + 1) + 1) - (start + 1) =
        stop - (start + 1) by omega]
  refine .stretch (source.text.toList.take start) (cs.take (stop - (start + 1)))
    (cs.drop (stop - (start + 1))) c ?_ (hc c (by rw [hdrop]; rfl)) rfl (by rw [htake])
  rw [List.take_append_drop, ← hdrop, List.take_append_drop]

theorem marks_spanOf_end (h : r.find id = .ok source) {s : Span}
    (hs : r.spanOf id source.size source.size = .ok s) :
    s.Marks source.text.toList := by
  rw [spanOf_eq h (Nat.le_refl _) (Nat.le_refl _)] at hs
  cases hs
  have htake : source.text.toList.take source.size = source.text.toList :=
    List.take_of_length_le (Nat.le_of_eq String.length_toList)
  exact .atEnd (by rw [htake]) (by rw [htake])

/-! ## Faults -/

/-- The first character of a fault is that of its token, or a backslash. -/
theorem marks_of_fault (h : r.find id = .ok source) {f : Fault} (hf : f ∈ (tokenize source.text).2)
    {s : Span} (hs : r.spanOf id f.start f.stop = .ok s) : s.Marks source.text.toList := by
  obtain ⟨x, hx, hf⟩ := List.mem_flatMap.1 hf
  have hreads := Lexer.reads_ofText source.text
  obtain ⟨-, hlt, -, -⟩ := hreads.placed hx hf
  refine marks_spanOf h hs hlt fun c hc => ?_
  rcases (Lexer.hasFaults_of_mem_steps x hx).mem_cases hf with
    ⟨hk, -, hstart, -⟩ | ⟨-, b, hb, rfl⟩
  · have hslice := hreads.isSlice hx (by simp [hk])
    refine Lexer.startsVisibly_of_mem_steps x hx (by simp [hk]) c ?_
    have := hslice.start_lt
    rw [hslice.text_eq, List.head?_take, if_neg (by omega), ← hstart]
    exact hc
  · obtain ⟨-, hsequence⟩ := hreads.sequence_eq hx hf rfl
    have hhead := head?_sequence_of_mem_bad b hb
    rw [hsequence, List.head?_take, if_neg (by omega)] at hhead
    rw [hhead] at hc
    cases hc
    decide

/-! ## Items -/

theorem marks_of_item (h : r.find id = .ok source) {p : PlacedItem}
    (hp : p ∈ placedItems (tokenize source.text).1) {s : Span}
    (hs : r.spanOf id p.start p.stop = .ok s) : s.Marks source.text.toList := by
  have hreads := Lexer.reads_ofText source.text
  obtain ⟨ts, hts, -⟩ := hreads.tokens_eq_append
  have hmem : Token.atEnd source.text.length ∈ (tokenize source.text).1 := by
    show _ ∈ (Lexer.ofText source.text).tokens
    rw [hts]
    simp
  obtain ⟨hnone, -⟩ | ⟨t, ht, hvisible, -, -, hstart, hstop⟩ := mem_placedItems hp
  · exact absurd rfl (hnone _ hmem)
  obtain ⟨x, hx, rfl⟩ := List.mem_map.1 ht
  rw [← hstart, ← hstop] at hs
  rcases hreads.token_cases x hx with ⟨-, hslice⟩ | hend
  · refine marks_spanOf h hs hslice.start_lt fun c hc => ?_
    have hlt := hslice.start_lt
    refine Lexer.startsVisibly_of_mem_steps x hx ?_ c ?_
    · intro hk
      rw [Token.isHidden, hk] at hvisible
      cases hvisible
    · rwa [hslice.text_eq, List.head?_take, if_neg (by omega)]
  · rw [hend] at hs
    exact marks_spanOf_end h hs

theorem marks_span (h : r.find id = .ok source) {table : SpanTable}
    (ht : r.spanTable id (placedItems (tokenize source.text).1) = .ok table) {e : Extent}
    (hfirst : e.first < (placedItems (tokenize source.text).1).length)
    (hlast : e.last < (placedItems (tokenize source.text).1).length) :
    (table.span e).Marks source.text.toList := by
  have hmarks {i : Nat} (hi : i < (placedItems (tokenize source.text).1).length) :
      (table.at_ i).Marks source.text.toList :=
    marks_of_item h (List.getElem_mem hi) (spanOf_at ht hi)
  obtain ⟨before, hbefore, hstop⟩ := (hmarks hlast).exists_stop
  have hextend := (hmarks hfirst).extend hbefore
  rwa [← hstop] at hextend

end Registry

end SchemaLang
