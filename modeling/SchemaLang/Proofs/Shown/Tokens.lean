import SchemaLang.Proofs.Shown.Snippet
import SchemaLang.Proofs.Spans
import SchemaLang.Proofs.Tiling
import SchemaLang.Proofs.Written.Lexemes

/-!
# Carets below a token

* `EndsVisibly cs`: the last character of a text is no blank.

What the grammar sees of a text, and is not malformed, stays within its line and ends visibly. So whatever
the search for a comment finds in the line, it cuts nothing off before the end of the token.

Main statements: such a token ends visibly (`Lexer.endsVisibly_of_mem_steps`), and its snippet is its line
with carets below the token (`Registry.underlined_of_find`).
-/

set_option autoImplicit false

namespace SchemaLang

/-! ## Ends of lexemes -/

def EndsVisibly (cs : List Char) : Prop := ∃ ds c, cs = ds ++ [c] ∧ Text.isBlank c = false

theorem endsVisibly_of_forall {cs : List Char} (hne : cs ≠ [])
    (h : ∀ c ∈ cs, Text.isBlank c = false) : EndsVisibly cs :=
  ⟨cs.dropLast, cs.getLast hne, (List.dropLast_concat_getLast hne).symm,
    h _ (List.getLast_mem hne)⟩

theorem endsVisibly_of_getLast? {cs : List Char} {c : Char} (h : cs.getLast? = some c)
    (hc : Text.isBlank c = false) : EndsVisibly cs := by
  obtain ⟨ds, rfl⟩ := List.getLast?_eq_some_iff.1 h
  exact ⟨ds, c, rfl, hc⟩

theorem isBlank_eq_false_of_isDigit {c : Char} (h : c.isDigit = true) : Text.isBlank c = false := by
  have := isDigit_iff_toNat.1 h
  simp only [Text.isBlank, Bool.or_eq_false_iff, Bool.and_eq_false_iff, decide_eq_false_iff_not,
    beq_eq_false_iff_ne]
  omega

theorem isBlank_eq_false_of_isWordPart {c : Char} (h : isWordPart c = true) :
    Text.isBlank c = false := by
  simp only [isWordPart, Char.isAlphanum, Bool.or_eq_true, beq_iff_eq] at h
  rcases h with (h | h) | rfl
  · exact (Bool.or_eq_false_iff.1 (isSpace_eq_false_of_isAlpha h)).1
  · exact isBlank_eq_false_of_isDigit h
  · decide

theorem isBlank_eq_false_of_isSpace {c : Char} (h : isSpace c = false) : Text.isBlank c = false :=
  (Bool.or_eq_false_iff.1 h).1

theorem forall_mem_takeWhile {p q : Char → Bool} (h : ∀ c, p c = true → q c = false)
    (cs : List Char) : ∀ c ∈ cs.takeWhile p, q c = false :=
  fun c hc => h c (List.all_eq_true.1 List.all_takeWhile c hc)

theorem Symbol.isBlank_of_mem_chars (s : Symbol) : ∀ c ∈ s.chars, Text.isBlank c = false := by
  cases s <;> simp [Symbol.chars, Text.isBlank]

theorem isBlank_of_mem_fractionPart {cs : List Char} :
    ∀ c ∈ fractionPart cs, Text.isBlank c = false := by
  unfold fractionPart
  split
  · split
    · nofun
    · exact List.forall_mem_cons.2
        ⟨by decide, forall_mem_takeWhile (fun _ => isBlank_eq_false_of_isDigit) _⟩
  · nofun

theorem isBlank_of_mem_exponentPart {cs : List Char} :
    ∀ c ∈ exponentPart cs, Text.isBlank c = false := by
  unfold exponentPart
  split
  · rename_i e r
    split
    · rename_i he
      have he : Text.isBlank e = false := by rcases he with rfl | rfl <;> decide
      have hsign : ∀ c, (c == '+' || c == '-') = true → Text.isBlank c = false := by
        intro c hc
        simp only [Bool.or_eq_true, beq_iff_eq] at hc
        rcases hc with rfl | rfl <;> decide
      dsimp only
      split
      · nofun
      · exact List.forall_mem_cons.2 ⟨he, List.forall_mem_append.2
          ⟨forall_mem_takeWhile hsign r, forall_mem_takeWhile (fun _ => isBlank_eq_false_of_isDigit) _⟩⟩
    · nofun
  · nofun

namespace Lexeme

theorem endsVisibly_scan {afterOperand : Bool} {c : Char} {cs : List Char}
    (hk : (scan afterOperand c cs).kind.isTrivia = false)
    (hvalid : (scan afterOperand c cs).kind ≠ .invalid) :
    EndsVisibly (scan afterOperand c cs).text := by
  have hne := text_scan_ne_nil afterOperand c cs
  have h := scanned_scan afterOperand c cs
  generalize scan afterOperand c cs = x at h hk hvalid hne ⊢
  cases h with
  | blank | lineComment => cases hk
  | blockComment =>
    unfold Lexeme.blockComment at hk hvalid
    split at hk
    · cases hk
    · rename_i hu
      simp [hu] at hvalid
  | regex =>
    unfold Lexeme.regex at hvalid ⊢
    dsimp only at hvalid ⊢
    split at hvalid
    · rename_i hclosed
      rw [if_pos hclosed]
      exact endsVisibly_of_getLast? (c := '/')
        (by simp [List.getLast?_cons, getLast?_delimited hclosed]) (by decide)
    · exact absurd rfl hvalid
  | symbol => exact endsVisibly_of_forall hne (Symbol.isBlank_of_mem_chars _)
  | string hs hc =>
    unfold Lexeme.string at hvalid ⊢
    dsimp only at hvalid ⊢
    split at hvalid
    · rename_i hclosed
      rw [if_pos hclosed]
      exact endsVisibly_of_getLast? (c := c)
        (by simp [List.getLast?_cons, getLast?_delimited hclosed]) (isBlank_eq_false_of_isSpace hs)
    · exact absurd rfl hvalid
  | number =>
    refine endsVisibly_of_forall hne (List.forall_mem_append.2
      ⟨forall_mem_takeWhile (fun _ => isBlank_eq_false_of_isDigit) _, List.forall_mem_append.2
        ⟨isBlank_of_mem_fractionPart, isBlank_of_mem_exponentPart⟩⟩)
  | dollar hs =>
    exact endsVisibly_of_forall hne (List.forall_mem_cons.2 ⟨isBlank_eq_false_of_isSpace hs,
      forall_mem_takeWhile (fun _ => isBlank_eq_false_of_isWordPart) _⟩)
  | word =>
    exact endsVisibly_of_forall hne
      (forall_mem_takeWhile (fun _ => isBlank_eq_false_of_isWordPart) _)
  | unexpected => exact absurd rfl hvalid

end Lexeme

theorem Lexer.IsSlice.append_eq {text : String} {t : Token} (h : IsSlice text t) :
    text.toList.take t.start ++ t.text.toList = text.toList.take t.stop := by
  have hlt := h.start_lt
  rw [h.text_eq, show t.stop = t.start + (t.stop - t.start) by omega, List.take_add]
  simp

theorem Lexer.endsVisibly_of_mem_steps {l : Lexer} : ∀ s ∈ l.steps, s.token.isHidden = false →
    s.token.kind ≠ .invalid → s.token.kind ≠ .endOfText → EndsVisibly s.token.text.toList := by
  refine forall_mem_steps (I := fun _ => True) (fun _ _ => trivial) (fun l _ => ?_) trivial
  cases hr : l.rest with
  | nil =>
    rw [next_of_rest_eq_nil hr]
    exact fun _ _ hne => absurd rfl hne
  | cons c cs =>
    rw [next_of_rest_eq_cons hr]
    intro hk hvalid _
    simpa [stepOver] using Lexeme.endsVisibly_scan hk hvalid

/-! ## Snippets of tokens -/

/-- The snippet of a span is the gutter, the line of the span with its number, as far as it is shown, and
carets below `word` and nothing else. -/
def Span.Underlines (s : Span) (text word : String) : Prop :=
  s.stop.line = s.start.line ∧ s.start.column < s.stop.column ∧
    ∃ line shown, (Text.pieces text.toList)[s.start.line - 1]? = some line ∧ shown <+: line ∧
      '\n' ∉ shown ∧ s.stop.column ≤ shown.length ∧
      (shown.drop s.start.column).take (s.stop.column - s.start.column) = word.toList ∧
      snippet (some text) s false =
        gutter (toString s.start.line).length ++
          caretRows (toString s.start.line).length s.start.line s.start.column
            (s.stop.column - s.start.column) shown

theorem Text.newline_notMem_around (before after : List Char) : '\n' ∉ around before after := by
  have hall := List.all_eq_true.1 (List.all_takeWhile (p := (· ≠ '\n')) (l := after))
  rw [around, List.mem_append, not_or]
  exact ⟨newline_notMem_lastPart before, fun h => by simpa using hall '\n' h⟩

/-- A stretch of one line that ends visibly is underlined. -/
theorem underlines_behind (id : SourceId) {text word : String} {before after : List Char}
    (htext : text.toList = before ++ (word.toList ++ after)) (hnewline : '\n' ∉ word.toList)
    (hends : EndsVisibly word.toList) :
    Span.Underlines ⟨id, .behind before, .behind (before ++ word.toList)⟩ text word := by
  obtain ⟨ds, c, hword, hc⟩ := hends
  rw [hword] at htext hnewline ⊢
  have hds : '\n' ∉ ds := fun h => hnewline (List.mem_append_left _ h)
  rw [List.append_assoc, List.singleton_append] at htext
  obtain ⟨line, hline, hreach⟩ := Text.exists_lineAround?_eq before ds after hds hc
  have hlines : (Position.behind (before ++ (ds ++ [c]))).line = (Position.behind before).line := by
    simp only [Position.behind, List.count_append, List.count_eq_zero_of_not_mem hnewline,
      Nat.add_zero]
  have hcolumns : (Position.behind (before ++ (ds ++ [c]))).column =
      (Text.lastPart before).length + (ds ++ [c]).length := by
    rw [Position.behind, Text.lastPart_append_of_notMem _ hnewline, List.length_append]
  generalize hs : Span.mk id (.behind before) (.behind (before ++ (ds ++ [c]))) = s
  have hstart : s.start = .behind before := by rw [← hs]
  have hline_eq : s.start.line = s.stop.line := by rw [← hs, hlines]
  have hstop : s.stop.column = s.start.column + (ds ++ [c]).length := by rw [← hs, hcolumns]; rfl
  have hcolumn : s.start.column = (Text.lastPart before).length := by rw [hstart]; rfl
  -- the cut does not reach into the token
  have hcovered : Text.lastPart before ++ ds ++ [c] <+: s.shownLine line := by
    rw [Span.shownLine, if_pos hline_eq]
    refine isPrefix_displayedLine hreach hc ?_
    simp only [List.length_append, List.length_singleton] at hstop ⊢
    omega
  have hsub := (s.shownLine_isPrefix line).trans (Text.isPrefix_around hline)
  obtain ⟨rest, hrest, hnone⟩ := exists_snippet_eq htext hstart hline (by
    have := hcovered.length_le
    simp only [List.length_append] at this
    omega)
  rw [hnone hline_eq, String.append_empty, Span.lastLine_of_eq hline_eq] at hrest
  generalize s.shownLine line = shown at *
  obtain ⟨tail, htail⟩ := hcovered
  have hreach' : s.stop.column ≤ shown.length := by
    rw [← htail, hstop, hcolumn]
    simp only [List.length_append]
    omega
  have hcarets : s.carets shown.length = s.stop.column - s.start.column := by
    rw [Span.carets, if_pos hline_eq, Nat.min_eq_left hreach']
    simp only [List.length_append, List.length_singleton] at hstop
    omega
  refine ⟨hline_eq.symm, by rw [hstop]; simp, Text.around before (ds ++ c :: after), shown, ?_, hsub, ?_,
    hreach', ?_, by rw [hrest, hcarets]⟩
  · rw [htext, hstart]
    exact Text.getElem?_pieces before (ds ++ c :: after)
  · exact fun h => Text.newline_notMem_around _ _ (hsub.subset h)
  · rw [hcolumn, hstop, hcolumn, Nat.add_sub_cancel_left, ← htail, List.append_assoc,
      List.append_assoc, List.drop_left, ← List.append_assoc, List.take_left, hword]

namespace Registry

/-- **Carets below a token.** The snippet of a token that the grammar sees, of those that are not
malformed, has three rows: the gutter, the line of the token with its number, as far as it is shown, and
carets below the token and nothing else. -/
theorem underlined_of_find (r : Registry) (id : SourceId) (source : Source)
    (h : r.find id = .ok source) (t : Token) (ht : t ∈ (tokenize source.text).1)
    (hvisible : t.isHidden = false) (hvalid : t.kind ≠ .invalid) (hend : t.kind ≠ .endOfText) :
    ∃ span, r.spanOf id t.start t.stop = .ok span ∧ span.Underlines source.text t.text := by
  obtain ⟨x, hx, rfl⟩ := List.mem_map.1 ht
  have hslice := (Lexer.reads_ofText source.text).isSlice hx hend
  have hnewline : '\n' ∉ x.token.text.toList := by
    have hwithin : WithinLine x.token.text.toList := by
      by_contra hn
      exact hvalid (Lexer.isOpenComment_of_mem_steps x hx hvisible hn).1
    exact fun hmem => absurd (hwithin _ hmem) (by decide)
  have hstop := hslice.append_eq
  have htext : source.text.toList = source.text.toList.take x.token.start ++
      (x.token.text.toList ++ source.text.toList.drop x.token.stop) := by
    rw [← List.append_assoc, hstop, List.take_append_drop]
  refine ⟨_, spanOf_eq h (Nat.le_of_lt hslice.start_lt) hslice.stop_le, ?_⟩
  rw [← hstop]
  exact underlines_behind id htext hnewline
    (Lexer.endsVisibly_of_mem_steps x hx hvisible hvalid hend)

/-- The comment behind the string and its slashes are not shown, the slashes in the string are. -/
theorem underlined_of_find_slashes :
    let source := Source.ofText "" "\n \"é//\"// é"
    let r : Registry := ⟨#[source]⟩
    let t : Token := ⟨.stringLit, "\"é//\"", 2, 7⟩
    r.find ⟨1⟩ = .ok source ∧ t ∈ (tokenize source.text).1 ∧ t.isHidden = false ∧
      ∃ span, r.spanOf ⟨1⟩ 2 7 = .ok span ∧ span.Underlines source.text t.text := by
  intro source r t
  have hfind : r.find ⟨1⟩ = .ok source := rfl
  have ht : t ∈ (tokenize source.text).1 := by decide +kernel
  exact ⟨hfind, ht, rfl, underlined_of_find r ⟨1⟩ source hfind t ht rfl (by decide) (by decide)⟩

end Registry

end SchemaLang
