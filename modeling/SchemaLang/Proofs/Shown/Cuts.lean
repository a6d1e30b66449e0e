import SchemaLang.Proofs.Shown.InStep

/-!
# What is cut off a displayed line

* `HasVisible text start stop`: a character of a visible token is between the two places.
* `ClosesBehind text first stop t`: on the line from `first` to `stop` no comment starts before the end of
  the token `t`, and one is closed before a visible token.

Main statement: of a line in step the snippet of a token leaves out what is visible if and only if a comment
closes behind the token in this way (`Registry.hasVisible_iff_of_find`). Lines that are not in step can be cut
within a regular expression (`not_forall_not_hasVisible_regex`).
-/

set_option autoImplicit false

namespace SchemaLang

/-! ## Lines -/

namespace Text

variable {before after line : List Char}

theorem getElem?_lines (before after : List Char) :
    (lines (before ++ after))[before.count '\n']? = lineAround? before after := by
  obtain ⟨earlier, later, hlines, hlength, hnone⟩ := lines_append before after
  rw [hlines, List.getElem?_append_right hlength.le, hlength, Nat.sub_self]
  cases hline : lineAround? before after with
  | none =>
    rw [hnone hline]
    rfl
  | some => rfl

/-- What stands at the place is on the line, if it ends visibly or the text ends there. -/
theorem length_le_of_lineAround {word : List Char} (hnewline : '\n' ∉ word)
    (hword : EndsVisibly word ∨ word = [] ∧ after = [])
    (h : lineAround? before (word ++ after) = some line) :
    (lastPart before).length + word.length ≤ line.length := by
  rw [← List.length_append]
  rcases hword with ⟨ds, c, rfl, hc⟩ | ⟨rfl, rfl⟩
  · rw [List.append_assoc, List.singleton_append] at h
    obtain ⟨line', hline, hprefix⟩ := exists_lineAround?_eq before ds after
      (fun hmem => hnewline (List.mem_append_left _ hmem)) hc
    rw [h, Option.some_inj] at hline
    subst hline
    rw [← List.append_assoc]
    exact hprefix.length_le
  · rw [lineAround?, if_neg (by simp), around_of_notMem (by simp)] at h
    split at h
    · cases h
    · rw [Option.some_inj] at h
      rw [← h]
      exact Nat.le_refl _

end Text

theorem lineAround_of_sourceLine {text line : String} {before after : List Char}
    (htext : text.toList = before ++ after)
    (h : sourceLine? text (Position.behind before).line = some line) :
    Text.lineAround? before after = some line.toList := by
  rw [sourceLine?, if_neg (by simp [Position.behind]), htext, Position.behind, Nat.add_sub_cancel,
    Text.getElem?_lines] at h
  obtain ⟨cs, hcs, rfl⟩ := Option.map_eq_some_iff.1 h
  rw [hcs, String.toList_ofList]

/-! ## What is left out -/

def HasVisible (text : String) (start stop : Nat) : Prop :=
  ∃ u ∈ (tokenize text).1, u.isHidden = false ∧ ∃ i, u.start ≤ i ∧ i < u.stop ∧ start ≤ i ∧ i < stop

/-- No comment of the line starts before the end of the token, and one is closed before a visible token. -/
structure ClosesBehind (text : String) (first stop : Nat) (t : Token) : Prop where
  behind : ∀ c ∈ (tokenize text).1, c.isComment = true → first ≤ c.start → t.stop ≤ c.start
  closed : ∃ c ∈ (tokenize text).1, c.isComment = true ∧ first ≤ c.start ∧
    ∃ u ∈ (tokenize text).1, u.isHidden = false ∧ c.stop ≤ u.start ∧ u.start < stop

theorem isHidden_of_isComment {t : Token} (h : t.isComment = true) : t.isHidden = true := by
  rw [Token.isComment, Bool.or_eq_true, beq_iff_eq, beq_iff_eq] at h
  rcases h with h | h
  · rw [Token.isHidden, h]
    rfl
  · rw [Token.isHidden, h]
    rfl

/-- Nothing visible is left out of a line in full. -/
theorem not_hasVisible_self (text : String) (stop : Nat) : ¬ HasVisible text stop stop := by
  rintro ⟨u, -, -, i, -, -, hle, hlt⟩
  omega

theorem pairwise_tokens (text : String) : (tokenize text).1.Pairwise fun t u => t.stop ≤ u.start :=
  List.pairwise_map.2 (Lexer.pairwise_steps (Lexer.ofText text))

theorem start_le_stop {text : String} {t : Token} (ht : t ∈ (tokenize text).1) : t.start ≤ t.stop := by
  obtain ⟨s, hs, rfl⟩ := List.mem_map.1 ht
  exact (Lexer.stop_le_of_mem_steps (Lexer.reads_ofText text).length_rest s hs).1

theorem stop_le_length {text : String} {t : Token} (ht : t ∈ (tokenize text).1) : t.stop ≤ text.length := by
  obtain ⟨s, hs, rfl⟩ := List.mem_map.1 ht
  exact (Lexer.stop_le_of_mem_steps (Lexer.reads_ofText text).length_rest s hs).2

/-- Of two tokens one is before the other. -/
theorem stop_le_or {text : String} {t u : Token} (ht : t ∈ (tokenize text).1) (hu : u ∈ (tokenize text).1)
    (hne : t ≠ u) : t.stop ≤ u.start ∨ u.stop ≤ t.start := by
  have hpairwise : (tokenize text).1.Pairwise fun t u => t.stop ≤ u.start ∨ u.stop ≤ t.start :=
    (pairwise_tokens text).imp .inl
  have : Std.Symm fun t u : Token => t.stop ≤ u.start ∨ u.stop ≤ t.start := ⟨fun _ _ => Or.symm⟩
  exact hpairwise.forall ht hu hne

/-- What is visible and reaches behind the start of a comment is behind the comment. -/
theorem stop_le_start {text : String} {c u : Token} (hc : c ∈ (tokenize text).1)
    (hcomment : c.isComment = true) (hu : u ∈ (tokenize text).1) (hvisible : u.isHidden = false)
    (h : c.start < u.stop) : c.stop ≤ u.start := by
  have hne : c ≠ u := by
    rintro rfl
    rw [isHidden_of_isComment hcomment] at hvisible
    cases hvisible
  exact (stop_le_or hc hu hne).resolve_right (Nat.not_le_of_lt h)

theorem firstComment?_eq_some {text : String} {first : Nat} {c : Token}
    (h : firstComment? text first = some c) : c ∈ (tokenize text).1 ∧ c.isComment = true ∧
      first ≤ c.start ∧
        ∀ d ∈ (tokenize text).1, d.isComment = true → first ≤ d.start → c.start ≤ d.start := by
  have hmem := List.mem_of_find?_eq_some h
  obtain ⟨hc, as, bs, htokens, has⟩ := List.find?_eq_some_iff_append.1 h
  rw [Bool.and_eq_true, decide_eq_true_eq] at hc
  refine ⟨hmem, hc.1, hc.2, fun d hd hcomment hle => ?_⟩
  have hpairwise := pairwise_tokens text
  rw [htokens] at hd hpairwise
  rcases List.mem_append.1 hd with hd | hd
  · have := has d hd
    simp [hcomment, hle] at this
  · rcases List.mem_cons.1 hd with rfl | hd
    · exact Nat.le_refl _
    · have := (List.pairwise_cons.1 (List.pairwise_append.1 hpairwise).2.1).1 d hd
      exact (start_le_stop hmem).trans this

theorem firstComment?_eq_none {text : String} {first : Nat} (h : firstComment? text first = none) :
    ∀ c ∈ (tokenize text).1, c.isComment = true → ¬ first ≤ c.start := by
  intro c hc hcomment hle
  have := List.find?_eq_none.1 h c hc
  simp [hcomment, hle] at this

namespace Text

theorem exists_eq_trimEnd_append (cs : List Char) :
    ∃ bs, cs = trimEnd cs ++ bs ∧ ∀ b ∈ bs, isBlank b = true := by
  refine ⟨(cs.reverse.takeWhile isBlank).reverse, ?_, fun b hb => ?_⟩
  · rw [trimEnd, dropEndWhile, ← List.reverse_append, List.takeWhile_append_dropWhile,
      List.reverse_reverse]
  · exact List.all_eq_true.1 List.all_takeWhile b (List.mem_reverse.1 hb)

end Text

/-- A visible token is a stretch of its line that ends visibly, or it is the end of the text. -/
theorem exists_word {text : String} (hclean : (tokenize text).2 = []) {t : Token}
    (ht : t ∈ (tokenize text).1) (hvisible : t.isHidden = false) :
    ∃ word after, text.toList = text.toList.take t.start ++ (word ++ after) ∧
      t.stop = t.start + word.length ∧ '\n' ∉ word ∧ (EndsVisibly word ∨ word = [] ∧ after = []) := by
  obtain ⟨s, hs, rfl⟩ := List.mem_map.1 ht
  rcases (Lexer.reads_ofText text).token_cases s hs with ⟨hend, hslice⟩ | heq
  · have hfaults := Lexer.faults_of_mem_steps hclean hs
    have hvalid : s.token.kind ≠ .invalid := fun hinvalid =>
      Lexer.faults_ne_nil_of_mem_steps s hs hinvalid hfaults
    have hwithin : WithinLine s.token.text.toList := by
      by_contra hn
      exact hvalid (Lexer.isOpenComment_of_mem_steps s hs hvisible hn).1
    refine ⟨s.token.text.toList, text.toList.drop s.token.stop, ?_, hslice.stop_eq, ?_, .inl ?_⟩
    · rw [← List.append_assoc, hslice.append_eq, List.take_append_drop]
    · exact fun hmem => absurd (hwithin _ hmem) (by decide)
    · exact Lexer.endsVisibly_of_mem_steps s hs hvisible hvalid hend
  · rw [heq]
    refine ⟨[], [], ?_, rfl, by simp, .inr ⟨rfl, rfl⟩⟩
    simp only [Token.atEnd, List.append_nil]
    rw [List.take_of_length_le]
    exact String.length_toList.le

/-- The last character of a visible token is no blank. -/
theorem exists_last_char {text : String} (hclean : (tokenize text).2 = []) {u : Token}
    (hu : u ∈ (tokenize text).1) (hvisible : u.isHidden = false) (hlt : u.start < u.stop) :
    ∃ d, text.toList[u.stop - 1]? = some d ∧ Text.isBlank d = false := by
  obtain ⟨word, after, htext, hlength, -, hword⟩ := exists_word hclean hu hvisible
  have hsize := stop_le_length hu
  have htake : (text.toList.take u.start).length = u.start := by
    rw [List.length_take, String.length_toList]
    omega
  rcases hword with ⟨ds, d, rfl, hd⟩ | ⟨rfl, -⟩
  · rw [List.length_append, List.length_singleton] at hlength
    refine ⟨d, ?_, hd⟩
    rw [htext, List.append_assoc, List.getElem?_append_right (by omega), htake,
      List.getElem?_append_right (by omega), show u.stop - 1 - u.start - ds.length = 0 by omega]
    rfl
  · rw [List.length_nil] at hlength
    omega

section

variable {text : String} {first : Nat} {line : List Char} {t : Token}

/-- Blanks at the end of a cut are in no visible token, so what is left out of one is behind the cut. -/
theorem stop_le_of_trimmed (hclean : (tokenize text).2 = []) (hline : IsLine text first line)
    {n : Nat} (hn : n ≤ line.length) {u : Token} (hu : u ∈ (tokenize text).1)
    (hvisible : u.isHidden = false) (hlt : u.start < u.stop)
    (hstop : first + (Text.trimEnd (line.take n)).length < u.stop) : first + n < u.stop := by
  by_contra hle
  obtain ⟨d, hd, hblank⟩ := exists_last_char hclean hu hvisible hlt
  obtain ⟨behind, hdrop, -⟩ := hline.drop_eq
  obtain ⟨bs, hbs, hblanks⟩ := Text.exists_eq_trimEnd_append (line.take n)
  have hlength := congrArg List.length hbs
  rw [List.length_append, List.length_take, Nat.min_eq_left hn] at hlength
  generalize Text.trimEnd (line.take n) = shown at hbs hlength hstop
  have hline : text.toList.drop first = shown ++ (bs ++ (line.drop n ++ behind)) :=
    calc text.toList.drop first = line ++ behind := hdrop
      _ = line.take n ++ line.drop n ++ behind := by rw [List.take_append_drop]
      _ = shown ++ bs ++ line.drop n ++ behind := by rw [hbs]
      _ = shown ++ (bs ++ (line.drop n ++ behind)) := by simp only [List.append_assoc]
  have hget : text.toList[u.stop - 1]? = bs[u.stop - 1 - first - shown.length]? := by
    rw [show u.stop - 1 = first + (u.stop - 1 - first) by omega, ← List.getElem?_drop, hline,
      List.getElem?_append_right (by omega), List.getElem?_append_left (by omega), Nat.add_sub_cancel_left]
  rw [hget] at hd
  rw [hblanks d (List.mem_of_getElem? hd)] at hblank
  cases hblank

theorem IsLine.start_lt_stop (hline : IsLine text first line) {u : Token}
    (hu : u ∈ (tokenize text).1) (hlt : u.start < first + line.length) : u.start < u.stop := by
  obtain ⟨s, hs, rfl⟩ := List.mem_map.1 hu
  rcases (Lexer.reads_ofText text).token_cases s hs with ⟨-, hslice⟩ | heq
  · exact hslice.start_lt
  · obtain ⟨behind, hdrop, -⟩ := hline.drop_eq
    have hlength := congrArg List.length hdrop
    have hfirst := hline.first_le
    rw [List.length_drop, List.length_append, String.length_toList] at hlength
    rw [heq] at hlt
    simp only [Token.atEnd] at hlt
    omega

/-- A line that is cut where a comment starts loses the visible tokens behind the comment. -/
theorem hasVisible_trimmed_iff (hclean : (tokenize text).2 = []) (hline : IsLine text first line)
    {c : Token} (hc : c ∈ (tokenize text).1) (hcomment : c.isComment = true) (hle : first ≤ c.start)
    (hlt : c.start < first + line.length) :
    HasVisible text (first + (Text.trimEnd (line.take (c.start - first))).length)
        (first + line.length) ↔
      ∃ u ∈ (tokenize text).1, u.isHidden = false ∧ c.stop ≤ u.start ∧
        u.start < first + line.length := by
  constructor
  · rintro ⟨u, hu, hvisible, i, hi, hi', hge, hstop⟩
    have hlast := stop_le_of_trimmed hclean hline (show c.start - first ≤ line.length by omega) hu
      hvisible (by omega) (by omega)
    exact ⟨u, hu, hvisible, stop_le_start hc hcomment hu hvisible (by omega), by omega⟩
  · rintro ⟨u, hu, hvisible, hafter, hstop⟩
    have horder := start_le_stop hc
    have hshown := (Text.isPrefix_trimEnd (line.take (c.start - first))).length_le
    rw [List.length_take] at hshown
    exact ⟨u, hu, hvisible, u.start, Nat.le_refl _, hline.start_lt_stop hu hstop, by omega, hstop⟩

/-- **The cut of a line in step.** -/
theorem hasVisible_iff (hclean : (tokenize text).2 = []) (hline : IsLine text first line)
    (hstep : InStep text first (first + line.length)) (ht : t ∈ (tokenize text).1)
    (hstart : first ≤ t.start) (hreach : t.stop ≤ first + line.length) (column : Nat) :
    HasVisible text (first + (displayedLine line column (t.stop - first)).text.length)
        (first + line.length) ↔ ClosesBehind text first (first + line.length) t := by
  have hsearch := commentStart?_eq hclean hline hstep ht hstart
    ((start_le_stop ht).trans hreach)
  -- the line stays as it is, and no comment behind the token closes on it
  have full (hnot : ¬ ClosesBehind text first (first + line.length) t)
      (h : ∀ n ∈ commentStart? line, n < t.stop - first) :
      HasVisible text (first + (displayedLine line column (t.stop - first)).text.length)
        (first + line.length) ↔ ClosesBehind text first (first + line.length) t := by
    rw [displayedLine_of_forall_lt h]
    exact iff_of_false (not_hasVisible_self text _) hnot
  cases hfirst : firstComment? text first with
  | none =>
    apply full
    · rintro ⟨-, c, hc, hcomment, hle, -⟩
      exact firstComment?_eq_none hfirst c hc hcomment hle
    · simp [hsearch, hfirst]
  | some c =>
    obtain ⟨hc, hcomment, hle, hleast⟩ := firstComment?_eq_some hfirst
    rw [hfirst, Option.filter_some] at hsearch
    by_cases hlt : c.start < first + line.length
    · rw [decide_eq_true hlt, if_pos rfl, Option.map_some] at hsearch
      by_cases hcut : c.start < t.stop
      · apply full
        · intro h
          exact absurd (h.behind c hc hcomment hle) (Nat.not_le_of_lt hcut)
        · rintro n hn
          obtain rfl := Option.some.inj (hsearch.symm.trans hn)
          omega
      · rw [displayedLine_of_le hsearch (by omega),
          hasVisible_trimmed_iff hclean hline hc hcomment hle hlt]
        constructor
        · intro hbehind
          refine ⟨fun d hd hdcomment hdle => ?_, c, hc, hcomment, hle, hbehind⟩
          have := hleast d hd hdcomment hdle
          omega
        · rintro ⟨-, d, hd, hdcomment, hdle, u, hu, hvisible, hafter, hstop⟩
          have hfirst := hleast d hd hdcomment hdle
          have horder := start_le_stop hd
          have hpos := hline.start_lt_stop hu hstop
          exact ⟨u, hu, hvisible, stop_le_start hc hcomment hu hvisible (by omega), hstop⟩
    · rw [decide_eq_false hlt, if_neg Bool.false_ne_true] at hsearch
      apply full
      · rintro ⟨-, d, hd, hdcomment, hdle, u, hu, -, hbehind, hstop⟩
        have := hleast d hd hdcomment hdle
        have := start_le_stop hd
        omega
      · simp [hsearch]

end

/-! ## Snippets of tokens -/

namespace Registry

/-- The span of a visible token has its columns on one line of the text. -/
theorem exists_span_isLine {r : Registry} {id : SourceId} {source : Source}
    (h : r.find id = .ok source) (hclean : (tokenize source.text).2 = []) {t : Token}
    (ht : t ∈ (tokenize source.text).1) (hvisible : t.isHidden = false) :
    ∃ span, r.spanOf id t.start t.stop = .ok span ∧ span.stop.line = span.start.line ∧
      span.start.column ≤ t.start ∧ span.stop.column = t.stop - (t.start - span.start.column) ∧
      ∀ line, sourceLine? source.text span.start.line = some line →
        IsLine source.text (t.start - span.start.column) line.toList ∧
          span.stop.column ≤ line.length := by
  obtain ⟨word, after, htext, hlength, hnewline, hword⟩ := exists_word hclean ht hvisible
  have hsize := stop_le_length ht
  generalize hbefore : source.text.toList.take t.start = before at htext
  have htake : before.length = t.start := by
    rw [← hbefore, List.length_take, String.length_toList]
    omega
  have hstop : source.text.toList.take t.stop = before ++ word := by
    rw [htext, ← List.append_assoc, List.take_left' (by rw [List.length_append]; omega)]
  obtain ⟨us, hus, -⟩ := Text.exists_eq_append_lastPart before
  have hpart := congrArg List.length hus
  rw [List.length_append] at hpart
  have hcolumn : (Position.behind (before ++ word)).column =
      (Text.lastPart before).length + word.length := by
    rw [Position.behind, Text.lastPart_append_of_notMem _ hnewline, List.length_append]
  refine ⟨_, spanOf_eq h (start_le_stop ht) hsize, ?_⟩
  simp only [hstop, hbefore, hcolumn]
  simp only [Position.behind, List.count_append, List.count_eq_zero_of_not_mem hnewline, Nat.add_zero]
  refine ⟨trivial, by omega, by omega, fun line hline => ?_⟩
  have hlines := lineAround_of_sourceLine htext hline
  rw [← htake]
  exact ⟨isLine_of_lineAround htext hlines, Text.length_le_of_lineAround hnewline hword hlines⟩

/-- **Snippets drop comments.** On a line in step, what is left out next to a visible token has something
visible in it if and only if a comment behind the token is closed before another visible token. -/
theorem hasVisible_iff_of_find (r : Registry) (id : SourceId) (source : Source)
    (h : r.find id = .ok source) (hclean : (tokenize source.text).2 = []) (t : Token)
    (ht : t ∈ (tokenize source.text).1) (hvisible : t.isHidden = false) :
    ∃ span, r.spanOf id t.start t.stop = .ok span ∧ span.stop.line = span.start.line ∧
      ∀ line, sourceLine? source.text span.start.line = some line →
        let first := t.start - span.start.column
        let shown := (displayedLine line.toList span.start.column span.stop.column).text
        InStep source.text first (first + line.length) →
          (HasVisible source.text (first + shown.length) (first + line.length) ↔
            ClosesBehind source.text first (first + line.length) t) := by
  obtain ⟨span, hspan, hone, hcolumn, hstop, hlines⟩ := exists_span_isLine h hclean ht hvisible
  refine ⟨span, hspan, hone, ?_⟩
  intro line hline first shown hstep
  obtain ⟨hisLine, hreach⟩ := hlines line hline
  have horder := start_le_stop ht
  rw [hstop] at hreach
  simp only [shown, hstop]
  rw [← String.length_toList] at hstep hreach ⊢
  exact hasVisible_iff hclean hisLine hstep ht (Nat.sub_le ..) (by omega) _

/-- The word behind the second comment of the second line is left out next to the word before it. -/
theorem hasVisible_iff_of_find_between :
    let source := Source.ofText "" "/* é\n*/ a =~ /b.c/ /* c */ d"
    let r : Registry := ⟨#[source]⟩
    let t : Token := ⟨.lowerWord, "a", 8, 9⟩
    r.find ⟨1⟩ = .ok source ∧ (tokenize source.text).2 = [] ∧ t ∈ (tokenize source.text).1 ∧
      t.isHidden = false ∧ sourceLine? source.text 2 = some "*/ a =~ /b.c/ /* c */ d" ∧
        InStep source.text 5 28 ∧ HasVisible source.text 18 28 := by
  intro source r t
  have hfind : r.find ⟨1⟩ = .ok source := rfl
  have hclean : (tokenize source.text).2 = [] := by decide +kernel
  have ht : t ∈ (tokenize source.text).1 := by decide +kernel
  have hline : sourceLine? source.text 2 = some "*/ a =~ /b.c/ /* c */ d" := by decide +kernel
  have hstep : InStep source.text 5 28 := by decide +kernel
  have hcloses : ClosesBehind source.text 5 28 t := ⟨by decide +kernel, by decide +kernel⟩
  refine ⟨hfind, hclean, ht, rfl, hline, hstep, ?_⟩
  obtain ⟨span, hspan, -, hcut⟩ := hasVisible_iff_of_find r ⟨1⟩ source hfind hclean t ht rfl
  have hspan' : r.spanOf ⟨1⟩ 8 9 = .ok ⟨⟨1⟩, ⟨2, 3, 9⟩, ⟨2, 4, 10⟩⟩ := by
    rw [spanOf_eq hfind (by decide) (by decide +kernel)]
    exact congrArg Except.ok (by decide +kernel)
  obtain rfl := Except.ok.inj (hspan.symm.trans hspan')
  exact (hcut _ hline hstep).2 hcloses

/-- A comment that is closed before another word cuts that word off. -/
theorem not_forall_not_hasVisible : ¬ ∀ (r : Registry) (id : SourceId) (source : Source),
    r.find id = .ok source → (tokenize source.text).2 = [] →
      ∀ t ∈ (tokenize source.text).1, t.isHidden = false →
        ∀ span, r.spanOf id t.start t.stop = .ok span → span.stop.line = span.start.line →
          ∀ line, sourceLine? source.text span.start.line = some line →
            let first := t.start - span.start.column
            let shown := (displayedLine line.toList span.start.column span.stop.column).text
            ¬ HasVisible source.text (first + shown.length) (first + line.length) := by
  intro hall
  have hfind : (⟨#[Source.ofText "" "a /* c */ b"]⟩ : Registry).find ⟨1⟩ =
      .ok (Source.ofText "" "a /* c */ b") := rfl
  have hspan := spanOf_eq hfind (show 0 ≤ 1 by decide) (by decide +kernel)
  have hstart : Position.behind ((Source.ofText "" "a /* c */ b").text.toList.take 0) = ⟨1, 0, 0⟩ := by
    decide +kernel
  have hstop : Position.behind ((Source.ofText "" "a /* c */ b").text.toList.take 1) = ⟨1, 1, 1⟩ := by
    decide +kernel
  rw [hstart, hstop] at hspan
  apply hall _ ⟨1⟩ _ hfind (by decide +kernel) ⟨.lowerWord, "a", 0, 1⟩ (by decide +kernel) rfl _ hspan rfl
    "a /* c */ b" (by decide +kernel)
  exact ⟨⟨.lowerWord, "b", 10, 11⟩, by decide +kernel, rfl, 10, by decide +kernel⟩

end Registry

/-- The search takes the slash behind a backslash in a regular expression for the start of a comment, and cuts
a line without any comment. -/
theorem not_forall_not_hasVisible_regex : ¬ ∀ (text : String) (line : List Char) (t : Token),
    IsLine text 0 line → (tokenize text).2 = [] → t ∈ (tokenize text).1 → t.isHidden = false →
      t.stop ≤ line.length → (∀ c ∈ (tokenize text).1, c.isComment = false) →
        ¬ HasVisible text (displayedLine line 0 t.stop).text.length line.length := by
  intro hall
  have hline : IsLine "a =~ /\\/*x/" 0 "a =~ /\\/*x/".toList := ⟨by decide, .inl rfl, [], by decide, rfl⟩
  apply hall _ _ ⟨.lowerWord, "a", 0, 1⟩ hline (by decide +kernel) (by decide +kernel) rfl (by decide)
    (by decide +kernel)
  exact ⟨⟨.regexLit, "/\\/*x/", 5, 11⟩, by decide +kernel, rfl, 7, by decide +kernel⟩

end SchemaLang
