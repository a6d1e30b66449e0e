import SchemaLang.Proofs.Faults
import SchemaLang.Proofs.Shown.Tokens
import SchemaLang.Proofs.Written.Before

/-!
# Comments of a line

The search for a comment in a displayed line knows quotes and the two marks that open a comment. It knows no
regular expressions, and not what is before the line.

* `Unmarked behind cs`: neither a quote nor a mark of a comment is in `cs`, not even one that the text behind
  completes.
* `Token.isComment t`: the token is a comment.

Strings are passed over by the search and by the lexer in the same way, since a backslash hides one
character for both. All other visible lexemes but regular expressions are unmarked.

Main statement: from a token on, the search finds the first comment that starts on the line, if the regular
expressions before it are unmarked (`Lexer.OnLine.commentStartFrom_eq`).
-/

set_option autoImplicit false

namespace SchemaLang

/-! ## Unmarked stretches -/

def Unmarked (behind : List Char) : List Char → Prop
  | [] => True
  | c :: cs => (c ≠ '"' ∧ c ≠ '\'') ∧ (c = '/' → ∀ d ∈ (cs ++ behind).head?, d ≠ '/' ∧ d ≠ '*') ∧
      Unmarked behind cs

instance Unmarked.decide (behind : List Char) : DecidablePred (Unmarked behind)
  | [] => .isTrue trivial
  | _ :: cs =>
    have := Unmarked.decide behind cs
    have : Decidable (∀ d ∈ (cs ++ behind).head?, d ≠ '/' ∧ d ≠ '*') := Option.decidableForallMem ..
    inferInstanceAs (Decidable (_ ∧ _ ∧ _))

/-- The character is neither a quote nor a slash. -/
def IsPlain (c : Char) : Prop := c ≠ '"' ∧ c ≠ '\'' ∧ c ≠ '/'

theorem unmarked_of_isPlain {cs : List Char} (h : ∀ c ∈ cs, IsPlain c) (behind : List Char) :
    Unmarked behind cs := by
  induction cs with
  | nil => trivial
  | cons c cs ih =>
    rw [List.forall_mem_cons] at h
    exact ⟨⟨h.1.1, h.1.2.1⟩, fun hslash => absurd hslash h.1.2.2, ih h.2⟩

/-- Nothing may stand behind instead. -/
theorem Unmarked.of_append {cs ds behind : List Char} (h : Unmarked (ds ++ behind) cs) : Unmarked ds cs := by
  induction cs with
  | nil => trivial
  | cons c cs ih =>
    obtain ⟨hc, hslash, h⟩ := h
    refine ⟨hc, fun heq d hd => hslash heq d ?_, ih h⟩
    rw [← List.append_assoc, List.head?_append, Option.mem_def.1 hd]
    rfl

theorem commentStartFrom_unmarked {cs rest : List Char} (h : Unmarked rest cs) (column : Nat) :
    commentStartFrom none column (cs ++ rest) = commentStartFrom none (column + cs.length) rest := by
  induction cs generalizing column with
  | nil => rfl
  | cons c cs ih =>
    obtain ⟨hc, hslash, h⟩ := h
    have hquote : ¬ (c = '"' ∨ c = '\'') := not_or.2 hc
    have hmark : ¬ (c = '/' ∧ ((cs ++ rest).head? = some '/' ∨ (cs ++ rest).head? = some '*')) := by
      rintro ⟨heq, hd | hd⟩
      · exact (hslash heq _ hd).1 rfl
      · exact (hslash heq _ hd).2 rfl
    rw [List.cons_append, commentStartFrom]
    simp only [if_neg hquote, if_neg hmark]
    rw [ih h, List.length_cons, Nat.add_assoc, Nat.add_comm 1]

/-- A literal is passed over up to its closing quote. -/
theorem commentStartFrom_literal {quote : Char} {body rest : List Char} (h : LiteralBody quote body)
    (hquote : quote ≠ '\\') (column : Nat) :
    commentStartFrom (some quote) column (body ++ quote :: rest) =
      commentStartFrom none (column + (body.length + 1)) rest := by
  induction h generalizing column with
  | nil =>
    rw [List.nil_append, commentStartFrom.eq_def]
    simp [hquote]
  | plain _ hslash hne _ ih =>
    rw [List.cons_append, commentStartFrom.eq_def]
    simp only [if_neg hslash, if_neg hne]
    rw [ih, List.length_cons, Nat.add_assoc, Nat.add_comm 1]
  | hidden _ _ ih =>
    rw [List.cons_append, List.cons_append, commentStartFrom.eq_def]
    simp only [if_true]
    rw [ih, List.length_cons, List.length_cons]
    congr 1
    omega

/-! ## Lexemes -/

theorem isPlain_of_isWordPart {c : Char} (h : isWordPart c = true) : IsPlain c := by
  refine ⟨?_, ?_, ?_⟩
  all_goals
    rintro rfl
    revert h
    decide

theorem isPlain_of_isDigit {c : Char} (h : c.isDigit = true) : IsPlain c :=
  isPlain_of_isWordPart (by simp [isWordPart, Char.isAlphanum, h])

theorem isPlain_of_isSpace {c : Char} (h : isSpace c = true) : IsPlain c := by
  refine ⟨?_, ?_, ?_⟩
  all_goals
    rintro rfl
    revert h
    decide

theorem Fraction.isPlain {cs : List Char} (h : Fraction cs) : ∀ c ∈ cs, IsPlain c := by
  cases h with
  | none => nofun
  | point hds =>
    exact List.forall_mem_cons.2 ⟨by simp [IsPlain], fun c hc => isPlain_of_isDigit (hds.2 c hc)⟩

theorem Exponent.isPlain {cs : List Char} (h : Exponent cs) : ∀ c ∈ cs, IsPlain c := by
  cases h with
  | none => nofun
  | mark he hsign _ hds =>
    refine List.forall_mem_cons.2 ⟨by rcases he with rfl | rfl <;> simp [IsPlain], ?_⟩
    refine List.forall_mem_append.2 ⟨fun c hc => ?_, fun c hc => isPlain_of_isDigit (hds.2 c hc)⟩
    have hc := hsign c hc
    rw [isSign, Bool.or_eq_true, beq_iff_eq, beq_iff_eq] at hc
    rcases hc with rfl | rfl <;> simp [IsPlain]

theorem Symbol.isPlain_of_ne_slash {s : Symbol} (h : s ≠ .slash) : ∀ c ∈ s.chars, IsPlain c := by
  cases s <;> simp_all [Symbol.chars, IsPlain]

/-- A symbol is no mark, unless the slash in it goes on as one. -/
theorem Symbol.unmarked_of_leading? {s : Symbol} {c : Char} {cs : List Char}
    (h : leading? (c :: cs) = some s)
    (hslash : c = '/' → cs.head? ≠ some '/' ∧ cs.head? ≠ some '*') :
    Unmarked ((c :: cs).drop s.chars.length) s.chars := by
  by_cases hs : s = .slash
  · subst hs
    obtain ⟨rfl, -⟩ := List.cons.inj (chars_of_leading? h)
    obtain ⟨hline, hblock⟩ := hslash rfl
    refine ⟨by decide, ?_, trivial⟩
    intro _ d hd
    constructor
    · rintro rfl
      exact hline hd
    · rintro rfl
      exact hblock hd
  · exact unmarked_of_isPlain (isPlain_of_ne_slash hs) _

namespace Lexeme

variable {afterOperand : Bool} {c : Char} {cs : List Char}

theorem isPlain_number (cs : List Char) : ∀ c ∈ (number cs).text, IsPlain c := by
  have hdigits := List.all_eq_true.1 (List.all_takeWhile (p := Char.isDigit) (l := cs))
  exact List.forall_mem_append.2 ⟨fun c hc => isPlain_of_isDigit (hdigits c hc),
    List.forall_mem_append.2 ⟨(fraction_fractionPart _).isPlain, (exponent_exponentPart _).isPlain⟩⟩

/-- How the search for a comment comes over a visible lexeme. -/
inductive Passes (x : Lexeme) : Prop where
  | regex : x.kind = .regexLit → Passes x
  | unmarked : Unmarked x.rest x.text → Passes x
  | literal {quote : Char} {body : List Char} : quote = '"' ∨ quote = '\'' → LiteralBody quote body →
      x.text = quote :: (body ++ [quote]) → Passes x

theorem passes_scan (hk : (scan afterOperand c cs).kind.isTrivia = false)
    (hclean : (scan afterOperand c cs).faults = []) : (scan afterOperand c cs).Passes := by
  have h := scanned_scan afterOperand c cs
  generalize scan afterOperand c cs = x at h hk hclean ⊢
  cases h with
  | blank | lineComment => cases hk
  | blockComment =>
    unfold Lexeme.blockComment at hk hclean
    split at hk
    · cases hk
    · rename_i hopen
      simp [hopen] at hclean
  | regex =>
    unfold Lexeme.regex at hclean ⊢
    dsimp only at hclean ⊢
    split at hclean
    · rename_i hclosed
      rw [if_pos hclosed]
      exact .regex rfl
    · cases hclean
  | symbol _ hslash hleading =>
    apply Passes.unmarked
    apply Symbol.unmarked_of_leading? hleading
    intro hc
    exact ⟨(hslash hc).1, (hslash hc).2.1⟩
  | string _ hq =>
    unfold Lexeme.string at hclean ⊢
    dsimp only at hclean ⊢
    split at hclean
    · rename_i hclosed
      obtain ⟨body, hbody, htext⟩ := exists_literalBody_of_closed hclosed
      rw [if_pos hclosed]
      exact .literal hq hbody (by rw [htext])
    · cases hclean
  | number => exact .unmarked (unmarked_of_isPlain (isPlain_number _) _)
  | dollar _ hc =>
    subst hc
    refine .unmarked (unmarked_of_isPlain (List.forall_mem_append.2 ⟨?_, fun d hd => ?_⟩) _)
    · simp [IsPlain]
    · exact isPlain_of_isWordPart (List.all_eq_true.1 List.all_takeWhile d hd)
  | word =>
    exact .unmarked (unmarked_of_isPlain
      (fun d hd => isPlain_of_isWordPart (List.all_eq_true.1 List.all_takeWhile d hd)) _)
  | unexpected => cases hclean

/-- A hidden lexeme is a run of blanks, or a comment, which begins with its mark. -/
theorem blank_or_mark (hk : (scan afterOperand c cs).kind.isTrivia = true) :
    ((scan afterOperand c cs).kind = .blank ∧ ∀ d ∈ (scan afterOperand c cs).text, isSpace d = true) ∨
      ((scan afterOperand c cs).kind = .lineComment ∨ (scan afterOperand c cs).kind = .docComment) ∧
        c = '/' ∧ (cs.head? = some '/' ∨ cs.head? = some '*') := by
  have h := hidden_scan hk
  generalize scan afterOperand c cs = x at h
  cases h with
  | blank hs =>
    exact .inl ⟨rfl, List.forall_mem_cons.2 ⟨hs, List.all_eq_true.1 List.all_takeWhile⟩⟩
  | lineComment _ hc hcs => exact .inr ⟨.inl rfl, hc, .inl (by rw [hcs]; rfl)⟩
  | blockComment _ hc hcs => exact .inr ⟨.inr rfl, hc, .inr (by rw [hcs]; rfl)⟩

end Lexeme

/-! ## The rest of a line -/

def Token.isComment (t : Token) : Bool := t.kind == .lineComment || t.kind == .docComment

theorem isNewline_of_atLineEnd {cs : List Char} (h : AtLineEnd cs) : ∀ d ∈ cs.head?, isNewline d = true := by
  intro d hd
  obtain ⟨ds, rfl⟩ := List.head?_eq_some_iff.1 hd
  rw [AtLineEnd, untilLineEnd] at h
  split at h
  · rename_i hend
    rcases hend with rfl | ⟨rfl, -⟩
    · rfl
    · rfl
  · simp at h

namespace Lexer

variable {text : String} {l : Lexer} {ls behind : List Char} {stop : Nat}

theorem start_token (l : Lexer) : l.next.token.start = l.offset := by
  unfold next
  split <;> rfl

theorem offset_next (l : Lexer) : l.next.lexer.offset = l.offset + l.next.token.text.toList.length := by
  unfold next
  split <;> simp [Token.atEnd, stepOver]

theorem find?_comment_of_le (h : stop ≤ l.offset) :
    (l.tokens.find? Token.isComment).filter (fun c => c.start < stop) = none := by
  rw [Option.filter_eq_none_iff]
  intro c hc
  obtain ⟨s, hs, rfl⟩ := List.mem_map.1 (List.mem_of_find?_eq_some hc)
  have := offset_le_of_mem_steps s hs
  rw [decide_eq_true_eq]
  omega

/-- The token either ends on the line, or what is left of the line is the start of the token. -/
theorem text_cases (hr : l.rest ≠ []) (hrest : l.rest = ls ++ behind) :
    (∃ more, ls = l.next.token.text.toList ++ more ∧ l.next.lexer.rest = more ++ behind) ∨
      ∃ more, l.next.token.text.toList = ls ++ more ∧ behind = more ++ l.next.lexer.rest := by
  obtain ⟨c, cs, hc⟩ := List.exists_cons_of_ne_nil hr
  have hs : _ ++ _ = c :: cs := Lexeme.splits_scan l.afterOperand c cs
  rw [next_of_rest_eq_cons hc]
  rw [← hc, hrest] at hs
  simp only [stepOver, String.toList_ofList]
  rcases List.append_eq_append_iff.1 hs with ⟨more, hls, hmore⟩ | ⟨more, htext, hmore⟩
  · exact .inl ⟨more, hls, hmore⟩
  · exact .inr ⟨more, htext, hmore⟩

theorem isSpace_of_hidden (hr : l.rest ≠ []) (hhidden : l.next.token.isHidden = true)
    (hcomment : l.next.token.isComment = false) : ∀ d ∈ l.next.token.text.toList, isSpace d = true := by
  obtain ⟨c, cs, hc⟩ := List.exists_cons_of_ne_nil hr
  rw [next_of_rest_eq_cons hc] at hhidden hcomment ⊢
  rcases Lexeme.blank_or_mark hhidden with ⟨-, hblank⟩ | ⟨hkind, -⟩
  · simpa [stepOver] using hblank
  · rcases hkind with hkind | hkind <;> simp [stepOver, Token.isComment, hkind] at hcomment

/-- The lexer has come to a line of a text without faults. Of the line, which is up to `stop`, it has `ls`
left, and the regular expressions there are unmarked. -/
structure OnLine (text : String) (stop : Nat) (l : Lexer) (ls : List Char) : Prop where
  reads : l.Reads text
  clean : l.faults = []
  rest_eq : ∃ behind, l.rest = ls ++ behind ∧ AtLineEnd behind
  stop_eq : l.offset + ls.length = stop
  unmarked : ∀ t ∈ l.tokens, t.kind = .regexLit → t.start < stop →
    Unmarked (text.toList.drop t.stop) t.text.toList

namespace OnLine

theorem next_clean (h : OnLine text stop l ls) (hr : l.rest ≠ []) :
    l.next.faults = [] ∧ l.next.lexer.faults = [] := by
  have hclean := h.clean
  rwa [faults_of_rest_ne_nil hr, List.append_eq_nil_iff] at hclean

theorem next (h : OnLine text stop l ls) (hr : l.rest ≠ []) {more : List Char}
    (hls : ls = l.next.token.text.toList ++ more) : OnLine text stop l.next.lexer more := by
  obtain ⟨behind, hrest, hbehind⟩ := h.rest_eq
  obtain ⟨c, cs, hc⟩ := List.exists_cons_of_ne_nil hr
  have hs : _ ++ _ = c :: cs := Lexeme.splits_scan l.afterOperand c cs
  have hoffset := l.offset_next
  refine ⟨h.reads.next, (h.next_clean hr).2, ⟨behind, ?_, hbehind⟩, ?_, fun t ht => h.unmarked t ?_⟩
  · rw [hls, hc, ← hs, next_of_rest_eq_cons hc] at hrest
    rw [next_of_rest_eq_cons hc]
    simpa [stepOver] using hrest
  · have hstop := h.stop_eq
    rw [hls, List.length_append] at hstop
    omega
  · rw [tokens_eq, if_neg hr]
    exact List.mem_cons_of_mem _ ht

/-- What the grammar sees ends on its line. -/
theorem exists_eq_append (h : OnLine text stop l ls) (hr : l.rest ≠ [])
    (hvisible : l.next.token.isHidden = false) : ∃ more, ls = l.next.token.text.toList ++ more := by
  obtain ⟨behind, hrest, hbehind⟩ := h.rest_eq
  rcases text_cases hr hrest with ⟨more, hmore, -⟩ | ⟨more, htext, hmore⟩
  · exact ⟨more, hmore⟩
  cases more with
  | nil => exact ⟨[], by rw [htext, List.append_nil, List.append_nil]⟩
  | cons d more =>
    exfalso
    have hwithin : WithinLine l.next.token.text.toList := by
      by_contra hn
      have hmem : l.next ∈ l.steps := by
        rw [steps_of_rest_ne_nil hr]
        exact List.mem_cons_self ..
      have hfault := (isOpenComment_of_mem_steps _ hmem hvisible hn).2
      rw [(h.next_clean hr).1] at hfault
      cases hfault
    have hd := isNewline_of_atLineEnd hbehind d (by rw [hmore]; rfl)
    rw [hwithin d (by simp [htext])] at hd
    cases hd

/-- A regular expression that ends on the line is unmarked. -/
theorem unmarked_next (h : OnLine text stop l ls) (hr : l.rest ≠ []) {more : List Char}
    (hls : ls = l.next.token.text.toList ++ more) (hkind : l.next.token.kind = .regexLit) :
    Unmarked l.next.lexer.rest l.next.token.text.toList := by
  obtain ⟨c, cs, hc⟩ := List.exists_cons_of_ne_nil hr
  have hdrop : text.toList.drop l.next.token.stop = l.next.lexer.rest := by
    rw [← offset_lexer_next, ← h.reads.next.rest_eq]
  rw [← hdrop]
  apply h.unmarked _ (by rw [tokens_eq]; simp) hkind
  have hpos := (h.reads.isSlice_next hc).start_lt
  have hoffset := l.offset_next
  have hstop := h.stop_eq
  rw [hls, List.length_append] at hstop
  rw [← offset_lexer_next] at hpos
  rw [start_token] at hpos ⊢
  omega

/-- A visible token is passed over. -/
theorem commentStartFrom_visible (h : OnLine text stop l ls) (hr : l.rest ≠ [])
    (hvisible : l.next.token.isHidden = false) {more : List Char}
    (hls : ls = l.next.token.text.toList ++ more) (column : Nat) :
    commentStartFrom none column ls =
      commentStartFrom none (column + l.next.token.text.toList.length) more := by
  obtain ⟨c, cs, hc⟩ := List.exists_cons_of_ne_nil hr
  obtain ⟨behind, hrest, -⟩ := (h.next hr hls).rest_eq
  have hfaults := (h.next_clean hr).1
  have hregex := h.unmarked_next hr hls
  rw [hrest] at hregex
  rw [next_of_rest_eq_cons hc] at hvisible hfaults hregex hrest hls ⊢
  rw [hls]
  simp only [stepOver, String.toList_ofList] at hregex hrest ⊢
  cases Lexeme.passes_scan hvisible (List.map_eq_nil_iff.1 hfaults) with
  | regex hkind => exact commentStartFrom_unmarked (hregex hkind).of_append column
  | unmarked hunmarked =>
    rw [hrest] at hunmarked
    exact commentStartFrom_unmarked hunmarked.of_append column
  | @literal quote body hquote hbody htext =>
    have hslash : quote ≠ '\\' := by rcases hquote with rfl | rfl <;> decide
    rw [htext, List.cons_append, List.append_assoc, List.singleton_append, commentStartFrom.eq_def]
    simp only [if_pos hquote]
    rw [commentStartFrom_literal hbody hslash]
    simp only [List.length_cons, List.length_append, List.length_nil]
    congr 1
    omega

/-- Blanks are passed over, and it is the end of the line if they go on behind it. -/
theorem commentStartFrom_blank (h : OnLine text stop l ls) (hr : l.rest ≠ [])
    (hblank : ∀ d ∈ l.next.token.text.toList, isSpace d = true) (column : Nat) :
    (∃ more, ls = l.next.token.text.toList ++ more ∧ commentStartFrom none column ls =
      commentStartFrom none (column + l.next.token.text.toList.length) more) ∨
      commentStartFrom none column ls = none ∧ stop ≤ l.next.lexer.offset := by
  obtain ⟨behind, hrest, -⟩ := h.rest_eq
  have hplain := fun d hd => isPlain_of_isSpace (hblank d hd)
  rcases text_cases hr hrest with ⟨more, hmore, -⟩ | ⟨more, htext, -⟩
  · left
    refine ⟨more, hmore, ?_⟩
    rw [hmore]
    exact commentStartFrom_unmarked (unmarked_of_isPlain hplain _) column
  · right
    have hunmarked : Unmarked [] ls := unmarked_of_isPlain
      (fun d hd => hplain d (by rw [htext]; exact List.mem_append_left _ hd)) _
    have hnone := commentStartFrom_unmarked hunmarked column
    rw [List.append_nil] at hnone
    refine ⟨hnone, ?_⟩
    rw [offset_next, htext, List.length_append, ← h.stop_eq]
    omega

theorem commentStartFrom_comment (h : OnLine text stop l ls)
    (hcomment : l.next.token.isComment = true) (hls : ls ≠ []) (column : Nat) :
    commentStartFrom none column ls = some column := by
  obtain ⟨behind, hrest, hbehind⟩ := h.rest_eq
  obtain ⟨c, more, rfl⟩ := List.exists_cons_of_ne_nil hls
  rw [List.cons_append] at hrest
  rw [next_of_rest_eq_cons hrest] at hcomment
  have hkind : (Lexeme.scan l.afterOperand c (more ++ behind)).kind = .lineComment ∨
      (Lexeme.scan l.afterOperand c (more ++ behind)).kind = .docComment := by
    simpa [Token.isComment, stepOver] using hcomment
  have htrivia : (Lexeme.scan l.afterOperand c (more ++ behind)).kind.isTrivia = true := by
    rcases hkind with hkind | hkind
    · rw [hkind]
      rfl
    · rw [hkind]
      rfl
  obtain ⟨hblank, -⟩ | ⟨-, rfl, hmark⟩ := Lexeme.blank_or_mark htrivia
  · rw [hblank] at hkind
    rcases hkind with hkind | hkind <;> cases hkind
  · -- the mark is not completed by a line end
    have hmore : more.head? = some '/' ∨ more.head? = some '*' := by
      cases more with
      | cons => exact hmark
      | nil =>
        rcases hmark with hmark | hmark
        · exact absurd (isNewline_of_atLineEnd hbehind _ hmark) (by decide)
        · exact absurd (isNewline_of_atLineEnd hbehind _ hmark) (by decide)
    simp [commentStartFrom, hmore]

/-- **Two recognisers of comments.** From a token on, the search finds the first comment that starts on the
line. -/
theorem commentStartFrom_eq (h : OnLine text stop l ls) {first column : Nat}
    (hfirst : first + column = l.offset) :
    commentStartFrom none column ls =
      ((l.tokens.find? Token.isComment).filter fun c => c.start < stop).map fun c => c.start - first := by
  induction l using next_induction generalizing ls column with
  | atEnd l hr =>
    obtain ⟨behind, hrest, -⟩ := h.rest_eq
    obtain ⟨rfl, -⟩ := List.append_eq_nil_iff.1 (hrest.symm.trans hr)
    rw [find?_comment_of_le (by simpa using h.stop_eq.symm.le)]
    rfl
  | next l hr ih =>
    have hoffset := l.offset_next
    cases hcomment : l.next.token.isComment with
    | true =>
      by_cases hls : ls = []
      · rw [hls, find?_comment_of_le (by simpa [hls] using h.stop_eq.symm.le)]
        rfl
      · have hlt : l.next.token.start < stop := by
          have := List.length_pos_iff.2 hls
          rw [start_token, ← h.stop_eq]
          omega
        rw [h.commentStartFrom_comment hcomment hls, tokens_eq, List.find?_cons_of_pos hcomment,
          Option.filter_some, decide_eq_true hlt, if_pos rfl, Option.map_some, start_token, ← hfirst,
          Nat.add_sub_cancel_left]
    | false =>
      rw [tokens_eq, if_neg hr, List.find?_cons_of_neg (by simp [hcomment])]
      cases hhidden : l.next.token.isHidden with
      | false =>
        obtain ⟨more, hls⟩ := h.exists_eq_append hr hhidden
        rw [h.commentStartFrom_visible hr hhidden hls]
        exact ih (h.next hr hls) (by omega)
      | true =>
        have hblank := isSpace_of_hidden hr hhidden hcomment
        obtain ⟨more, hls, hpass⟩ | ⟨hnone, hle⟩ := h.commentStartFrom_blank hr hblank column
        · rw [hpass]
          exact ih (h.next hr hls) (by omega)
        · rw [hnone, find?_comment_of_le hle]
          rfl

end OnLine

end Lexer

end SchemaLang
