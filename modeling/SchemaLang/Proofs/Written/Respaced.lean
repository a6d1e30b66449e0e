import SchemaLang.Proofs.Written.Before

/-!
# Blanks between tokens

* `Apart ts cs`: `cs` has the texts of the tokens `ts`, with a run of blanks behind each of them.
* `hiddenRun stream`: what is hidden at the start of a stream.
* `Respaced text again`: `again` begins with what is hidden at the start of `text`, and has the tokens of
  `text` behind it, each with a run of blanks behind it, whatever stands there in `text`.
* `grammarTokens stream`: the kinds and the texts of the tokens that are not hidden.
* `Lexer.Follows l m rest`: the lexer `m` cuts off what `l` does.

Blanks do not change whether an operand has ended, so one lexer follows the other from token to token.

Main statements: a lexer of a spaced text has the same words (`Lexer.words_of_apart`), also behind what is
hidden at the start (`Lexer.words_of_hiddenRun`), so a text respaced has the same tokens
(`grammarTokens_respaced`).
-/

set_option autoImplicit false

namespace SchemaLang

/-! ## Streams -/

inductive Apart : List Token → List Char → Prop where
  | nil : Apart [] []
  | cons {t : Token} {ts : List Token} {gap cs : List Char} : gap ≠ [] →
      (∀ d ∈ gap, isSpace d = true) → Apart ts cs → Apart (t :: ts) (t.text.toList ++ (gap ++ cs))

def hiddenRun (stream : List Token) : List Char :=
  (stream.takeWhile Token.isHidden).flatMap fun t => t.text.toList

namespace Lexer

variable {l m : Lexer} {c : Char} {cs gap rest : List Char}

def Closed (l : Lexer) : Prop := ∀ f ∈ l.faults, f.cause.isUnterminated = false

theorem Closed.scan (h : l.Closed) (hr : l.rest = c :: cs) : (Lexeme.scan l.afterOperand c cs).Closed := by
  intro f hf
  apply h (f.shift l.offset)
  rw [faults_of_rest_ne_nil (by simp [hr]), next_of_rest_eq_cons hr]
  exact List.mem_append_left _ (List.mem_map_of_mem hf)

theorem Closed.next (h : l.Closed) (hr : l.rest ≠ []) : l.next.lexer.Closed := by
  intro f hf
  apply h
  rw [faults_of_rest_ne_nil hr]
  exact List.mem_append_right _ hf

/-- A visible token begins with a character that is not blank. -/
theorem exists_toList_of_mem_visibleTokens {t : Token} (ht : t ∈ visibleTokens l.tokens) :
    ∃ d ds, t.text.toList = d :: ds ∧ isSpace d = false := by
  obtain ⟨hmem, hne⟩ := mem_visibleTokens ht
  have hvisible : t.isHidden = false := by simpa using (List.mem_filter.1 ht).2
  obtain ⟨s, hs, rfl⟩ := List.mem_map.1 hmem
  revert hne hvisible
  refine forall_mem_steps (I := fun _ => True) (P := fun s => s.token.kind ≠ .endOfText →
    s.token.isHidden = false → ∃ d ds, s.token.text.toList = d :: ds ∧ isSpace d = false)
    (fun _ _ => trivial) (fun l _ hne hvisible => ?_) trivial s hs
  cases hr : l.rest with
  | nil => exact absurd (by rw [next_of_rest_eq_nil hr]; rfl) hne
  | cons c cs =>
    rw [next_of_rest_eq_cons hr] at hvisible ⊢
    obtain ⟨ds, hds⟩ := Lexeme.exists_text_eq_cons l.afterOperand c cs
    refine ⟨c, ds, by simp [stepOver, hds], ?_⟩
    rw [Bool.eq_false_iff]
    intro hspace
    have hkind := (Lexeme.kind_scan_eq_blank_iff l.afterOperand c cs).2 hspace
    simp [stepOver, Token.isHidden, hkind, TokenKind.isTrivia] at hvisible

theorem exists_behind_gap (hgap : ∀ d ∈ gap, isSpace d = true) (hcs : ∀ d ∈ cs.head?, isSpace d = false)
    (hm : m.rest = gap ++ cs) :
    ∃ m' : Lexer, m'.rest = cs ∧ m'.afterOperand = m.afterOperand ∧ m'.words = m.words := by
  cases gap with
  | nil => exact ⟨m, hm, rfl, rfl⟩
  | cons d ds =>
    rw [List.forall_mem_cons] at hgap
    obtain ⟨htake, hdrop⟩ := takeWhile_dropWhile_append hgap.2 hcs
    have hne : m.rest ≠ [] := by simp [hm]
    have hnext : m.next = m.stepOver ⟨.blank, d :: ds, cs, []⟩ := by
      rw [next_of_rest_eq_cons (hm.trans (List.cons_append ..)), Lexeme.scan, if_pos hgap.1,
        Lexeme.whileTrue, htake, hdrop, List.singleton_append]
    refine ⟨m.next.lexer, by rw [hnext]; rfl, by rw [hnext]; rfl, ?_⟩
    rw [words_of_rest_ne_nil hne (by rw [hnext]; simp [stepOver]), hnext]
    rfl

/-- The lexer `m` cuts off what `l` does, before `rest`. -/
structure Follows (l m : Lexer) (rest : List Char) : Prop where
  ne_nil : m.rest ≠ []
  kind_eq : m.next.token.kind = l.next.token.kind
  text_eq : m.next.token.text = l.next.token.text
  rest_eq : m.next.lexer.rest = rest
  afterOperand_eq : m.next.lexer.afterOperand = l.next.lexer.afterOperand

theorem Follows.words_eq (h : Follows l m rest) (hr : l.rest ≠ [])
    (hwords : m.next.lexer.words = l.next.lexer.words) : m.words = l.words := by
  have hne := kind_next_ne_endOfText hr
  rw [words_of_rest_ne_nil h.ne_nil (h.kind_eq ▸ hne), words_of_rest_ne_nil hr hne, hwords,
    Token.isHidden, Token.isHidden, h.kind_eq, h.text_eq]

theorem follows_of_scan (hr : l.rest = c :: cs) (hafter : m.afterOperand = l.afterOperand)
    (hm : m.rest = l.next.token.text.toList ++ rest)
    (hscan : ∀ ds, (Lexeme.scan l.afterOperand c cs).text = c :: ds →
      Lexeme.scan l.afterOperand c (ds ++ rest) = (Lexeme.scan l.afterOperand c cs).before rest) :
    Follows l m rest := by
  obtain ⟨ds, hds⟩ := Lexeme.exists_text_eq_cons l.afterOperand c cs
  have hl := next_of_rest_eq_cons hr
  have hm' : m.rest = c :: (ds ++ rest) := by simpa [hl, stepOver, hds] using hm
  have hnext := next_of_rest_eq_cons hm'
  rw [hafter, hscan ds hds] at hnext
  refine ⟨by simp [hm'], ?_, ?_, ?_, ?_⟩
  · rw [hnext, hl]
    rfl
  · rw [hnext, hl]
    rfl
  · rw [hnext]
    rfl
  · rw [hnext, hl, stepOver, stepOver, hafter]
    rfl

theorem visibleTokens_of_rest_eq_nil (h : l.rest = []) : visibleTokens l.tokens = [] := by
  rw [tokens_of_rest_eq_nil h]
  rfl

theorem visibleTokens_of_rest_ne_nil (h : l.rest ≠ []) : visibleTokens l.tokens =
    if l.next.token.isHidden then visibleTokens l.next.lexer.tokens
    else l.next.token :: visibleTokens l.next.lexer.tokens := by
  rw [tokens_eq, if_neg h, visibleTokens_cons (kind_next_ne_endOfText h)]

theorem head_of_apart (hs : Apart (visibleTokens l.tokens) cs) : ∀ d ∈ cs.head?, isSpace d = false := by
  intro d hd
  generalize hts : visibleTokens l.tokens = ts at hs
  cases hs with
  | nil => cases hd
  | @cons t =>
    obtain ⟨e, es, htext, he⟩ := exists_toList_of_mem_visibleTokens (l := l) (t := t) (by simp [hts])
    rw [htext] at hd
    obtain rfl : e = d := by simpa using hd
    exact he

theorem follows_before_blank (hr : l.rest ≠ []) (hclosed : l.Closed)
    (hafter : m.afterOperand = l.afterOperand) (hvisible : l.next.token.isHidden = false)
    (hm : m.rest = l.next.token.text.toList ++ rest) (hrest : ∀ d ∈ rest.head?, isSpace d = true) :
    Follows l m rest := by
  obtain ⟨c, cs, hc⟩ := List.exists_cons_of_ne_nil hr
  apply follows_of_scan hc hafter hm
  intro ds hds
  rw [next_of_rest_eq_cons hc] at hvisible
  exact Lexeme.scan_before_blank hvisible (hclosed.scan hc) hds hrest

/-- Behind the same operand or none, blanks between tokens change no token. -/
theorem words_of_apart (hclosed : l.Closed) (hafter : m.afterOperand = l.afterOperand)
    (hs : Apart (visibleTokens l.tokens) m.rest) : m.words = l.words := by
  induction l using next_induction generalizing m with
  | atEnd l hr =>
    rw [visibleTokens_of_rest_eq_nil hr] at hs
    generalize hrest : m.rest = cs at hs
    cases hs
    rw [words_of_rest_eq_nil hrest, words_of_rest_eq_nil hr]
  | next l hr ih =>
    rw [visibleTokens_of_rest_ne_nil hr] at hs
    cases hhidden : l.next.token.isHidden with
    | true =>
      have hkind := afterOperand_next hr
      rw [hhidden, if_pos rfl] at hs hkind
      rw [ih (hclosed.next hr) (hafter.trans hkind.symm) hs,
        words_of_rest_ne_nil hr (kind_next_ne_endOfText hr), hhidden]
      rfl
    | false =>
      rw [hhidden, if_neg Bool.false_ne_true] at hs
      generalize hrest : m.rest = cs at hs
      cases hs with
      | @cons _ _ gap cs hne hgap hs =>
        have hblank : ∀ d ∈ (gap ++ cs).head?, isSpace d = true := by
          intro d hd
          rw [List.head?_append_of_ne_nil _ hne] at hd
          exact hgap d (List.mem_of_mem_head? hd)
        have hfollows := follows_before_blank hr hclosed hafter hhidden hrest hblank
        -- behind the token only the run of blanks is different
        obtain ⟨m', rfl, hafter', hwords⟩ := exists_behind_gap hgap (head_of_apart hs) hfollows.rest_eq
        apply hfollows.words_eq hr
        rw [← hwords]
        exact ih (hclosed.next hr) (hafter'.trans hfollows.afterOperand_eq) hs

/-- What is hidden and the tokens behind it begin as the next token does. -/
theorem exists_hiddenRun_append (hr : l.rest ≠ []) (hs : Apart (visibleTokens l.tokens) cs) :
    ∃ ds, hiddenRun l.tokens ++ cs = l.next.token.text.toList ++ ds ∧
      (l.next.token.isHidden = true →
        ds = hiddenRun l.next.lexer.tokens ++ cs ∧ Apart (visibleTokens l.next.lexer.tokens) cs) := by
  rw [visibleTokens_of_rest_ne_nil hr] at hs
  rw [hiddenRun, tokens_eq, if_neg hr]
  cases hhidden : l.next.token.isHidden with
  | true =>
    rw [hhidden, if_pos rfl] at hs
    rw [List.takeWhile_cons_of_pos hhidden, List.flatMap_cons, List.append_assoc]
    exact ⟨_, rfl, fun _ => ⟨rfl, hs⟩⟩
  | false =>
    rw [hhidden, if_neg Bool.false_ne_true] at hs
    rw [List.takeWhile_cons_of_neg (by simp [hhidden])]
    cases hs with
    | cons => exact ⟨_, rfl, fun h => by cases h⟩

/-- A token at the end of a line begins with the whole line end. -/
theorem atLineEnd_append {ds : List Char} (hr : l.rest ≠ []) (hline : AtLineEnd l.rest) :
    AtLineEnd (l.next.token.text.toList ++ ds) := by
  obtain ⟨c, cs, hc⟩ := List.exists_cons_of_ne_nil hr
  rw [hc, AtLineEnd, untilLineEnd] at hline
  rw [next_of_rest_eq_cons hc]
  split at hline
  · rename_i hend
    have hspace : isSpace c = true := by
      rcases hend with rfl | ⟨rfl, -⟩
      · decide
      · decide
    have htext : (l.stepOver (Lexeme.scan l.afterOperand c cs)).token.text.toList =
        c :: cs.takeWhile isSpace := by
      simp [stepOver, Lexeme.scan, hspace, Lexeme.whileTrue]
    rw [htext, AtLineEnd, List.cons_append, untilLineEnd, if_pos]
    apply hend.imp_right
    rintro ⟨hreturn, hhead⟩
    obtain ⟨es, rfl⟩ := List.head?_eq_some_iff.1 hhead
    have hnewline : isSpace '\n' = true := by decide
    simp [hreturn, hnewline]
  · simp at hline

theorem head_token (hr : l.rest ≠ []) : l.next.token.text.toList.head? = l.rest.head? := by
  obtain ⟨c, cs, hc⟩ := List.exists_cons_of_ne_nil hr
  obtain ⟨ds, hds⟩ := Lexeme.exists_text_eq_cons l.afterOperand c cs
  rw [next_of_rest_eq_cons hc, hc]
  simp [stepOver, hds]

theorem hiddenRun_of_visible (h : l.rest = [] ∨ l.next.token.isHidden = false) : hiddenRun l.tokens = [] := by
  rw [hiddenRun, tokens_eq, List.takeWhile_cons_of_neg]
  · rfl
  · rcases h with h | h
    · rw [next_of_rest_eq_nil h]
      exact Bool.false_ne_true
    · rw [h]
      exact Bool.false_ne_true

/-- Respaced, a text begins as before, and with the same line end. -/
theorem start_of_apart (hs : Apart (visibleTokens l.tokens) cs) :
    (hiddenRun l.tokens ++ cs).head? = l.rest.head? ∧
      (AtLineEnd l.rest → AtLineEnd (hiddenRun l.tokens ++ cs)) := by
  by_cases hr : l.rest = []
  · rw [visibleTokens_of_rest_eq_nil hr] at hs
    cases hs
    rw [hiddenRun_of_visible (.inl hr), hr]
    exact ⟨rfl, id⟩
  · obtain ⟨ds, hds, -⟩ := exists_hiddenRun_append hr hs
    rw [hds]
    refine ⟨?_, atLineEnd_append hr⟩
    rw [List.head?_append, head_token hr]
    obtain ⟨c, cs, hc⟩ := List.exists_cons_of_ne_nil hr
    rw [hc]
    rfl

/-- What is hidden before the first token stays as it is. -/
theorem words_of_hiddenRun (hclosed : l.Closed) (hafter : m.afterOperand = l.afterOperand)
    (hs : Apart (visibleTokens l.tokens) cs) (hm : m.rest = hiddenRun l.tokens ++ cs) :
    m.words = l.words := by
  induction l using next_induction generalizing m with
  | atEnd l hr =>
    rw [hiddenRun_of_visible (.inl hr), List.nil_append] at hm
    exact words_of_apart hclosed hafter (hm ▸ hs)
  | next l hr ih =>
    cases hhidden : l.next.token.isHidden with
    | false =>
      rw [hiddenRun_of_visible (.inr hhidden), List.nil_append] at hm
      exact words_of_apart hclosed hafter (hm ▸ hs)
    | true =>
      obtain ⟨ds, hds, hnext⟩ := exists_hiddenRun_append hr hs
      obtain ⟨rfl, hs'⟩ := hnext hhidden
      obtain ⟨hhead, hline⟩ := start_of_apart hs'
      have hfollows : Follows l m (hiddenRun l.next.lexer.tokens ++ cs) := by
        obtain ⟨c, es, hc⟩ := List.exists_cons_of_ne_nil hr
        apply follows_of_scan hc hafter (hm.trans hds)
        intro ds hds
        rw [next_of_rest_eq_cons hc] at hhidden hhead hline ⊢
        exact Lexeme.scan_hidden_before hhidden hds hhead hline
      apply hfollows.words_eq hr
      exact ih (hclosed.next hr) hfollows.afterOperand_eq hs' hfollows.rest_eq

end Lexer

/-! ## Texts -/

/-- What the grammar gets of a stream: all tokens that are not hidden, up to the end of the text. -/
def grammarTokens (stream : List Token) : List (TokenKind × String) :=
  (stream.filter fun t => !t.isHidden).map fun t => (t.kind, t.text)

theorem Lexer.grammarTokens_tokens (l : Lexer) :
    grammarTokens l.tokens = l.words ++ [(.endOfText, "")] := by
  induction l using next_induction with
  | atEnd l hr =>
    rw [tokens_of_rest_eq_nil hr, words_of_rest_eq_nil hr]
    rfl
  | next l hr ih =>
    rw [tokens_eq, if_neg hr, words_of_rest_ne_nil hr (kind_next_ne_endOfText hr), List.append_assoc, ← ih]
    cases hhidden : l.next.token.isHidden <;> simp [grammarTokens, hhidden]

/-- The text `again` begins as `text` does, and has its tokens with a run of blanks behind each of them. -/
def Respaced (text again : String) : Prop :=
  ∃ cs, Apart (visibleTokens (tokenize text).1) cs ∧ again.toList = hiddenRun (tokenize text).1 ++ cs

/-- **Only tokens count.** What stands between tokens can be any blanks, unless a literal or a comment is
left open. -/
theorem grammarTokens_respaced {text again : String}
    (hclosed : ∀ f ∈ (tokenize text).2, f.cause.isUnterminated = false) (h : Respaced text again) :
    grammarTokens (tokenize again).1 = grammarTokens (tokenize text).1 := by
  obtain ⟨cs, hs, hagain⟩ := h
  have hwords : (Lexer.ofText again).words = (Lexer.ofText text).words :=
    Lexer.words_of_hiddenRun hclosed rfl hs hagain
  show grammarTokens (Lexer.ofText again).tokens = grammarTokens (Lexer.ofText text).tokens
  rw [Lexer.grammarTokens_tokens, Lexer.grammarTokens_tokens, hwords]

/-- A division, a number before a point, a character that is none of the language, and a regular expression
behind a comment. -/
theorem grammarTokens_respaced_slashes :
    (∀ f ∈ (tokenize "//c\na/1.e-->$x/*c*/&/\\/r/").2, f.cause.isUnterminated = false) ∧
      Respaced "//c\na/1.e-->$x/*c*/&/\\/r/" "//c\na /\t1 . e\n--> $x & /\\/r/ " ∧
      grammarTokens (tokenize "//c\na /\t1 . e\n--> $x & /\\/r/ ").1 =
        [(.lowerWord, "a"), (.symbol .slash, "/"), (.integerLit, "1"), (.symbol .dot, "."),
          (.lowerWord, "e"), (.symbol .association, "-->"), (.varWord, "$x"), (.invalid, "&"),
          (.regexLit, "/\\/r/"), (.endOfText, "")] := by
  have hclosed : ∀ f ∈ (tokenize "//c\na/1.e-->$x/*c*/&/\\/r/").2, f.cause.isUnterminated = false := by
    decide +kernel
  have hvisible : visibleTokens (tokenize "//c\na/1.e-->$x/*c*/&/\\/r/").1 =
      [⟨.lowerWord, "a", 4, 5⟩, ⟨.symbol .slash, "/", 5, 6⟩, ⟨.integerLit, "1", 6, 7⟩,
        ⟨.symbol .dot, ".", 7, 8⟩, ⟨.lowerWord, "e", 8, 9⟩, ⟨.symbol .association, "-->", 9, 12⟩,
        ⟨.varWord, "$x", 12, 14⟩, ⟨.invalid, "&", 19, 20⟩, ⟨.regexLit, "/\\/r/", 20, 25⟩] := by
    decide +kernel
  have hidden : hiddenRun (tokenize "//c\na/1.e-->$x/*c*/&/\\/r/").1 = "//c\n".toList := by decide +kernel
  have hblank (d : Char) (hd : isSpace d = true) : [d] ≠ [] ∧ ∀ e ∈ [d], isSpace e = true := by simp [hd]
  have hspace := hblank ' ' (by decide)
  have htab := hblank '\t' (by decide)
  have hline := hblank '\n' (by decide)
  have hrespaced : Respaced "//c\na/1.e-->$x/*c*/&/\\/r/" "//c\na /\t1 . e\n--> $x & /\\/r/ " := by
    refine ⟨"a /\t1 . e\n--> $x & /\\/r/ ".toList, ?_, ?_⟩
    · rw [hvisible]
      exact .cons hspace.1 hspace.2 (.cons htab.1 htab.2 (.cons hspace.1 hspace.2
        (.cons hspace.1 hspace.2 (.cons hline.1 hline.2 (.cons hspace.1 hspace.2
          (.cons hspace.1 hspace.2 (.cons hspace.1 hspace.2 (.cons hspace.1 hspace.2 .nil))))))))
    · rw [hidden]
      rfl
  refine ⟨hclosed, hrespaced, ?_⟩
  rw [grammarTokens_respaced hclosed hrespaced]
  decide +kernel

end SchemaLang
