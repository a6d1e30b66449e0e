import SchemaLang.Proofs.Tiling

/-!
# Slashes

A slash that opens no comment is a sign of its own, or a regular expression starts with it. The last
visible token before it decides.

* `SlashAt text before t rest`: behind the tokens `before` the text has such a slash, which is in the token
  `t`, and `rest` is behind the slash.
* `endsInOperand before`: the last visible token ends an operand.
* `OpensRegex text t`: the token is a regular expression, or the start of one that never ends.

Main statements: the slash is a sign if an operand has ended before it (`SlashAt.divides`), else it opens a
regular expression (`SlashAt.opensRegex`). A text that begins with anything else is cut in one way only
(`tokens_eq_of_visible_ne_slash`).
-/

set_option autoImplicit false

namespace SchemaLang

/-! ## Lexemes -/

theorem Symbol.leading?_slash (cs : List Char) : Symbol.leading? ('/' :: cs) = some .slash := by
  have hsome : Symbol.leading? ('/' :: cs) ≠ none := by
    intro h
    have := List.findSome?_eq_none_iff.1 h 1 (by simp)
    revert this
    simp only [List.take_succ_cons, List.take_zero]
    decide
  obtain ⟨s, hs⟩ := Option.ne_none_iff_exists'.1 hsome
  have hc := congrArg List.head? (Symbol.chars_of_leading? hs)
  rw [hs]
  cases s <;> simp_all [Symbol.chars]

namespace Lexeme

variable {c : Char} {cs : List Char}

/-- Behind an operand a slash is a sign, unless it opens a comment. -/
theorem scan_true_slash (hl : cs.head? ≠ some '/') (hb : cs.head? ≠ some '*') :
    scan true '/' cs = ⟨.symbol .slash, ['/'], cs, []⟩ := by
  have hs : isSpace '/' = false := by decide
  simp [scan, hs, hl, hb, Symbol.leading?_slash, Symbol.chars]

theorem scan_false_slash (hl : cs.head? ≠ some '/') (hb : cs.head? ≠ some '*') :
    scan false '/' cs = regex cs := by
  have hs : isSpace '/' = false := by decide
  simp [scan, hs, hl, hb]

/-- What is before a lexeme matters for slashes only. -/
theorem scan_true_eq (h : (scan true c cs).kind ≠ .symbol .slash) :
    scan true c cs = scan false c cs := by
  by_cases hc : c = '/' ∧ cs.head? ≠ some '/' ∧ cs.head? ≠ some '*'
  · obtain ⟨rfl, hl, hb⟩ := hc
    exact absurd (by rw [scan_true_slash hl hb]) h
  · unfold scan
    by_cases hs : c = '/'
    · simp only [hs, true_and, not_and_or, not_not] at hc ⊢
      rcases hc with hc | hc <;> simp [hc]
    · simp [hs]

end Lexeme

/-! ## Streams -/

/-- Whether a slash behind the tokens divides: the last one that is visible ends an operand. -/
def endsInOperand (ts : List Token) : Bool :=
  (visibleTokens ts).getLast?.any fun t => t.kind.endsOperand

namespace Lexer

variable {l : Lexer} {text : String} {t : Token} {before after : List Token}

theorem tokens_of_rest_eq_nil (h : l.rest = []) : l.tokens = [Token.atEnd l.offset] := by
  rw [tokens_eq, if_pos h, next_of_rest_eq_nil h]

theorem tokens_of_rest_eq_cons {c : Char} {cs : List Char} (h : l.rest = c :: cs) :
    l.tokens = (l.stepOver (Lexeme.scan l.afterOperand c cs)).token ::
      (l.stepOver (Lexeme.scan l.afterOperand c cs)).lexer.tokens := by
  rw [tokens_eq, if_neg (by simp [h]), next_of_rest_eq_cons h]

theorem kind_next_ne_endOfText (h : l.rest ≠ []) : l.next.token.kind ≠ .endOfText := by
  obtain ⟨c, cs, hr⟩ := List.exists_cons_of_ne_nil h
  rw [next_of_rest_eq_cons hr]
  exact (Lexeme.sound_scan l.afterOperand c cs).ne_end

theorem afterOperand_next (h : l.rest ≠ []) : l.next.lexer.afterOperand =
    if l.next.token.isHidden then l.afterOperand else l.next.token.kind.endsOperand := by
  obtain ⟨c, cs, hr⟩ := List.exists_cons_of_ne_nil h
  rw [next_of_rest_eq_cons hr]
  rfl

/-- A lexer comes to each token of its stream, and then knows what ended before. -/
theorem exists_tokens_eq_cons (hl : l.Reads text) (h : l.tokens = before ++ t :: after) :
    ∃ m : Lexer, m.Reads text ∧ m.tokens = t :: after ∧ (∀ s ∈ m.steps, s ∈ l.steps) ∧
      (∀ b ∈ before, b.kind ≠ .endOfText) ∧
      m.afterOperand =
        ((visibleTokens before).getLast?.map fun t => t.kind.endsOperand).getD l.afterOperand := by
  induction before generalizing l with
  | nil => exact ⟨l, hl, h, fun _ hs => hs, nofun, rfl⟩
  | cons b before ih =>
    by_cases hr : l.rest = []
    · rw [tokens_eq, if_pos hr] at h
      simp at h
    · rw [tokens_eq, if_neg hr, List.cons_append] at h
      obtain ⟨rfl, hrest⟩ := List.cons_eq_cons.1 h
      obtain ⟨m, hm, htokens, hsteps, hbefore, hafter⟩ := ih hl.next hrest
      have hne := kind_next_ne_endOfText hr
      refine ⟨m, hm, htokens, fun s hs => ?_, List.forall_mem_cons.2 ⟨hne, hbefore⟩, ?_⟩
      · rw [steps]
        simp [hr, hsteps s hs]
      · rw [hafter, afterOperand_next hr, visibleTokens_cons hne]
        split
        · rfl
        · rw [List.getLast?_cons]
          cases (visibleTokens before).getLast? <;> rfl

end Lexer

/-- It only matters to a slash at the start whether an operand has ended. -/
theorem tokens_eq_of_visible_ne_slash {rest : List Char} {n : Nat}
    (h : ∀ t ∈ (visibleTokens (Lexer.mk rest n true).tokens).head?, t.kind ≠ .symbol .slash) :
    (Lexer.mk rest n true).tokens = (Lexer.mk rest n false).tokens := by
  induction hl : rest.length using Nat.strongRecOn generalizing rest n with
  | _ l ih =>
    subst hl
    cases rest with
    | nil => rw [Lexer.tokens_of_rest_eq_nil rfl, Lexer.tokens_of_rest_eq_nil rfl]
    | cons c cs =>
      have hne := (Lexeme.sound_scan true c cs).ne_end
      have hlen := Lexeme.length_rest_scan true c cs
      rw [Lexer.tokens_of_rest_eq_cons rfl] at h ⊢
      rw [Lexer.tokens_of_rest_eq_cons (l := ⟨c :: cs, n, false⟩) rfl]
      rw [visibleTokens_cons hne] at h
      have hkind : (Lexeme.scan true c cs).kind ≠ .symbol .slash := by
        intro hk
        simp [Lexer.stepOver, Token.isHidden, hk, TokenKind.isTrivia] at h
      rw [← Lexeme.scan_true_eq hkind]
      generalize Lexeme.scan true c cs = x at h hlen ⊢
      cases hx : x.kind.isTrivia with
      | false => simp [Lexer.stepOver, hx]
      | true =>
        simp only [Lexer.stepOver, Token.isHidden, hx, if_true] at h ⊢
        rw [ih _ hlen h rfl]

/-! ## Slashes -/

/-- Behind the tokens `before` the text has a slash that opens no comment, and `rest` behind it. -/
structure SlashAt (text : String) (before : List Token) (t : Token) (rest : List Char) : Prop where
  stream : ∃ after, (tokenize text).1 = before ++ t :: after
  text_eq : text.toList.drop t.start = '/' :: rest
  not_line : rest.head? ≠ some '/'
  not_block : rest.head? ≠ some '*'

/-- The token is a regular expression, or the start of one that never ends. -/
def OpensRegex (text : String) (t : Token) : Prop :=
  t.kind = .regexLit ∨
    t.kind = .invalid ∧ ⟨.unterminatedRegex, t.start, t.stop⟩ ∈ (tokenize text).2

namespace SlashAt

variable {text : String} {before : List Token} {t : Token} {rest : List Char}

theorem exists_lexer (h : SlashAt text before t rest) :
    ∃ l : Lexer, l.rest = '/' :: rest ∧ l.offset = t.start ∧ l.next.token = t ∧
      l.afterOperand = endsInOperand before ∧ l.next ∈ (Lexer.ofText text).steps ∧
      (tokenize text).1 = before ++ l.tokens ∧ ∀ b ∈ before, b.kind ≠ .endOfText := by
  obtain ⟨after, hstream⟩ := h.stream
  obtain ⟨l, hl, htokens, hsteps, hbefore, hafter⟩ :=
    Lexer.exists_tokens_eq_cons (Lexer.reads_ofText text) hstream
  have hnext : l.next.token = t := by
    rw [Lexer.tokens_eq] at htokens
    exact (List.cons_eq_cons.1 htokens).1
  have hstart : l.offset = t.start := by
    rw [← hnext]
    unfold Lexer.next
    split <;> rfl
  refine ⟨l, ?_, hstart, hnext, ?_, hsteps _ ?_, htokens ▸ hstream, hbefore⟩
  · rw [hl.rest_eq, hstart, h.text_eq]
  · rw [hafter, endsInOperand]
    cases (visibleTokens before).getLast? <;> rfl
  · rw [Lexer.steps]
    split <;> simp

/-- Behind an operand the slash is a token of its own, and the rest is cut as if nothing had ended. -/
theorem divides (h : SlashAt text before t rest) (ho : endsInOperand before = true) :
    t.kind = .symbol .slash ∧ (∀ b ∈ before, b.kind ≠ .endOfText) ∧
      (tokenize text).1 = before ++ t :: (Lexer.mk rest (t.start + 1) false).tokens := by
  obtain ⟨l, hrest, hoffset, hnext, hafter, -, hstream, hbefore⟩ := h.exists_lexer
  have hne : l.rest ≠ [] := by simp [hrest]
  have hstep := Lexer.next_of_rest_eq_cons hrest
  rw [hafter, ho, Lexeme.scan_true_slash h.not_line h.not_block] at hstep
  rw [Lexer.tokens_eq, if_neg hne, hnext] at hstream
  refine ⟨?_, hbefore, ?_⟩
  · rw [← hnext, hstep]
    rfl
  · rw [hstream, hstep, ← hoffset]
    rfl

theorem opensRegex (h : SlashAt text before t rest) (ho : endsInOperand before = false) :
    OpensRegex text t := by
  obtain ⟨l, hrest, hoffset, hnext, hafter, hmem, -, -⟩ := h.exists_lexer
  have hstep := Lexer.next_of_rest_eq_cons hrest
  rw [hafter, ho, Lexeme.scan_false_slash h.not_line h.not_block] at hstep
  subst hnext
  have hfaults {f : Fault} (hf : f ∈ l.next.faults) : f ∈ (tokenize text).2 :=
    List.mem_flatMap.2 ⟨_, hmem, hf⟩
  rw [hstep] at hfaults ⊢
  unfold Lexeme.regex at hfaults ⊢
  dsimp only at hfaults ⊢
  split
  · exact .inl rfl
  · rename_i hc
    rw [if_neg hc] at hfaults
    exact .inr ⟨rfl, hfaults (by simp [Lexer.stepOver, Fault.shift, Nat.add_comm])⟩

end SlashAt

end SchemaLang
