import SchemaLang.Proofs.Written.Lexemes

/-!
# Texts and the words they are cut into

* `Lexer.words` and `Lexer.faults` are what a lexer has before it: the tokens that the grammar sees, without
  their places, and the faults.
* `Writes cs ws clean next`: wherever `cs` stands, it is cut into the words `ws`, without a fault exactly if
  `clean`. What stands behind it is a character that satisfies `next`, or nothing.

Main statements: texts behind each other are cut into words behind each other (`Writes.append`); a word, a
symbol and a blank are texts of that kind.
-/

set_option autoImplicit false

namespace SchemaLang

namespace Lexer

def words (l : Lexer) : List (TokenKind × String) :=
  (visibleTokens l.tokens).map fun t => (t.kind, t.text)

def faults (l : Lexer) : List Fault := l.steps.flatMap (·.faults)

variable {l : Lexer}

theorem steps_of_rest_ne_nil (h : l.rest ≠ []) : l.steps = l.next :: l.next.lexer.steps := by
  rw [steps, dif_neg h]

theorem words_of_rest_ne_nil (h : l.rest ≠ []) (hk : l.next.token.kind ≠ .endOfText) :
    l.words = (if l.next.token.isHidden then [] else [(l.next.token.kind, l.next.token.text)]) ++
      l.next.lexer.words := by
  rw [words, tokens, steps_of_rest_ne_nil h, List.map_cons, visibleTokens_cons hk]
  split <;> rfl

theorem faults_of_rest_ne_nil (h : l.rest ≠ []) :
    l.faults = l.next.faults ++ l.next.lexer.faults := by
  rw [faults, steps_of_rest_ne_nil h, List.flatMap_cons, faults]

theorem words_of_rest_eq_nil (h : l.rest = []) : l.words = [] := by
  rw [words, tokens_of_rest_eq_nil h]
  rfl

theorem faults_of_rest_eq_nil (h : l.rest = []) : l.faults = [] := by
  simp [faults, steps, h, next]

end Lexer

def Writes (cs : List Char) (ws : List (TokenKind × String)) (clean : Prop) (next : Char → Prop) : Prop :=
  ∀ (l : Lexer) (rest : List Char), l.rest = cs ++ rest → (∀ d ∈ rest.head?, next d) →
    ∃ l' : Lexer, l'.rest = rest ∧ l.words = ws ++ l'.words ∧ (l.faults = [] ↔ clean ∧ l'.faults = [])

section

variable {cs ds : List Char} {ws vs : List (TokenKind × String)} {clean clean' : Prop}
  {next next' : Char → Prop}

theorem writes_nil : Writes [] [] True next := fun l _ hl _ => ⟨l, hl, rfl, by simp⟩

theorem Writes.mono (h : Writes cs ws clean next) (hc : clean ↔ clean') (hn : ∀ d, next' d → next d) :
    Writes cs ws clean' next' := by
  intro l rest hl hr
  rw [← hc]
  exact h l rest hl fun d hd => hn d (hr d hd)

theorem Writes.append (h : Writes cs ws clean next) (h' : Writes ds vs clean' next')
    (hd : ∀ d ∈ ds.head?, next d) (hn : ds = [] → ∀ d, next' d → next d) :
    Writes (cs ++ ds) (ws ++ vs) (clean ∧ clean') next' := by
  intro l rest hl hr
  rw [List.append_assoc] at hl
  have hds : ∀ d ∈ (ds ++ rest).head?, next d := by
    cases ds with
    | nil => exact fun d hd => hn rfl d (hr d hd)
    | cons d ds => exact hd
  obtain ⟨m, hm, hw, hf⟩ := h l _ hl hds
  obtain ⟨l', hl', hw', hf'⟩ := h' m rest hm hr
  exact ⟨l', hl', by rw [hw, hw', List.append_assoc], by rw [hf, hf', and_assoc]⟩

/-- Behind a text without faults. -/
theorem Writes.before (h : Writes cs ws True next) (h' : Writes ds vs clean next')
    (hd : ∀ d ∈ ds.head?, next d) (hn : ds = [] → ∀ d, next' d → next d) :
    Writes (cs ++ ds) (ws ++ vs) clean next' :=
  (h.append h' hd hn).mono (by simp) fun _ hd => hd

/-- What is cut off whole, whatever stands before it. -/
theorem writes_of_scan {kind : TokenKind} {c : Char} {faults : List Fault} (hk : kind ≠ .endOfText)
    (hf : faults = [] ↔ clean)
    (h : ∀ (afterOperand : Bool) (rest : List Char), (∀ d ∈ rest.head?, next d) →
      Lexeme.scan afterOperand c (cs ++ rest) = ⟨kind, c :: cs, rest, faults⟩) :
    Writes (c :: cs) (if kind.isTrivia then [] else [(kind, String.ofList (c :: cs))]) clean next := by
  intro l rest hl hr
  have hne : l.rest ≠ [] := by simp [hl]
  have hnext : l.next = l.stepOver ⟨kind, c :: cs, rest, faults⟩ := by
    rw [Lexer.next, hl, List.cons_append]
    exact congrArg l.stepOver (h _ rest hr)
  refine ⟨l.next.lexer, by rw [hnext]; rfl, ?_, ?_⟩
  · rw [Lexer.words_of_rest_ne_nil hne (by rw [hnext]; exact hk), hnext]
    rfl
  · rw [Lexer.faults_of_rest_ne_nil hne, List.append_eq_nil_iff, ← hf, hnext, Lexer.stepOver,
      List.map_eq_nil_iff]

end

/-! ## Words, symbols and blanks -/

theorem isVisible_wordKind (word : String) :
    wordKind word ≠ .endOfText ∧ (wordKind word).isTrivia = false := by
  have h := isKeyword_or_isWord_wordKind word
  revert h
  generalize wordKind word = k
  cases k <;> simp [TokenKind.isKeyword, TokenKind.isWord, TokenKind.isTrivia]

theorem writes_word {cs : List Char} (h : hasAliasShape cs = true) :
    Writes cs [(wordKind (String.ofList cs), String.ofList cs)] True (isWordPart · = false) := by
  obtain ⟨c, cs, rfl⟩ : ∃ d ds, cs = d :: ds := List.exists_cons_of_ne_nil (by rintro rfl; cases h)
  obtain ⟨hend, htrivia⟩ := isVisible_wordKind (String.ofList (c :: cs))
  have hw := @writes_of_scan cs True (isWordPart · = false) _ c [] hend (by simp)
    fun _ _ hr => Lexeme.scan_word h hr
  rwa [htrivia] at hw

theorem writes_symbol {s : Symbol} {c : Char} (hc : s.chars = [c]) (hs : s ≠ .slash) :
    Writes [c] [(.symbol s, s.text)] True (s.goesOn · = false) := by
  rw [Symbol.text, hc]
  exact @writes_of_scan [] True (s.goesOn · = false) (.symbol s) c [] (by simp) (by simp)
    fun _ _ hr => Lexeme.scan_symbol hc hs hr

theorem writes_blank {c : Char} (hc : isSpace c = true) : Writes [c] [] True (isSpace · = false) := by
  refine @writes_of_scan [] True (isSpace · = false) .blank c [] (by simp) (by simp)
    fun afterOperand rest hr => ?_
  obtain ⟨htake, hdrop⟩ := @takeWhile_dropWhile_append isSpace [] rest nofun hr
  rw [Lexeme.scan, if_pos hc, Lexeme.whileTrue, htake, hdrop, List.append_nil]

end SchemaLang
