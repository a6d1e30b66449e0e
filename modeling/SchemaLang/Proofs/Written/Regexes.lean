import SchemaLang.Proofs.Slashes
import SchemaLang.Proofs.Written.Strings
import SchemaLang.Schema.Expr

/-!
# Regular expressions as they are written

* `RegexBody body`: the characters may stand between the slashes of a regular expression. They are the
  body of a literal, not empty and without an asterisk at the start, since two slashes and a slash with an
  asterisk start a comment.
* `regexText body`: the body between its slashes.

The value is made by a replacement in the whole body, and so is its text, but the scan takes each backslash
with the character behind it. They agree: a slash in a body has a backslash before it that hides it, and a
backslash that is hidden itself has no slash behind it.

Main statement: the value of a regular expression is written as it was, and what is written is one token
again (`regexLit_written_back`).
-/

set_option autoImplicit false

namespace SchemaLang

structure RegexBody (body : List Char) : Prop where
  literal : LiteralBody '/' body
  ne_nil : body ≠ []
  head_ne : body.head? ≠ some '*'

def regexText (body : List Char) : List Char := '/' :: (body ++ ['/'])

/-! ## The value of a body -/

theorem unescapeSlashes_cons {c : Char} {cs : List Char} (h : c = '\\' → cs.head? ≠ some '/') :
    unescapeSlashes (c :: cs) = c :: unescapeSlashes cs := by
  rw [unescapeSlashes.eq_def]
  split
  · rename_i heq
    cases heq
    exact absurd rfl (h rfl)
  · rename_i heq
    cases heq
    rfl
  · contradiction

theorem escapeSlashes_cons {c : Char} (h : c ≠ '/') (cs : List Char) :
    escapeSlashes (c :: cs) = c :: escapeSlashes cs := by
  rw [escapeSlashes, if_neg h]

/-- Whatever is between slashes, the slashes in it are found again. -/
theorem unescapeSlashes_escapeSlashes (cs : List Char) : unescapeSlashes (escapeSlashes cs) = cs := by
  induction cs with
  | nil => rfl
  | cons c cs ih =>
    by_cases hc : c = '/'
    · subst hc
      rw [escapeSlashes, if_pos rfl, unescapeSlashes, ih]
    · have hhead : (escapeSlashes cs).head? ≠ some '/' := by
        cases cs with
        | nil => simp [escapeSlashes]
        | cons d ds =>
          rw [escapeSlashes]
          split
          · simp
          · simpa
      rw [escapeSlashes_cons hc, unescapeSlashes_cons fun _ => hhead, ih]

/-- The delimiter does not start a body. -/
theorem LiteralBody.head_ne {close : Char} {body : List Char} (h : LiteralBody close body)
    (hb : close ≠ '\\') : body.head? ≠ some close := by
  cases h with
  | nil => simp
  | plain _ _ hc _ => simpa using hc
  | hidden _ _ => simpa using hb.symm

theorem LiteralBody.escapeSlashes_unescapeSlashes {body : List Char} (h : LiteralBody '/' body) :
    escapeSlashes (unescapeSlashes body) = body := by
  induction h with
  | nil => rfl
  | plain _ hslash hc _ ih =>
    rw [unescapeSlashes_cons fun h => absurd h hslash, escapeSlashes_cons hc, ih]
  | @hidden d cs _ hcs ih =>
    by_cases hd : d = '/'
    · subst hd
      rw [unescapeSlashes, escapeSlashes, if_pos rfl, ih]
    · -- a slash can only follow a backslash that hides it
      have hhead : cs.head? ≠ some '/' := hcs.head_ne (by decide)
      rw [unescapeSlashes_cons fun _ => by simpa using hd, unescapeSlashes_cons fun _ => hhead,
        escapeSlashes_cons (by decide), escapeSlashes_cons hd, ih]

theorem betweenSlashes_regexText (body : List Char) : betweenSlashes (regexText body) = body := by
  simp [betweenSlashes, regexText]

namespace RegexBody

variable {body : List Char}

theorem text_regexValue (h : RegexBody body) :
    (Literal.regex (regexValue (String.ofList (regexText body)))).text =
      String.ofList (regexText body) := by
  rw [Literal.text, regexValue, String.toList_ofList, String.toList_ofList, betweenSlashes_regexText,
    h.literal.escapeSlashes_unescapeSlashes, regexText]

/-! ## The token of a body -/

theorem scan_false (h : RegexBody body) (rest : List Char) :
    Lexeme.scan false '/' (body ++ '/' :: rest) = ⟨.regexLit, regexText body, rest, []⟩ := by
  have hhead : (body ++ '/' :: rest).head? = body.head? := by
    rw [List.head?_append_of_ne_nil _ h.ne_nil]
  rw [Lexeme.scan_false_slash (by rw [hhead]; exact h.literal.head_ne (by decide))
    (by rw [hhead]; exact h.head_ne), Lexeme.regex, h.literal.delimited_eq rfl (by decide)]
  rfl

end RegexBody

/-! ## Tokens of regular expressions -/

theorem Lexeme.exists_regexBody_scan (afterOperand : Bool) (c : Char) (cs : List Char)
    (hk : (scan afterOperand c cs).kind = .regexLit) :
    ∃ body, RegexBody body ∧ (scan afterOperand c cs).text = regexText body := by
  have hs := scanned_scan afterOperand c cs
  generalize scan afterOperand c cs = x at hs hk ⊢
  cases hs with
  | regex _ _ hline hblock _ =>
    rw [regex] at hk ⊢
    by_cases hclosed : (delimited '/' cs).closed = true
    · obtain ⟨body, hbody, hd⟩ := exists_literalBody_of_closed hclosed
      have hcs := append_delimited '/' cs
      rw [hd, List.append_assoc] at hcs
      have hne : body ≠ [] := by
        rintro rfl
        exact hline (by rw [← hcs]; rfl)
      refine ⟨body, ⟨hbody, hne, fun hhead => hblock ?_⟩, ?_⟩
      · rw [← hcs, List.head?_append_of_ne_nil _ hne, hhead]
      · simp [hclosed, hd, regexText]
    · simp [hclosed] at hk
  | blank | lineComment | symbol | dollar | unexpected => cases hk
  | blockComment =>
    unfold blockComment at hk
    split at hk <;> cases hk
  | string =>
    unfold string at hk
    dsimp only at hk
    split at hk <;> cases hk
  | number =>
    unfold number at hk
    dsimp only at hk
    split at hk <;> cases hk
  | word =>
    have hkind : wordKind (String.ofList ((c :: cs).takeWhile isWordPart)) = .regexLit := hk
    rcases isKeyword_or_isWord_wordKind (String.ofList ((c :: cs).takeWhile isWordPart)) with hw | hw
    · rw [hkind] at hw
      cases hw
    · rw [hkind] at hw
      cases hw

theorem exists_regexBody_of_mem_tokenize {text : String} {t : Token} (ht : t ∈ (tokenize text).1)
    (hk : t.kind = .regexLit) : ∃ body, RegexBody body ∧ t.text = String.ofList (regexText body) := by
  suffices ∀ s ∈ (Lexer.ofText text).steps, s.token.kind = .regexLit →
      ∃ body, RegexBody body ∧ s.token.text = String.ofList (regexText body) by
    obtain ⟨s, hs, rfl⟩ := List.mem_map.1 ht
    exact this s hs hk
  refine Lexer.forall_mem_steps (I := fun _ => True) (fun _ _ => trivial) (fun l _ => ?_) trivial
  cases hr : l.rest with
  | nil =>
    rw [Lexer.next_of_rest_eq_nil hr]
    nofun
  | cons c cs =>
    rw [Lexer.next_of_rest_eq_cons hr]
    intro hk
    obtain ⟨body, hbody, htext⟩ := Lexeme.exists_regexBody_scan l.afterOperand c cs hk
    exact ⟨body, hbody, congrArg String.ofList htext⟩

/-- **Regular expressions are written as they were.** What a token of a regular expression stands for is
written as the text of the token. At the start of any text that is cut off as this token, so alone it is one
token without a fault. -/
theorem regexLit_written_back (text : String) (t : Token) (ht : t ∈ (tokenize text).1)
    (hk : t.kind = .regexLit) :
    (Literal.regex (regexValue t.text)).text = t.text ∧
      tokenize (Literal.regex (regexValue t.text)).text =
        ([⟨.regexLit, t.text, 0, t.text.length⟩, Token.atEnd t.text.length], []) ∧
      ∀ rest : String, (tokenize ((Literal.regex (regexValue t.text)).text ++ rest)).1.head? =
        some ⟨.regexLit, t.text, 0, t.text.length⟩ := by
  obtain ⟨body, hbody, htext⟩ := exists_regexBody_of_mem_tokenize ht hk
  have hback : (Literal.regex (regexValue t.text)).text = t.text := by
    rw [htext, hbody.text_regexValue]
  have hchars : t.text.toList = '/' :: (body ++ ['/']) := by
    rw [htext, String.toList_ofList, regexText]
  rw [hback]
  refine ⟨rfl, tokenize_of_scan hchars (hbody.scan_false []), fun rest => ?_⟩
  have hrest : (Lexer.ofText (t.text ++ rest)).rest = '/' :: (body ++ '/' :: rest.toList) := by
    simp [Lexer.ofText, hchars]
  have hnext := Lexer.next_of_rest_eq_cons hrest
  rw [show (Lexer.ofText (t.text ++ rest)).afterOperand = false from rfl, hbody.scan_false] at hnext
  rw [show (tokenize (t.text ++ rest)).1 = (Lexer.ofText (t.text ++ rest)).tokens from rfl,
    Lexer.tokens_eq, hnext, List.head?_cons]
  simp [Lexer.stepOver, Lexer.ofText, ← String.length_toList, ← hchars, regexText]

/-- Before the slash inside stand three backslashes, and two before the slash that ends it. -/
theorem regexLit_written_back_backslashes :
    (⟨.regexLit, "/a\\\\\\/b\\\\/", 5, 15⟩ : Token) ∈ (tokenize "x =~ /a\\\\\\/b\\\\/ / y").1 ∧
      regexValue "/a\\\\\\/b\\\\/" = "a\\\\/b\\\\" ∧
      (Literal.regex "a\\\\/b\\\\").text = "/a\\\\\\/b\\\\/" ∧
      tokenize "/a\\\\\\/b\\\\/" =
        ([⟨.regexLit, "/a\\\\\\/b\\\\/", 0, 10⟩, Token.atEnd 10], []) := by
  have hmem : (⟨.regexLit, "/a\\\\\\/b\\\\/", 5, 15⟩ : Token) ∈
      (tokenize "x =~ /a\\\\\\/b\\\\/ / y").1 := by decide +kernel
  have hvalue : regexValue "/a\\\\\\/b\\\\/" = "a\\\\/b\\\\" := by decide +kernel
  obtain ⟨hback, htokens, -⟩ := regexLit_written_back _ _ hmem rfl
  rw [hback] at htokens
  exact ⟨hmem, hvalue, hvalue ▸ hback, htokens⟩

end SchemaLang
