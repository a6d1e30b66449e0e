import SchemaLang.Proofs.Literals
import SchemaLang.Proofs.Written.Stream

/-!
# Strings as string literals

* `StandsFor quote c ds`: in a literal between `quote`s, the characters `ds` stand for `c`. They are an
  escape of one letter, or `c` itself.
* `Text.escaped quote c`: a character for a literal between `quote`s. A backslash, the quote and the two
  characters that end a line have a backslash before them, all others are as they are.
* `Text.literal quote s`: a string, escaped in this way and between quotes.

What stands for a character is neither cut by the scan of the literal nor changed by the decoding of its
escapes, so both go over a body of such pieces one piece at a time.

Main statements: such a body is decoded into its characters without a fault (`unescape_flatMap`), so every
string has a literal of its own between either quotes (`tokenize_literal`).
-/

set_option autoImplicit false

namespace SchemaLang

/-! ## Pieces of a literal -/

inductive StandsFor (quote c : Char) : List Char → Prop where
  | letter {k : Char} : simpleEscape? k = some c → isNewline k = false → StandsFor quote c ['\\', k]
  | plain : isNewline c = false → c ≠ '\\' → c ≠ quote → StandsFor quote c [c]

theorem LiteralBody.append {close : Char} {as bs : List Char} (ha : LiteralBody close as)
    (hb : LiteralBody close bs) : LiteralBody close (as ++ bs) := by
  induction ha with
  | nil => exact hb
  | plain hn hs hc _ ih => exact .plain hn hs hc ih
  | hidden hn _ ih => exact .hidden hn ih

namespace StandsFor

variable {quote c : Char} {ds : List Char}

theorem literalBody (h : StandsFor quote c ds) : LiteralBody quote ds := by
  cases h with
  | letter _ hn => exact .hidden hn .nil
  | plain hn hb hq => exact .plain hn hb hq .nil

theorem unescapeFrom (h : StandsFor quote c ds) (offset : Nat) (cs : List Char) : ∃ offset',
    SchemaLang.unescapeFrom 0 offset (ds ++ cs) =
      (SchemaLang.unescapeFrom 0 offset' cs).prepend [c] := by
  cases h with
  | @letter k hk _ => exact ⟨offset + 1 + 1, by simp [SchemaLang.unescapeFrom, decodeEscape, hk]⟩
  | plain _ hb _ => exact ⟨offset + 1, unescapeFrom_cons_of_ne hb⟩

end StandsFor

section

variable {quote : Char} {f : Char → List Char} {cs : List Char}

theorem literalBody_flatMap (h : ∀ c ∈ cs, StandsFor quote c (f c)) :
    LiteralBody quote (cs.flatMap f) := by
  induction cs with
  | nil => exact .nil
  | cons c cs ih =>
    rw [List.forall_mem_cons] at h
    rw [List.flatMap_cons]
    exact h.1.literalBody.append (ih h.2)

/-- A body is decoded piece by piece. -/
theorem unescape_flatMap (h : ∀ c ∈ cs, StandsFor quote c (f c)) :
    unescape (cs.flatMap f) = ⟨cs, []⟩ := by
  suffices ∀ offset, unescapeFrom 0 offset (cs.flatMap f) = ⟨cs, []⟩ from this 0
  induction cs with
  | nil => exact fun _ => rfl
  | cons c cs ih =>
    intro offset
    rw [List.forall_mem_cons] at h
    obtain ⟨offset', hc⟩ := h.1.unescapeFrom offset (cs.flatMap f)
    rw [List.flatMap_cons, hc, ih h.2, Unescaped.prepend, List.singleton_append]

end

/-! ## Literals -/

/-- Between quotes a body ends at the closing one. -/
theorem Lexeme.scan_string {afterOperand : Bool} {quote : Char} {body rest : List Char}
    (hquote : quote = '"' ∨ quote = '\'') (h : LiteralBody quote body) :
    scan afterOperand quote (body ++ quote :: rest) =
      ⟨.stringLit, quote :: (body ++ [quote]), rest, escapeFaults body⟩ := by
  have hsymbol : Symbol.leading? (quote :: (body ++ quote :: rest)) = none :=
    Symbol.leading?_eq_none fun s => by rcases hquote with rfl | rfl <;> cases s <;> decide
  have hspace : isSpace quote = false := by rcases hquote with rfl | rfl <;> decide
  have hslash : quote ≠ '/' := by rcases hquote with rfl | rfl <;> decide
  have hclosed := h.delimited_eq (by rcases hquote with rfl | rfl <;> rfl)
    (by rcases hquote with rfl | rfl <;> decide) rest
  simp [scan, hspace, hslash, hsymbol, hquote, string, hclosed]

namespace Text

def escaped (quote c : Char) : List Char :=
  if c = '\n' then ['\\', 'n']
  else if c = '\r' then ['\\', 'r']
  else if c = '\\' ∨ c = quote then ['\\', c]
  else [c]

def literal (quote : Char) (s : String) : String :=
  String.ofList (quote :: (s.toList.flatMap (escaped quote) ++ [quote]))

theorem toList_literal (quote : Char) (s : String) :
    (literal quote s).toList = quote :: (s.toList.flatMap (escaped quote) ++ [quote]) := by
  rw [literal, String.toList_ofList]

theorem standsFor_escaped {quote : Char} (hquote : quote = '"' ∨ quote = '\'') (c : Char) :
    StandsFor quote c (escaped quote c) := by
  unfold escaped
  split
  · rename_i hc
    exact .letter (by rw [hc]; rfl) rfl
  rename_i hn
  split
  · rename_i hc
    exact .letter (by rw [hc]; rfl) rfl
  rename_i hr
  have hline : isNewline c = false := by simp [isNewline, hn, hr]
  split
  · rename_i hc
    refine .letter ?_ hline
    rcases hc with rfl | rfl
    · rfl
    · rcases hquote with rfl | rfl <;> rfl
  · rename_i hc
    rw [not_or] at hc
    exact .plain hline hc.1 hc.2

end Text

theorem stringValue_literal {quote : Char} (hquote : quote = '"' ∨ quote = '\'') (s : String) :
    stringValue (Text.literal quote s) = s := by
  have hbody := unescape_flatMap fun c (_ : c ∈ s.toList) => Text.standsFor_escaped hquote c
  rw [stringValue, Text.toList_literal, inner, List.drop_one, List.tail_cons, List.dropLast_concat, hbody,
    String.ofList_toList]

/-- A text that is cut off whole is one token. -/
theorem tokenize_of_scan {text : String} {c : Char} {cs : List Char} {kind : TokenKind}
    (htext : text.toList = c :: cs) (hscan : Lexeme.scan false c cs = ⟨kind, c :: cs, [], []⟩) :
    tokenize text = ([⟨kind, text, 0, text.length⟩, Token.atEnd text.length], []) := by
  have hrest : (Lexer.ofText text).rest = c :: cs := htext
  have hnext := Lexer.next_of_rest_eq_cons hrest
  rw [show (Lexer.ofText text).afterOperand = false from rfl, hscan] at hnext
  have hlength : (c :: cs).length = text.length := by rw [← htext, String.length_toList]
  have hword : String.ofList (c :: cs) = text := by rw [← htext, String.ofList_toList]
  have hend : (Lexer.ofText text).next.lexer.rest = [] := by rw [hnext]; rfl
  rw [tokenize, Lexer.steps_of_rest_ne_nil (by rw [hrest]; simp), Lexer.steps, dif_pos hend,
    Lexer.next_of_rest_eq_nil hend, hnext]
  simp [Lexer.stepOver, Lexer.ofText, hword, ← hlength]

/-- **Every string can be written and is read back.** Between either quotes, the literal of a string is one
token without a fault, and it stands for the string. So what a literal of any text stands for can be written
as a literal again. -/
theorem tokenize_literal (quote : Char) (hquote : quote = '"' ∨ quote = '\'') :
    (∀ s : String,
      tokenize (Text.literal quote s) =
          ([⟨.stringLit, Text.literal quote s, 0, (Text.literal quote s).length⟩,
            Token.atEnd (Text.literal quote s).length], []) ∧
        stringValue (Text.literal quote s) = s) ∧
      ∀ text : String, ∀ t ∈ (tokenize text).1, t.kind = .stringLit →
        ∃ again, tokenize (Text.literal quote (stringValue t.text)) =
            ([again, Token.atEnd again.stop], []) ∧
          again.kind = .stringLit ∧ stringValue again.text = stringValue t.text := by
  have hall (s : String) : tokenize (Text.literal quote s) =
      ([⟨.stringLit, Text.literal quote s, 0, (Text.literal quote s).length⟩,
        Token.atEnd (Text.literal quote s).length], []) := by
    have hstands := fun c (_ : c ∈ s.toList) => Text.standsFor_escaped hquote c
    refine tokenize_of_scan (Text.toList_literal quote s) ?_
    rw [Lexeme.scan_string hquote (literalBody_flatMap hstands), Lexeme.escapeFaults,
      unescape_flatMap hstands]
    rfl
  refine ⟨fun s => ⟨hall s, stringValue_literal hquote s⟩, fun text t _ _ => ?_⟩
  exact ⟨_, hall (stringValue t.text), rfl, stringValue_literal hquote _⟩

/-- A string with a backslash, both quotes and both line ends, and a literal with an escape that the encoding
does not use. -/
theorem tokenize_literal_single :
    (tokenize (Text.literal '\'' "\\x41'\"\r\n")).1.map (fun t => (t.kind, t.text)) =
        [(.stringLit, "'\\\\x41\\'\"\\r\\n'"), (.endOfText, "")] ∧
      stringValue (Text.literal '\'' "\\x41'\"\r\n") = "\\x41'\"\r\n" ∧
      ∃ t ∈ (tokenize "\"\\x41\\t'\"").1, t.kind = .stringLit ∧ stringValue t.text = "A\t'" ∧
        ∃ again, tokenize (Text.literal '\'' (stringValue t.text)) =
            ([again, Token.atEnd again.stop], []) ∧ stringValue again.text = stringValue t.text := by
  obtain ⟨hwritten, hagain⟩ := tokenize_literal '\'' (.inr rfl)
  have hmem : (⟨.stringLit, "\"\\x41\\t'\"", 0, 9⟩ : Token) ∈ (tokenize "\"\\x41\\t'\"").1 := by
    decide +kernel
  obtain ⟨again, htokens, -, hvalue⟩ := hagain _ _ hmem rfl
  obtain ⟨htokenize, hback⟩ := hwritten "\\x41'\"\r\n"
  have htext : Text.literal '\'' "\\x41'\"\r\n" = "'\\\\x41\\'\"\\r\\n'" := by decide +kernel
  refine ⟨?_, hback, _, hmem, rfl, by decide +kernel, again, htokens, hvalue⟩
  rw [htokenize, htext]
  rfl

end SchemaLang
