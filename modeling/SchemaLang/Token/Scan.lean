import SchemaLang.Text.Blank
import SchemaLang.Token.Basic
import SchemaLang.Token.Escape

/-!
# One lexeme at a time

`scan` cuts one lexeme off a text that is not empty. Each kind of lexeme has a function that splits
the text behind its first characters:

* `untilLineEnd` for `//` comments, `untilCommentEnd?` for block comments;
* `delimited` for strings and regular expressions;
* `numberTail` for the fraction and the exponent of a number.

Main statements: a lexeme and its rest make up the text (`Lexeme.splits_scan`), and no lexeme is
empty (`Lexeme.text_scan_ne_nil`), so what is left is shorter (`Lexeme.length_rest_scan`).
-/

set_option autoImplicit false

namespace SchemaLang

/-- Blanks, and the mark that may open a file. -/
def isSpace (c : Char) : Bool := Text.isBlank c || c.toNat == 0xFEFF

/-- A word may go on with a letter, a digit or an underscore, all ASCII. -/
def isWordPart (c : Char) : Bool := c.isAlphanum || c == '_'

def isNewline (c : Char) : Bool := c == '\n' || c == '\r'

/-- A split before the first line end. -/
def untilLineEnd : List Char → List Char × List Char
  | [] => ([], [])
  | c :: cs =>
    if c = '\n' ∨ (c = '\r' ∧ cs.head? = some '\n') then ([], c :: cs)
    else ((c :: (untilLineEnd cs).1), (untilLineEnd cs).2)

/-- A split behind the first `*/`. -/
def untilCommentEnd? : List Char → Option (List Char × List Char)
  | '*' :: '/' :: cs => some (['*', '/'], cs)
  | c :: cs => (untilCommentEnd? cs).map fun r => (c :: r.1, r.2)
  | [] => none

/-- A stretch that may be closed. -/
structure Delimited where
  text : List Char
  rest : List Char
  closed : Bool

def Delimited.prepend (cs : List Char) (d : Delimited) : Delimited := ⟨cs ++ d.text, d.rest, d.closed⟩

/-- A split behind the first `close` that no backslash precedes. A line end or the end of the text
leaves it open; a backslash hides any other character. -/
def delimited (close : Char) : List Char → Delimited
  | [] => ⟨[], [], false⟩
  | c :: cs =>
    if isNewline c then ⟨[], c :: cs, false⟩
    else if c = '\\' then
      match cs with
      | [] => ⟨[c], [], false⟩
      | d :: ds => if isNewline d then ⟨[c], d :: ds, false⟩ else (delimited close ds).prepend [c, d]
    else if c = close then ⟨[c], cs, true⟩
    else (delimited close cs).prepend [c]

/-- A point and digits at the start, else nothing. -/
def fractionPart (cs : List Char) : List Char :=
  match cs with
  | '.' :: r => if (r.takeWhile Char.isDigit).isEmpty then [] else '.' :: r.takeWhile Char.isDigit
  | _ => []

/-- An `e`, perhaps a sign, and digits at the start, else nothing. -/
def exponentPart (cs : List Char) : List Char :=
  match cs with
  | e :: r =>
    if e = 'e' ∨ e = 'E' then
      let sign := r.takeWhile fun c => c == '+' || c == '-'
      let ds := (r.drop sign.length).takeWhile Char.isDigit
      if ds.isEmpty || 1 < sign.length then [] else e :: (sign ++ ds)
    else []
  | [] => []

/-- A cut-off lexeme. Faults count from its start. -/
structure Lexeme where
  kind : TokenKind
  text : List Char
  rest : List Char
  faults : List Fault

namespace Lexeme

/-- The longest start of the text that satisfies `p`, behind `head`. -/
def whileTrue (kind : TokenKind) (head : List Char) (p : Char → Bool) (cs : List Char) : Lexeme :=
  ⟨kind, head ++ cs.takeWhile p, cs.dropWhile p, []⟩

def lineComment (cs : List Char) : Lexeme :=
  ⟨.lineComment, (untilLineEnd cs).1, (untilLineEnd cs).2, []⟩

/-- A block comment behind its opening; an open one takes the rest of the text. -/
def blockComment (cs : List Char) : Lexeme :=
  match untilCommentEnd? cs with
  | some (body, rest) => ⟨.docComment, '/' :: '*' :: body, rest, []⟩
  | none => ⟨.invalid, '/' :: '*' :: cs, [], [⟨.unterminatedComment, 0, cs.length + 2⟩]⟩

def regex (cs : List Char) : Lexeme :=
  let d := delimited '/' cs
  let text := '/' :: d.text
  if d.closed then ⟨.regexLit, text, d.rest, []⟩
  else ⟨.invalid, text, d.rest, [⟨.unterminatedRegex, 0, text.length⟩]⟩

/-- The body starts behind the opening quote. -/
def escapeFaults (body : List Char) : List Fault :=
  (unescape body).bad.map fun b =>
    ⟨.invalidEscape b.sequence, 1 + b.offset, 1 + b.offset + b.length⟩

def string (quote : Char) (cs : List Char) : Lexeme :=
  let d := delimited quote cs
  let text := quote :: d.text
  if d.closed then ⟨.stringLit, text, d.rest, escapeFaults d.text.dropLast⟩
  else ⟨.invalid, text, d.rest, [⟨.unterminatedString, 0, text.length⟩]⟩

def number (cs : List Char) : Lexeme :=
  let whole := cs.takeWhile Char.isDigit
  let rest := cs.dropWhile Char.isDigit
  let fraction := fractionPart rest
  let exponent := exponentPart (rest.drop fraction.length)
  let tail := fraction ++ exponent
  ⟨if tail.isEmpty then .integerLit else .floatLit, whole ++ tail, rest.drop tail.length, []⟩

def word (cs : List Char) : Lexeme :=
  let text := cs.takeWhile isWordPart
  ⟨wordKind (String.ofList text), text, cs.dropWhile isWordPart, []⟩

def unexpected (c : Char) (cs : List Char) : Lexeme :=
  ⟨.invalid, [c], cs, [⟨.unexpectedCharacter c, 0, 1⟩]⟩

/-- The lexeme at the start of `c :: cs`. Behind an operand a slash is a sign of its own. -/
def scan (afterOperand : Bool) (c : Char) (cs : List Char) : Lexeme :=
  if isSpace c then whileTrue .blank [c] isSpace cs
  else if c = '/' ∧ cs.head? = some '/' then lineComment (c :: cs)
  else if c = '/' ∧ cs.head? = some '*' then blockComment (cs.drop 1)
  else if c = '/' ∧ afterOperand = false then regex cs
  else match Symbol.leading? (c :: cs) with
  | some s => ⟨.symbol s, s.chars, (c :: cs).drop s.chars.length, []⟩
  | none =>
    if c = '"' ∨ c = '\'' then string c cs
    else if c.isDigit then number (c :: cs)
    else if c = '$' ∧ (cs.head?.any isWordPart) then whileTrue .varWord [c] isWordPart cs
    else if c.isAlpha then word (c :: cs)
    else unexpected c cs

end Lexeme

theorem append_untilLineEnd (cs : List Char) : (untilLineEnd cs).1 ++ (untilLineEnd cs).2 = cs := by
  induction cs with
  | nil => rfl
  | cons c cs ih =>
    unfold untilLineEnd
    split
    · rfl
    · simpa using ih

theorem append_untilCommentEnd {cs body rest : List Char}
    (h : untilCommentEnd? cs = some (body, rest)) : body ++ rest = cs := by
  fun_induction untilCommentEnd? cs generalizing body with
  | case1 => cases h; rfl
  | case2 c cs _ ih =>
    obtain ⟨⟨b, r⟩, hr, he⟩ := Option.map_eq_some_iff.1 h
    cases he
    simpa using ih hr
  | case3 => cases h

theorem append_delimited (close : Char) (cs : List Char) :
    (delimited close cs).text ++ (delimited close cs).rest = cs := by
  fun_induction delimited close cs <;> simp_all [Delimited.prepend]

/-- A closed stretch ends in its closing character. -/
theorem getLast?_delimited {close : Char} {cs : List Char} (h : (delimited close cs).closed = true) :
    (delimited close cs).text.getLast? = some close := by
  fun_induction delimited close cs <;> simp_all [Delimited.prepend, List.getLast?_cons]

theorem takeWhile_isPrefix {α : Type} (p : α → Bool) (l : List α) : l.takeWhile p <+: l :=
  ⟨l.dropWhile p, List.takeWhile_append_dropWhile⟩

theorem fractionPart_isPrefix (cs : List Char) : fractionPart cs <+: cs := by
  unfold fractionPart
  split
  · split
    · exact List.nil_prefix
    · exact (List.prefix_cons_inj _).2 (takeWhile_isPrefix _ _)
  · exact List.nil_prefix

theorem exponentPart_isPrefix (cs : List Char) : exponentPart cs <+: cs := by
  unfold exponentPart
  split
  · rename_i e r
    split
    · dsimp only
      split
      · exact List.nil_prefix
      · refine (List.prefix_cons_inj _).2 ?_
        obtain ⟨t, ht⟩ := takeWhile_isPrefix (fun c => c == '+' || c == '-') r
        have hd := congrArg (List.drop (r.takeWhile fun c => c == '+' || c == '-').length) ht
        rw [List.drop_left] at hd
        rw [← hd]
        obtain ⟨u, hu⟩ := takeWhile_isPrefix Char.isDigit t
        exact ⟨u, by rw [List.append_assoc, hu, ht]⟩
    · exact List.nil_prefix
  · exact List.nil_prefix

theorem append_drop_of_isPrefix {α : Type} {a l : List α} (h : a <+: l) :
    a ++ l.drop a.length = l := by
  obtain ⟨t, rfl⟩ := h
  simp

namespace Lexeme

/-- A lexeme and its rest make up the text. -/
def Splits (x : Lexeme) (cs : List Char) : Prop := x.text ++ x.rest = cs

theorem splits_whileTrue (kind : TokenKind) (head : List Char) (p : Char → Bool) (cs : List Char) :
    (whileTrue kind head p cs).Splits (head ++ cs) := by
  simp [Splits, whileTrue, List.takeWhile_append_dropWhile]

theorem splits_blockComment (cs : List Char) : (blockComment cs).Splits ('/' :: '*' :: cs) := by
  unfold blockComment
  split
  · rename_i h
    simp [Splits, append_untilCommentEnd h]
  · simp [Splits]

theorem splits_regex (cs : List Char) : (regex cs).Splits ('/' :: cs) := by
  unfold regex
  dsimp only
  split <;> simp [Splits, append_delimited]

theorem splits_string (quote : Char) (cs : List Char) : (string quote cs).Splits (quote :: cs) := by
  unfold string
  dsimp only
  split <;> simp [Splits, append_delimited]

theorem splits_number (cs : List Char) : (number cs).Splits cs := by
  have hf := append_drop_of_isPrefix (fractionPart_isPrefix (cs.dropWhile Char.isDigit))
  have he := append_drop_of_isPrefix (exponentPart_isPrefix
    ((cs.dropWhile Char.isDigit).drop (fractionPart (cs.dropWhile Char.isDigit)).length))
  simp only [List.drop_drop] at he
  simp only [Splits, number, List.length_append, List.append_assoc]
  rw [he, hf, List.takeWhile_append_dropWhile]

theorem splits_word (cs : List Char) : (word cs).Splits cs := by
  simp [Splits, word, List.takeWhile_append_dropWhile]

/-- Cutting off a lexeme loses nothing. -/
theorem splits_scan (afterOperand : Bool) (c : Char) (cs : List Char) :
    (scan afterOperand c cs).Splits (c :: cs) := by
  unfold scan
  split
  · exact splits_whileTrue ..
  split
  · exact append_untilLineEnd _
  split
  · rename_i h
    obtain ⟨rfl, hh⟩ := h
    cases cs with
    | nil => simp at hh
    | cons d cs =>
      obtain rfl : d = '*' := by simpa using hh
      exact splits_blockComment cs
  split
  · rename_i h
    obtain ⟨rfl, _⟩ := h
    exact splits_regex cs
  split
  · rename_i h
    exact (Symbol.chars_of_leading? h).symm
  split
  · exact splits_string ..
  split
  · exact splits_number _
  split
  · exact splits_whileTrue ..
  split
  · exact splits_word _
  · simp [Splits, unexpected]

/-- No lexeme is empty. -/
theorem text_scan_ne_nil (afterOperand : Bool) (c : Char) (cs : List Char) :
    (scan afterOperand c cs).text ≠ [] := by
  unfold scan
  split
  · simp [whileTrue]
  split
  · rename_i h
    obtain ⟨rfl, _⟩ := h
    simp [lineComment, untilLineEnd]
  split
  · unfold blockComment; split <;> simp
  split
  · unfold regex; dsimp only; split <;> simp
  split
  · rename_i s _
    cases s <;> simp [Symbol.chars]
  split
  · unfold string; dsimp only; split <;> simp
  split
  · rename_i h
    simp [number, h]
  split
  · simp [whileTrue]
  split
  · rename_i h
    simp [word, isWordPart, Char.isAlphanum, h]
  · simp [unexpected]

/-- What is left is shorter. -/
theorem length_rest_scan (afterOperand : Bool) (c : Char) (cs : List Char) :
    (scan afterOperand c cs).rest.length < (c :: cs).length := by
  have hs := congrArg List.length (splits_scan afterOperand c cs)
  have ht := List.length_pos_iff.2 (text_scan_ne_nil afterOperand c cs)
  rw [List.length_append] at hs
  omega

end Lexeme

end SchemaLang
