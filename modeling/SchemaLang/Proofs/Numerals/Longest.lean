import SchemaLang.Grammar.Datatype
import SchemaLang.Proofs.Tiling
import SchemaLang.Proofs.Written.Numbers

/-!
# Numbers are cut off whole

* `WrittenNumber`: digits, perhaps with a point and digits, perhaps with an `e`, a sign and digits.
* `WrittenNumber.IsLongest n cs`: the text `cs` starts with the number `n` and with no longer one.
* `Token.IsLongestNumber text t n`: the token is the longest number at its place in the text.

A point is taken only with a digit behind it, and an `e` only with a digit behind it and its sign. So the
scanner never takes what it would have to give back, and whatever a number may go on with, it takes.

Main statements: a lexer that meets a digit cuts off the longest number there
(`Lexer.Reads.exists_isLongestNumber`), and all numbers of a text are cut off so
(`exists_isLongestNumber_of_mem_tokenize`).
-/

set_option autoImplicit false

namespace SchemaLang

structure WrittenNumber where
  whole : List Char
  fraction : List Char
  exponent : List Char
  isDigits_whole : IsDigits whole
  isFraction : Fraction fraction
  isExponent : Exponent exponent

namespace WrittenNumber

def text (n : WrittenNumber) : List Char := n.whole ++ (n.fraction ++ n.exponent)

/-- Digits alone are an integer. -/
def kind (n : WrittenNumber) : TokenKind :=
  if n.fraction = [] ∧ n.exponent = [] then .integerLit else .floatLit

structure IsLongest (n : WrittenNumber) (cs : List Char) : Prop where
  isPrefix : n.text <+: cs
  length_le : ∀ m : WrittenNumber, m.text <+: cs → m.text.length ≤ n.text.length

theorem text_of_kind {n : WrittenNumber} (h : n.kind = .integerLit) : n.text = n.whole := by
  unfold kind at h
  split at h
  · rename_i hnil
    rw [text, hnil.1, hnil.2, List.append_nil, List.append_nil]
  · cases h

end WrittenNumber

structure Token.IsLongestNumber (text : String) (t : Token) (n : WrittenNumber) : Prop where
  isLongest : n.IsLongest (text.toList.drop t.start)
  kind_eq : t.kind = n.kind
  text_eq : t.text = String.ofList n.text
  stop_eq : t.stop = t.start + n.text.length

/-! ## The parts of a number -/

section

variable {fraction exponent : List Char}

theorem Fraction.length_le (h : Fraction fraction) (rest : List Char) :
    fraction.length ≤ (fractionPart (fraction ++ rest)).length := by
  cases h with
  | none => exact Nat.zero_le _
  | point hds => simp [fractionPart, List.takeWhile_append_of_pos hds.2, hds.1]

theorem Exponent.length_le (h : Exponent exponent) (rest : List Char) :
    exponent.length ≤ (exponentPart (exponent ++ rest)).length := by
  cases h with
  | none => exact Nat.zero_le _
  | mark he hsign hlen hds =>
    rw [List.cons_append, List.append_assoc, exponentPart_mark he hsign hlen hds]
    simp

/-- A fraction and an exponent are cut off with all that goes on with them. -/
theorem Exponent.length_le_parts (he : Exponent exponent) (hf : Fraction fraction) (rest : List Char) :
    let behind := fraction ++ (exponent ++ rest)
    (fraction ++ exponent).length ≤
      (fractionPart behind ++ exponentPart (behind.drop (fractionPart behind).length)).length := by
  intro behind
  rw [List.length_append, List.length_append]
  have hfraction : fraction.length ≤ (fractionPart behind).length := hf.length_le _
  cases hexponent : exponent with
  | nil =>
    simp only [List.length_nil]
    omega
  | cons e es =>
    -- the mark of the exponent ends the fraction
    have hmark : e = 'e' ∨ e = 'E' := by
      rw [hexponent] at he
      cases he with
      | mark hmark => exact hmark
    obtain ⟨hhead, hnone⟩ := before_mark hmark (es ++ rest)
    rw [← List.cons_append, ← hexponent] at hhead hnone
    have hfraction : fractionPart behind = fraction := hf.fractionPart_eq hhead hnone
    have hlen := he.length_le rest
    rw [hfraction, show behind.drop fraction.length = exponent ++ rest from List.drop_left, ← hexponent]
    omega

end

/-- The head of what stands behind the digits of a number, if anything does. -/
theorem Fraction.head_append {fraction exponent : List Char} (hf : Fraction fraction)
    (he : Exponent exponent) (hne : fraction ++ exponent ≠ []) (rest : List Char) :
    ∀ d ∈ (fraction ++ (exponent ++ rest)).head?, d.isDigit = false := by
  cases hf with
  | point =>
    intro d hd
    obtain rfl : '.' = d := Option.some.inj hd
    rfl
  | none =>
    cases he with
    | none => exact absurd rfl hne
    | mark he => exact (before_mark he _).1

/-! ## The scanner -/

namespace Lexeme

/-- The scanner cuts off all parts that a number at the start of the text has. -/
theorem length_text_le (m : WrittenNumber) (rest : List Char) :
    m.text.length ≤ (number (m.text ++ rest)).text.length := by
  obtain ⟨whole, fraction, exponent, hw, hf, he⟩ := m
  have hassoc : whole ++ (fraction ++ exponent) ++ rest = whole ++ (fraction ++ (exponent ++ rest)) := by
    simp only [List.append_assoc]
  unfold WrittenNumber.text number
  dsimp only
  rw [hassoc]
  by_cases hne : fraction ++ exponent = []
  · rw [hne, List.append_nil, List.takeWhile_append_of_pos hw.2]
    simp only [List.length_append]
    omega
  · obtain ⟨htake, hdrop⟩ := takeWhile_dropWhile_append hw.2 (hf.head_append he hne rest)
    rw [htake, hdrop, List.length_append, @List.length_append _ whole]
    exact Nat.add_le_add_left (he.length_le_parts hf rest) _

/-- What stands at a digit is cut off as the longest number there. -/
theorem exists_number_eq {c : Char} {cs : List Char} (hc : c.isDigit = true) :
    ∃ n : WrittenNumber, n.IsLongest (c :: cs) ∧
      number (c :: cs) = ⟨n.kind, n.text, (c :: cs).drop n.text.length, []⟩ := by
  let behind := (c :: cs).dropWhile Char.isDigit
  let n : WrittenNumber :=
    { whole := (c :: cs).takeWhile Char.isDigit
      fraction := fractionPart behind
      exponent := exponentPart (behind.drop (fractionPart behind).length)
      isDigits_whole := ⟨by simp [hc], List.all_eq_true.1 List.all_takeWhile⟩
      isFraction := fraction_fractionPart _
      isExponent := exponent_exponentPart _ }
  have hsplits : (number (c :: cs)).text ++ (number (c :: cs)).rest = c :: cs := by
    have hs := Lexeme.splits_scan false c cs
    rwa [scan_of_isDigit hc] at hs
  have htext : (number (c :: cs)).text = n.text := rfl
  refine ⟨n, ⟨⟨(number (c :: cs)).rest, hsplits⟩, ?_⟩, ?_⟩
  · intro m hm
    obtain ⟨rest, hrest⟩ := hm
    have hlen := length_text_le m rest
    rwa [hrest, htext] at hlen
  · have hrest : (number (c :: cs)).rest = (c :: cs).drop n.text.length := by
      conv_rhs => rw [← hsplits, htext, List.drop_left]
    have hkind : (number (c :: cs)).kind = n.kind := by
      show (if (n.fraction ++ n.exponent).isEmpty then _ else _) = _
      simp [WrittenNumber.kind]
    rw [← hrest, ← hkind]
    rfl

/-- Nothing but a digit starts a number. -/
theorem isDigit_of_isNumber_scan {afterOperand : Bool} {c : Char} {cs : List Char}
    (h : Rule.isNumber (scan afterOperand c cs).kind = true) : c.isDigit = true := by
  have hs := scanned_scan afterOperand c cs
  generalize scan afterOperand c cs = x at hs h
  cases hs with
  | number _ hc => exact hc
  | blank | lineComment | symbol | dollar | unexpected => cases h
  | blockComment =>
    unfold blockComment at h
    split at h <;> cases h
  | regex =>
    unfold regex at h
    dsimp only at h
    split at h <;> cases h
  | string =>
    unfold string at h
    dsimp only at h
    split at h <;> cases h
  | word =>
    change Rule.isNumber (wordKind (String.ofList ((c :: cs).takeWhile isWordPart))) = true at h
    have hword := isKeyword_or_isWord_wordKind (String.ofList ((c :: cs).takeWhile isWordPart))
    generalize wordKind _ = kind at h hword
    rcases hword with hk | hk
    · cases kind <;> cases hk <;> cases h
    · cases kind <;> cases hk <;> cases h

end Lexeme

/-! ## Lexers and token streams -/

namespace Lexer

variable {text : String} {l : Lexer}

theorem Reads.exists_isLongestNumber (h : l.Reads text) {c : Char} {cs : List Char}
    (hr : l.rest = c :: cs) (hc : c.isDigit = true) :
    ∃ n, l.next.token.start = l.offset ∧ l.next.token.IsLongestNumber text n ∧ l.next.faults = [] := by
  obtain ⟨n, hlongest, hnumber⟩ := @Lexeme.exists_number_eq c cs hc
  have hnext : l.next = l.stepOver ⟨n.kind, n.text, (c :: cs).drop n.text.length, []⟩ := by
    rw [next_of_rest_eq_cons hr, Lexeme.scan_of_isDigit hc, hnumber]
  rw [hnext]
  refine ⟨n, rfl, ⟨?_, rfl, rfl, rfl⟩, rfl⟩
  show n.IsLongest (text.toList.drop l.offset)
  rwa [← h.rest_eq, hr]

/-- A lexer has cut off a number only where it met a digit. -/
theorem exists_of_isNumber (hk : Rule.isNumber l.next.token.kind = true) :
    ∃ c cs, l.rest = c :: cs ∧ c.isDigit = true := by
  cases hr : l.rest with
  | nil =>
    rw [next_of_rest_eq_nil hr] at hk
    cases hk
  | cons c cs =>
    rw [next_of_rest_eq_cons hr] at hk
    exact ⟨c, cs, rfl, Lexeme.isDigit_of_isNumber_scan hk⟩

end Lexer

/-- Whatever number the stream has is the longest one at its place. -/
theorem exists_isLongestNumber_of_mem_tokenize {text : String} {t : Token} (ht : t ∈ (tokenize text).1)
    (hk : Rule.isNumber t.kind = true) : ∃ n, t.IsLongestNumber text n := by
  have hsteps : ∀ s ∈ (Lexer.ofText text).steps, Rule.isNumber s.token.kind = true →
      ∃ n, s.token.IsLongestNumber text n := by
    refine Lexer.forall_mem_steps (fun _ => Lexer.Reads.next) ?_ (Lexer.reads_ofText text)
    intro l hl hk
    obtain ⟨c, cs, hr, hc⟩ := Lexer.exists_of_isNumber hk
    obtain ⟨n, -, hn, -⟩ := hl.exists_isLongestNumber hr hc
    exact ⟨n, hn⟩
  obtain ⟨s, hs, rfl⟩ := List.mem_map.1 ht
  exact hsteps s hs hk

end SchemaLang
