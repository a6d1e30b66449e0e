import SchemaLang.Proofs.Written.Numbers
import SchemaLang.Proofs.Written.Strings

/-!
# Lexemes before another text

* `FaultCause.isUnterminated`: a literal or a comment is left open.
* `Lexeme.before x rest`: the lexeme `x`, with `rest` behind it.
* `AtLineEnd cs`: the text `cs` begins with a line end, or it is empty.

No symbol, word or number goes on with a blank, and what is closed ends at its own end. A run of blanks goes
on with blanks, and a comment up to the end of its line, so for these it counts how the text behind begins.

Main statements: before a blank a closed lexeme is cut off as it is anywhere (`Lexeme.scan_before_blank`), and
a hidden one before a text that begins as the one behind it does (`Lexeme.scan_hidden_before`).
-/

set_option autoImplicit false

namespace SchemaLang

/-- A literal or a comment is left open. -/
def FaultCause.isUnterminated : FaultCause → Bool
  | .unterminatedString | .unterminatedRegex | .unterminatedComment => true
  | .invalidEscape _ | .unexpectedCharacter _ => false

/-! ## Blanks behind a lexeme -/

theorem isWordPart_eq_false_of_isSpace {d : Char} (h : isSpace d = true) : isWordPart d = false := by
  have halpha : d.isAlpha = false := Bool.eq_false_iff.2 fun ha => by
    simp [isSpace_eq_false_of_isAlpha ha] at h
  have hdigit : d.isDigit = false := Bool.eq_false_iff.2 fun hd => by
    simp [isSpace_eq_false_of_isDigit hd] at h
  have hunder : d ≠ '_' := by
    rintro rfl
    revert h
    decide
  simp [isWordPart, Char.isAlphanum, halpha, hdigit, hunder]

theorem endsNumber_of_isSpace {d : Char} (h : isSpace d = true) : EndsNumber d := by
  refine ⟨isWordPart_eq_false_of_isSpace h, ?_⟩
  rintro rfl
  revert h
  decide

namespace Symbol

theorem isSpace_of_mem_chars (s : Symbol) : ∀ c ∈ s.chars, isSpace c = false := by
  have hall : s.chars.all (fun c => !isSpace c) = true := by cases s <;> decide
  intro c hc
  simpa using List.all_eq_true.1 hall c hc

theorem goesOn_eq_false_of_isSpace (s : Symbol) {d : Char} (h : isSpace d = true) :
    s.goesOn d = false := by
  rw [Bool.eq_false_iff]
  intro hgoes
  obtain ⟨t, -, ht⟩ := List.any_eq_true.1 hgoes
  have hmem : d ∈ t.chars := (List.isPrefixOf_iff_prefix.1 ht).subset (by simp)
  rw [t.isSpace_of_mem_chars d hmem] at h
  cases h

/-- Where no symbol begins, none does with a blank behind the first character. -/
theorem leading?_eq_none_before_blank {c : Char} {cs rest : List Char} (h : leading? (c :: cs) = none)
    (hr : ∀ d ∈ rest.head?, isSpace d = true) : leading? (c :: rest) = none := by
  cases hs : leading? (c :: rest) with
  | none => rfl
  | some s =>
    exfalso
    have hchars := chars_of_leading? hs
    have hall := s.isSpace_of_mem_chars
    cases hc : s.chars with
    | nil => cases s <;> simp [chars] at hc
    | cons d ds =>
      rw [hc] at hchars hall
      obtain ⟨rfl, hrest⟩ := List.cons.inj hchars
      cases ds with
      | nil =>
        have hfind := List.findSome?_eq_none_iff.1 h 1 (by simp)
        rw [List.find?_eq_none] at hfind
        exact hfind s (mem_all s) (by simp [hc])
      | cons e es =>
        have he : isSpace e = true := hr e (by rw [hrest]; rfl)
        rw [hall e (by simp)] at he
        cases he

end Symbol

/-! ## Visible lexemes -/

namespace Lexeme

variable {afterOperand : Bool} {c : Char} {cs ds rest : List Char}

/-- Nothing in the lexeme is left open. -/
def Closed (x : Lexeme) : Prop := ∀ f ∈ x.faults, f.cause.isUnterminated = false

theorem exists_text_eq_cons (afterOperand : Bool) (c : Char) (cs : List Char) :
    ∃ ds, (scan afterOperand c cs).text = c :: ds := by
  have hs : _ ++ _ = c :: cs := splits_scan afterOperand c cs
  obtain ⟨d, ds, hd⟩ := List.exists_cons_of_ne_nil (text_scan_ne_nil afterOperand c cs)
  rw [hd] at hs
  obtain ⟨rfl, -⟩ := List.cons.inj hs
  exact ⟨ds, hd⟩

/-- The same lexeme before another text. -/
def before (x : Lexeme) (rest : List Char) : Lexeme := ⟨x.kind, x.text, rest, x.faults⟩

theorem scan_of_leading? {s : Symbol} (hs : isSpace c = false)
    (hslash : c = '/' → cs.head? ≠ some '/' ∧ cs.head? ≠ some '*' ∧ afterOperand = true)
    (h : Symbol.leading? (c :: cs) = some s) :
    scan afterOperand c cs = ⟨.symbol s, s.chars, (c :: cs).drop s.chars.length, []⟩ := by
  by_cases hc : c = '/'
  · obtain ⟨hline, hblock, hafter⟩ := hslash hc
    simp [scan, hs, hline, hblock, hafter, h]
  · simp [scan, hs, hc, h]

theorem scan_symbol_before_blank {s : Symbol} (hs : isSpace c = false)
    (hslash : c = '/' → afterOperand = true) (htext : s.chars = c :: ds)
    (hr : ∀ d ∈ rest.head?, isSpace d = true) :
    scan afterOperand c (ds ++ rest) = ⟨.symbol s, s.chars, rest, []⟩ := by
  have hleading : Symbol.leading? (c :: (ds ++ rest)) = some s := by
    rw [← List.cons_append, ← htext]
    exact Symbol.leading?_append fun d hd => s.goesOn_eq_false_of_isSpace (hr d hd)
  have hcomment : c = '/' →
      (ds ++ rest).head? ≠ some '/' ∧ (ds ++ rest).head? ≠ some '*' ∧ afterOperand = true := by
    rintro rfl
    obtain rfl : ds = [] := by cases s <;> simp_all [Symbol.chars]
    refine ⟨?_, ?_, hslash rfl⟩
    all_goals
      intro hd
      exact absurd (hr _ hd) (by decide)
  rw [scan_of_leading? hs hcomment hleading, ← List.cons_append, ← htext, List.drop_left]

theorem scan_regex_before_blank (hline : cs.head? ≠ some '/') (hblock : cs.head? ≠ some '*')
    (hclosed : (regex cs).Closed) (htext : (regex cs).text = '/' :: ds) :
    scan false '/' (ds ++ rest) = (regex cs).before rest := by
  cases hd : (delimited '/' cs).closed with
  | false => simp [regex, hd, Closed, FaultCause.isUnterminated] at hclosed
  | true =>
    obtain ⟨body, hbody, hbodytext⟩ := exists_literalBody_of_closed hd
    have hregex : regex cs = ⟨.regexLit, '/' :: ds, (delimited '/' cs).rest, []⟩ := by
      rw [← htext]
      simp [regex, hd]
    have hds : ds = body ++ ['/'] := by
      simpa [regex, hd, hbodytext, eq_comm] using htext
    -- what is behind the opening slash starts with the same character
    have hhead : (ds ++ rest).head? = cs.head? := by
      have hcs := append_delimited '/' cs
      have hne : ds ≠ [] := by simp [hds]
      rw [hbodytext, ← hds] at hcs
      rw [← hcs, List.head?_append_of_ne_nil _ hne, List.head?_append_of_ne_nil _ hne]
    have hdelimited := hbody.delimited_eq rfl (by decide) rest
    rw [scan_false_slash (hhead ▸ hline) (hhead ▸ hblock), hregex, hds, List.append_assoc,
      List.singleton_append, regex, hdelimited]
    rfl

theorem scan_string_before_blank (hq : c = '"' ∨ c = '\'') (hclosed : (string c cs).Closed)
    (htext : (string c cs).text = c :: ds) :
    scan afterOperand c (ds ++ rest) = (string c cs).before rest := by
  cases hd : (delimited c cs).closed with
  | false => simp [string, hd, Closed, FaultCause.isUnterminated] at hclosed
  | true =>
    obtain ⟨body, hbody, hbodytext⟩ := exists_literalBody_of_closed hd
    have hds : ds = body ++ [c] := by simpa [string, hd, hbodytext, eq_comm] using htext
    rw [hds, List.append_assoc, List.singleton_append, scan_string hq hbody]
    simp [string, hd, hbodytext, before]

theorem scan_dollar {ds : List Char} (hne : ds ≠ []) (hds : ∀ d ∈ ds, isWordPart d = true)
    (hr : ∀ d ∈ rest.head?, isWordPart d = false) :
    scan afterOperand '$' (ds ++ rest) = ⟨.varWord, '$' :: ds, rest, []⟩ := by
  obtain ⟨htake, hdrop⟩ := takeWhile_dropWhile_append hds hr
  have hhead : (ds ++ rest).head?.any isWordPart = true := by
    obtain ⟨d, ds, rfl⟩ := List.exists_cons_of_ne_nil hne
    simpa using hds d (by simp)
  have hsymbol : Symbol.leading? ('$' :: (ds ++ rest)) = none :=
    Symbol.leading?_eq_none fun s => by cases s <;> decide
  have hspace : isSpace '$' = false := by decide
  have hdigit : '$'.isDigit = false := by decide
  rw [List.head?_append] at hhead
  simp [scan, hspace, hsymbol, hdigit, hhead, whileTrue, htake, hdrop]

theorem scan_unexpected_before_blank (hs : isSpace c = false) (hsymbol : Symbol.leading? (c :: cs) = none)
    (hquote : ¬ (c = '"' ∨ c = '\'')) (hdigit : c.isDigit = false) (halpha : c.isAlpha = false)
    (hr : ∀ d ∈ rest.head?, isSpace d = true) : scan afterOperand c rest = unexpected c rest := by
  have hslash : c ≠ '/' := by
    rintro rfl
    rw [Symbol.leading?_slash] at hsymbol
    cases hsymbol
  have hdollar : rest.head?.any isWordPart = false := by
    cases rest with
    | nil => rfl
    | cons d _ => exact isWordPart_eq_false_of_isSpace (hr d rfl)
  have hnone := Symbol.leading?_eq_none_before_blank hsymbol hr
  simp [scan, hs, hslash, hnone, hquote, hdigit, hdollar, halpha]

/-- Before a blank a closed lexeme is cut off as it is anywhere. -/
theorem scan_before_blank (hk : (scan afterOperand c cs).kind.isTrivia = false)
    (hclosed : (scan afterOperand c cs).Closed) (htext : (scan afterOperand c cs).text = c :: ds)
    (hr : ∀ d ∈ rest.head?, isSpace d = true) :
    scan afterOperand c (ds ++ rest) = (scan afterOperand c cs).before rest := by
  have h := scanned_scan afterOperand c cs
  generalize scan afterOperand c cs = x at h hk hclosed htext ⊢
  cases h with
  | blank | lineComment => cases hk
  | blockComment =>
    unfold Lexeme.blockComment at hk hclosed
    split at hk
    · cases hk
    · rename_i hopen
      simp [hopen, Closed, FaultCause.isUnterminated] at hclosed
  | regex _ hc hline hblock hafter =>
    subst hc hafter
    exact scan_regex_before_blank hline hblock hclosed htext
  | symbol hs hslash _ => exact scan_symbol_before_blank hs (fun hc => (hslash hc).2.2) htext hr
  | string _ hq => exact scan_string_before_blank hq hclosed htext
  | number _ hd =>
    rw [scan_of_isDigit hd, ← List.cons_append, ← htext,
      number_append _ fun d hd => endsNumber_of_isSpace (hr d hd)]
    rfl
  | dollar _ hc hpart =>
    subst hc
    obtain rfl : ds = cs.takeWhile isWordPart := by simpa [whileTrue, eq_comm] using htext
    have hne : cs.takeWhile isWordPart ≠ [] := by
      cases cs with
      | nil => simp at hpart
      | cons d ds =>
        have hd : isWordPart d = true := by simpa using hpart
        simp [hd]
    exact scan_dollar hne (List.all_eq_true.1 List.all_takeWhile)
      fun d hd => isWordPart_eq_false_of_isSpace (hr d hd)
  | word _ hc =>
    have hpart : isWordPart c = true := by simp [isWordPart, Char.isAlphanum, hc]
    have hds : ds = cs.takeWhile isWordPart := by simpa [Lexeme.word, hpart, eq_comm] using htext
    have hshape : hasAliasShape (c :: ds) = true := by
      rw [hds, hasAliasShape, hc, Bool.true_and]
      exact List.all_takeWhile
    rw [scan_word hshape fun d hd => isWordPart_eq_false_of_isSpace (hr d hd), ← htext]
    rfl
  | unexpected hs hsymbol hquote hdigit _ halpha =>
    obtain rfl : ds = [] := by simpa [Lexeme.unexpected, eq_comm] using htext
    exact scan_unexpected_before_blank hs hsymbol hquote hdigit halpha hr

end Lexeme

/-! ## Hidden lexemes -/

/-- The text goes on where a line ends, or it has ended. -/
def AtLineEnd (cs : List Char) : Prop := untilLineEnd cs = ([], cs)

theorem atLineEnd_rest (cs : List Char) : AtLineEnd (untilLineEnd cs).2 := by
  unfold AtLineEnd
  fun_induction untilLineEnd cs with
  | case1 => rfl
  | case2 c cs hend => rw [untilLineEnd, if_pos hend]
  | case3 c cs hend ih => exact ih

/-- A line ends at the same place before another text, if that begins with the same character. -/
theorem untilLineEnd_append {cs rest : List Char} (hhead : rest.head? = (untilLineEnd cs).2.head?)
    (hrest : AtLineEnd rest) : untilLineEnd ((untilLineEnd cs).1 ++ rest) = ((untilLineEnd cs).1, rest) := by
  fun_induction untilLineEnd cs with
  | case1 => exact hrest
  | case2 => exact hrest
  | case3 c cs hend ih =>
    have hnext : ((untilLineEnd cs).1 ++ rest).head? = cs.head? := by
      conv_rhs => rw [← append_untilLineEnd cs]
      rw [List.head?_append, List.head?_append, hhead]
    rw [List.cons_append, untilLineEnd, hnext, if_neg hend, ih hhead]

theorem ne_nil_of_untilCommentEnd {cs body rest : List Char} (h : untilCommentEnd? cs = some (body, rest)) :
    body ≠ [] := by
  rintro rfl
  unfold untilCommentEnd? at h
  split at h
  · cases h
  · simp at h
  · cases h

/-- A comment ends at the same place whatever stands behind it. -/
theorem untilCommentEnd_append {cs body rest : List Char} (h : untilCommentEnd? cs = some (body, rest))
    (rest' : List Char) : untilCommentEnd? (body ++ rest') = some (body, rest') := by
  fun_induction untilCommentEnd? cs generalizing body with
  | case1 =>
    cases h
    rfl
  | case2 c cs hne ih =>
    obtain ⟨⟨found, _⟩, hr, he⟩ := Option.map_eq_some_iff.1 h
    cases he
    have hcs := append_untilCommentEnd hr
    have hfound := ne_nil_of_untilCommentEnd hr
    rw [List.cons_append, untilCommentEnd?.eq_def]
    split
    · -- the end found would have been there before
      rename_i es heq
      obtain ⟨rfl, htail⟩ := List.cons.inj heq
      obtain ⟨d, ds, rfl⟩ := List.exists_cons_of_ne_nil hfound
      obtain ⟨rfl, -⟩ : d = '/' ∧ _ := List.cons.inj htail
      exact absurd hcs.symm (hne _ rfl)
    · rename_i heq
      obtain ⟨rfl, rfl⟩ := List.cons.inj heq
      rw [ih hr]
      rfl
    · rename_i heq
      cases heq
  | case3 => cases h

namespace Lexeme

variable {afterOperand : Bool} {c : Char} {cs ds rest : List Char}

/-- The lexemes that are hidden: runs of blanks, and comments. -/
inductive Hidden (c : Char) (cs : List Char) : Lexeme → Prop where
  | blank : isSpace c = true → Hidden c cs (whileTrue .blank [c] isSpace cs)
  | lineComment {ds : List Char} : isSpace c = false → c = '/' → cs = '/' :: ds →
      Hidden c cs (lineComment (c :: cs))
  | blockComment {ds body rest : List Char} : isSpace c = false → c = '/' → cs = '*' :: ds →
      untilCommentEnd? ds = some (body, rest) →
        Hidden c cs ⟨.docComment, '/' :: '*' :: body, rest, []⟩

theorem hidden_scan (hk : (scan afterOperand c cs).kind.isTrivia = true) :
    Hidden c cs (scan afterOperand c cs) := by
  have h := scanned_scan afterOperand c cs
  generalize scan afterOperand c cs = x at h hk ⊢
  cases h with
  | blank hs => exact .blank hs
  | lineComment hs hc hcs =>
    obtain ⟨ds, rfl⟩ := List.head?_eq_some_iff.1 hcs
    exact .lineComment hs hc rfl
  | blockComment hs hc hcs =>
    unfold Lexeme.blockComment at hk ⊢
    split at hk
    · exact .blockComment hs hc hcs ‹_›
    · cases hk
  | regex =>
    unfold Lexeme.regex at hk
    dsimp only at hk
    split at hk <;> cases hk
  | string =>
    unfold Lexeme.string at hk
    dsimp only at hk
    split at hk <;> cases hk
  | number =>
    unfold Lexeme.number at hk
    dsimp only at hk
    split at hk <;> cases hk
  | word => exact absurd hk (by simp [Lexeme.word, (isVisible_wordKind _).2])
  | symbol | dollar | unexpected => cases hk

/-- A hidden lexeme is cut off in the same way before a text that begins as the one behind it does. -/
theorem scan_hidden_before (hk : (scan afterOperand c cs).kind.isTrivia = true)
    (htext : (scan afterOperand c cs).text = c :: ds)
    (hhead : rest.head? = (scan afterOperand c cs).rest.head?)
    (hline : AtLineEnd (scan afterOperand c cs).rest → AtLineEnd rest) :
    scan afterOperand c (ds ++ rest) = (scan afterOperand c cs).before rest := by
  have h := hidden_scan hk
  generalize scan afterOperand c cs = x at h htext hhead hline ⊢
  cases h with
  | blank hs =>
    obtain rfl : ds = cs.takeWhile isSpace := by simpa [whileTrue, eq_comm] using htext
    have hnot : ∀ d ∈ rest.head?, isSpace d = false := by
      intro d hd
      rw [hhead] at hd
      have := List.head?_dropWhile_not isSpace cs
      simp only [whileTrue] at hd
      rw [Option.mem_def.1 hd] at this
      simpa using this
    obtain ⟨htake, hdrop⟩ := takeWhile_dropWhile_append
      (List.all_eq_true.1 (List.all_takeWhile (p := isSpace) (l := cs))) hnot
    simp [scan, hs, whileTrue, htake, hdrop, before]
  | lineComment hs hc hcs =>
    subst hc hcs
    have huntil := untilLineEnd_append hhead (hline (atLineEnd_rest _))
    have htext : (untilLineEnd ('/' :: '/' :: _)).1 = '/' :: ds := htext
    have hds : (ds ++ rest).head? = some '/' := by
      simp [untilLineEnd] at htext
      simp [← htext]
    rw [htext, List.cons_append] at huntil
    simp [scan, hs, hds, Lexeme.lineComment, huntil, htext, before]
  | @blockComment _ body _ hs hc hcs huntil =>
    subst hc hcs
    obtain rfl : '*' :: body = ds := (List.cons.inj htext).2
    simp [scan, hs, blockComment, untilCommentEnd_append huntil, before]

end Lexeme

end SchemaLang
