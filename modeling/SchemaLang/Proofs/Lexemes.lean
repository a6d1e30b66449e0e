import SchemaLang.Proofs.Lexed

/-!
# Lexemes by their first characters

* `Lexeme.Scanned afterOperand c cs x`: the lexeme `x` is cut off `c :: cs`, with one case for each kind
  of lexeme.
* `WithinLine cs`: a text without a line end.
* `IsRun cs`: the characters of a name behind a dollar sign.
* `Lexeme.IsOpenComment`: a comment that never ends.

Main statements: every lexeme is `Scanned` (`Lexeme.scanned_scan`), blanks are lexemes of blanks and no
others are (`Lexeme.kind_scan_eq_blank_iff`), and a visible lexeme stays within its line unless it is an
open comment (`Lexeme.withinLine_scan`).
-/

set_option autoImplicit false

namespace SchemaLang

namespace Lexeme

inductive Scanned (afterOperand : Bool) (c : Char) (cs : List Char) : Lexeme → Prop where
  | blank : isSpace c = true → Scanned afterOperand c cs (whileTrue .blank [c] isSpace cs)
  | lineComment : isSpace c = false → c = '/' → cs.head? = some '/' →
      Scanned afterOperand c cs (lineComment (c :: cs))
  | blockComment {rest : List Char} : isSpace c = false → c = '/' → cs = '*' :: rest →
      Scanned afterOperand c cs (blockComment rest)
  | regex : isSpace c = false → c = '/' → cs.head? ≠ some '/' → cs.head? ≠ some '*' →
      afterOperand = false → Scanned afterOperand c cs (regex cs)
  | symbol {s : Symbol} : isSpace c = false →
      (c = '/' → cs.head? ≠ some '/' ∧ cs.head? ≠ some '*' ∧ afterOperand = true) →
        Symbol.leading? (c :: cs) = some s →
          Scanned afterOperand c cs ⟨.symbol s, s.chars, (c :: cs).drop s.chars.length, []⟩
  | string : isSpace c = false → c = '"' ∨ c = '\'' → Scanned afterOperand c cs (string c cs)
  | number : isSpace c = false → c.isDigit = true → Scanned afterOperand c cs (number (c :: cs))
  | dollar : isSpace c = false → c = '$' → cs.head?.any isWordPart = true →
      Scanned afterOperand c cs (whileTrue .varWord [c] isWordPart cs)
  | word : isSpace c = false → c.isAlpha = true → Scanned afterOperand c cs (word (c :: cs))
  | unexpected : isSpace c = false → Symbol.leading? (c :: cs) = none → ¬ (c = '"' ∨ c = '\'') →
      c.isDigit = false → ¬ (c = '$' ∧ cs.head?.any isWordPart = true) → c.isAlpha = false →
        Scanned afterOperand c cs (unexpected c cs)

theorem scanned_scan (afterOperand : Bool) (c : Char) (cs : List Char) :
    Scanned afterOperand c cs (scan afterOperand c cs) := by
  unfold scan
  split
  · exact .blank ‹_›
  rename_i hs
  have hs : isSpace c = false := by simpa using hs
  split
  · rename_i h
    exact .lineComment hs h.1 h.2
  rename_i hline
  split
  · rename_i h
    obtain ⟨rest, rfl⟩ := List.head?_eq_some_iff.1 h.2
    exact .blockComment hs h.1 rfl
  rename_i hblock
  split
  · rename_i h
    exact .regex hs h.1 (fun h' => hline ⟨h.1, h'⟩) (fun h' => hblock ⟨h.1, h'⟩) h.2
  rename_i hregex
  split
  · refine .symbol hs (fun hc => ⟨fun h' => hline ⟨hc, h'⟩, fun h' => hblock ⟨hc, h'⟩, ?_⟩) ‹_›
    simpa [hc] using hregex
  rename_i hsymbol
  split
  · exact .string hs ‹_›
  rename_i hquote
  split
  · exact .number hs ‹_›
  rename_i hdigit
  split
  · rename_i h
    exact .dollar hs h.1 h.2
  rename_i hdollar
  split
  · exact .word hs ‹_›
  · rename_i halpha
    exact .unexpected hs hsymbol hquote (by simpa using hdigit) hdollar (by simpa using halpha)

/-! ## Blanks -/

theorem kind_word_ne_blank (cs : List Char) : (word cs).kind ≠ .blank := by
  intro h
  rcases isKeyword_or_isWord_wordKind (String.ofList (cs.takeWhile isWordPart)) with hk | hk
  · rw [show wordKind _ = .blank from h] at hk
    cases hk
  · rw [show wordKind _ = .blank from h] at hk
    cases hk

theorem kind_scan_eq_blank_iff (afterOperand : Bool) (c : Char) (cs : List Char) :
    (scan afterOperand c cs).kind = .blank ↔ isSpace c = true := by
  have h := scanned_scan afterOperand c cs
  generalize scan afterOperand c cs = x at h ⊢
  cases h with
  | blank hs => simp [whileTrue, hs]
  | lineComment hs => simp [Lexeme.lineComment, hs]
  | blockComment hs =>
    unfold Lexeme.blockComment
    split <;> simp [hs]
  | regex hs =>
    unfold Lexeme.regex
    dsimp only
    split <;> simp [hs]
  | symbol hs => simp [hs]
  | string hs =>
    unfold Lexeme.string
    dsimp only
    split <;> simp [hs]
  | number hs =>
    unfold Lexeme.number
    dsimp only
    split <;> simp [hs]
  | dollar hs => simp [whileTrue, hs]
  | word hs => simp [kind_word_ne_blank, hs]
  | unexpected hs => simp [Lexeme.unexpected, hs]

end Lexeme

def IsRun (cs : List Char) : Prop := cs ≠ [] ∧ ∀ c ∈ cs, isWordPart c = true

/-! ## Line ends -/

def WithinLine (cs : List Char) : Prop := ∀ c ∈ cs, isNewline c = false

theorem withinLine_nil : WithinLine [] := nofun

theorem withinLine_cons {c : Char} {cs : List Char} :
    WithinLine (c :: cs) ↔ isNewline c = false ∧ WithinLine cs := by
  simp [WithinLine]

theorem WithinLine.append {as bs : List Char} (ha : WithinLine as) (hb : WithinLine bs) :
    WithinLine (as ++ bs) := fun c hc => (List.mem_append.1 hc).elim (ha c) (hb c)

theorem eq_of_isNewline {c : Char} (h : isNewline c = true) : c = '\n' ∨ c = '\r' := by
  simpa [isNewline] using h

theorem isSpace_of_isNewline {c : Char} (h : isNewline c = true) : isSpace c = true := by
  rcases eq_of_isNewline h with rfl | rfl <;> decide

theorem isDigit_of_isNewline {c : Char} (h : isNewline c = true) : c.isDigit = false := by
  rcases eq_of_isNewline h with rfl | rfl <;> decide

theorem isWordPart_of_isNewline {c : Char} (h : isNewline c = true) : isWordPart c = false := by
  rcases eq_of_isNewline h with rfl | rfl <;> decide

theorem withinLine_takeWhile {p : Char → Bool} (hp : ∀ c, isNewline c = true → p c = false)
    (cs : List Char) : WithinLine (cs.takeWhile p) := by
  intro c hc
  have hpc := List.all_eq_true.1 List.all_takeWhile c hc
  exact Bool.eq_false_iff.2 fun hn => by simp [hp c hn] at hpc

theorem withinLine_delimited {close : Char} (hc : isNewline close = false) (cs : List Char) :
    WithinLine (delimited close cs).text := by
  fun_induction delimited close cs with
  | case1 | case2 => exact withinLine_nil
  | case3 | case4 => exact withinLine_cons.2 ⟨rfl, withinLine_nil⟩
  | case5 d ds hd _ ih =>
    exact withinLine_cons.2 ⟨rfl, withinLine_cons.2 ⟨by simpa using hd, ih⟩⟩
  | case6 => exact withinLine_cons.2 ⟨hc, withinLine_nil⟩
  | case7 c cs hn _ _ ih => exact withinLine_cons.2 ⟨by simpa using hn, ih⟩

theorem withinLine_fractionPart (cs : List Char) : WithinLine (fractionPart cs) := by
  unfold fractionPart
  split
  · split
    · exact withinLine_nil
    · exact withinLine_cons.2 ⟨rfl, withinLine_takeWhile (fun _ => isDigit_of_isNewline) _⟩
  · exact withinLine_nil

theorem withinLine_exponentPart (cs : List Char) : WithinLine (exponentPart cs) := by
  unfold exponentPart
  split
  · rename_i e r
    split
    · rename_i he
      have he : isNewline e = false := by rcases he with rfl | rfl <;> rfl
      have hsign : WithinLine (r.takeWhile fun c => c == '+' || c == '-') :=
        withinLine_takeWhile (fun c hc => by rcases eq_of_isNewline hc with rfl | rfl <;> decide) r
      dsimp only
      split
      · exact withinLine_nil
      · exact withinLine_cons.2
          ⟨he, hsign.append (withinLine_takeWhile (fun _ => isDigit_of_isNewline) _)⟩
    · exact withinLine_nil
  · exact withinLine_nil

theorem Symbol.withinLine_chars (s : Symbol) : WithinLine s.chars := by
  cases s <;> simp [WithinLine, Symbol.chars, isNewline]

namespace Lexeme

structure IsOpenComment (x : Lexeme) : Prop where
  kind : x.kind = .invalid
  faults : x.faults = [⟨.unterminatedComment, 0, x.text.length⟩]

theorem withinLine_number (cs : List Char) : WithinLine (number cs).text :=
  (withinLine_takeWhile (fun _ => isDigit_of_isNewline) cs).append
    ((withinLine_fractionPart _).append (withinLine_exponentPart _))

theorem withinLine_scan {afterOperand : Bool} {c : Char} {cs : List Char}
    (hk : (scan afterOperand c cs).kind.isTrivia = false)
    (ho : ¬ (scan afterOperand c cs).IsOpenComment) :
    WithinLine (scan afterOperand c cs).text := by
  have h := scanned_scan afterOperand c cs
  generalize scan afterOperand c cs = x at h hk ho ⊢
  have first (hs : isSpace c = false) : isNewline c = false :=
    Bool.eq_false_iff.2 fun hn => by simp [isSpace_of_isNewline hn] at hs
  cases h with
  | blank | lineComment => cases hk
  | blockComment =>
    unfold Lexeme.blockComment at hk ho
    split at hk
    · cases hk
    · rename_i hu
      simp only [hu] at ho
      exact absurd ⟨rfl, by simp⟩ ho
  | regex hs =>
    unfold Lexeme.regex
    dsimp only
    split <;> exact withinLine_cons.2 ⟨rfl, withinLine_delimited rfl cs⟩
  | symbol => exact Symbol.withinLine_chars _
  | string hs =>
    unfold Lexeme.string
    dsimp only
    split <;> exact withinLine_cons.2 ⟨first hs, withinLine_delimited (first hs) cs⟩
  | number => exact withinLine_number _
  | dollar hs =>
    exact withinLine_cons.2 ⟨first hs, withinLine_takeWhile (fun _ => isWordPart_of_isNewline) _⟩
  | word => exact withinLine_takeWhile (fun _ => isWordPart_of_isNewline) _
  | unexpected hs => exact withinLine_cons.2 ⟨first hs, withinLine_nil⟩

end Lexeme

end SchemaLang
