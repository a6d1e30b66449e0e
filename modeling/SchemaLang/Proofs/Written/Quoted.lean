import SchemaLang.Proofs.Written.Strings

/-!
# Quoted texts as string literals

A quoted text is a string literal. Of the ways in which a character is shown in a quoted text, string
literals have all but one: a code point in braces is no escape.

* `Text.Readable s`: no character of `s` is shown by its code point.

Main statements: a quoted text is cut off as one string literal, without a fault exactly if the text is
readable (`writes_quoted`), and then the literal stands for the text (`stringValue_quoted`). What is readable
is read off the characters (`Text.readable_iff`).
-/

set_option autoImplicit false

namespace SchemaLang

namespace Text

def Readable (s : String) : Prop := ∀ c ∈ s.toList, shown ['"'] c ≠ codePointEscape c

instance (s : String) : Decidable (Readable s) :=
  List.decidableBAll (fun c => shown ['"'] c ≠ codePointEscape c) s.toList

theorem shown_ne_codePointEscape_iff {c : Char} : shown ['"'] c ≠ codePointEscape c ↔
    c ∈ ['\x00', '\t', '\r', '\n', '\\', '"'] ∨ isExtender c = false ∧ isPrintable c = true := by
  by_cases hc : c ∈ ['\x00', '\t', '\r', '\n', '\\', '"']
  · refine iff_of_true ?_ (.inl hc)
    simp only [List.mem_cons, List.not_mem_nil, or_false] at hc
    rcases hc with rfl | rfl | rfl | rfl | rfl | rfl <;> decide
  · rw [or_iff_right hc]
    simp only [List.mem_cons, List.not_mem_nil, or_false, not_or] at hc
    obtain ⟨hnul, htab, hreturn, hnewline, hbackslash, hquote⟩ := hc
    rw [shown, if_neg hnul, if_neg htab, if_neg hreturn, if_neg hnewline,
      if_neg (by simp [hbackslash, hquote])]
    cases isExtender c <;> cases isPrintable c <;> simp [codePointEscape]

/-- Characters with a short escape are readable, and so are printable ones that do not join the one before. -/
theorem readable_iff {s : String} : Readable s ↔ ∀ c ∈ s.toList,
    c ∈ ['\x00', '\t', '\r', '\n', '\\', '"'] ∨ isExtender c = false ∧ isPrintable c = true :=
  forall₂_congr fun _ _ => shown_ne_codePointEscape_iff
example : Readable "a\n\"\\" ∧ ¬ Readable "\x08" := by decide

/-- A character that is not shown by its code point has a letter, or it stands for itself. -/
theorem standsFor_shown {c : Char} (h : shown ['"'] c ≠ codePointEscape c) :
    StandsFor '"' c (shown ['"'] c) := by
  unfold shown at h ⊢
  split
  · rename_i hc
    exact .letter (k := '0') (by simp [simpleEscape?, hc]) rfl
  split
  · rename_i hc
    exact .letter (k := 't') (by simp [simpleEscape?, hc]) rfl
  split
  · rename_i hc
    exact .letter (k := 'r') (by simp [simpleEscape?, hc]) rfl
  rename_i hr
  split
  · rename_i hc
    exact .letter (k := 'n') (by simp [simpleEscape?, hc]) rfl
  rename_i hn
  split
  · rename_i hc
    rw [List.mem_singleton] at hc
    rcases hc with rfl | rfl <;> exact .letter rfl rfl
  rename_i hq
  rw [List.mem_singleton, not_or] at hq
  split
  · rename_i hcode
    simp_all
  · exact .plain (by simp [isNewline, hn, hr]) hq.1 hq.2

theorem toList_quoted (s : String) :
    (quoted s).toList = '"' :: (s.toList.flatMap (shown ['"']) ++ ['"']) := by
  rw [quoted, String.toList_ofList]

end Text

/-! ## The literal -/

theorem isHexDigit_of_mem_toDigits {c : Char} (n : Nat) :
    c ∈ Nat.toDigits 16 n → isHexDigit c = true := by
  have hdigit : ∀ d < 16, isHexDigit (Nat.digitChar d) = true := by decide
  induction n using Nat.strong_induction_on with
  | _ n ih =>
    rw [Nat.toDigits_eq_if (by decide)]
    split
    · rename_i hn
      rw [List.mem_singleton]
      rintro rfl
      exact hdigit n hn
    · rename_i hn
      rw [List.mem_append, List.mem_singleton]
      rintro (hc | rfl)
      · exact ih _ (Nat.div_lt_self (by omega) (by decide)) hc
      · exact hdigit _ (Nat.mod_lt _ (by decide))

theorem literalBody_codePointEscape (c : Char) : LiteralBody '"' (Text.codePointEscape c) := by
  have hdigits : LiteralBody '"' (Nat.toDigits 16 c.toNat ++ ['\x7d']) := by
    refine .append ?_ (.plain rfl (by decide) (by decide) .nil)
    have hex (d : Char) := isHexDigit_of_mem_toDigits (c := d) c.toNat
    generalize Nat.toDigits 16 c.toNat = ds at hex
    induction ds with
    | nil => exact .nil
    | cons d ds ih =>
      rw [List.forall_mem_cons] at hex
      refine .plain ?_ ?_ ?_ (ih hex.2)
      · exact Bool.eq_false_iff.2 fun hn => by
          rcases eq_of_isNewline hn with rfl | rfl <;> exact absurd hex.1 (by decide)
      · rintro rfl
        exact absurd hex.1 (by decide)
      · rintro rfl
        exact absurd hex.1 (by decide)
  exact .hidden rfl (.plain rfl (by decide) (by decide) hdigits)

theorem literalBody_shown (cs : List Char) : LiteralBody '"' (cs.flatMap (Text.shown ['"'])) := by
  induction cs with
  | nil => exact .nil
  | cons c cs ih =>
    rw [List.flatMap_cons]
    refine .append ?_ ih
    by_cases hc : Text.shown ['"'] c = Text.codePointEscape c
    · exact hc ▸ literalBody_codePointEscape c
    · exact (Text.standsFor_shown hc).literalBody

/-! ## Its value -/

theorem bad_unescapeFrom_codePointEscape (offset : Nat) (c : Char) (cs : List Char) :
    (unescapeFrom 0 offset (Text.codePointEscape c ++ cs)).bad ≠ [] := by
  have hbrace : decodeEscape ('u' :: '\x7b' :: (Nat.toDigits 16 c.toNat ++ ['\x7d'] ++ cs)) = (none, 1) :=
    rfl
  rw [Text.codePointEscape, List.cons_append, List.cons_append, List.cons_append, unescapeFrom, if_pos rfl,
    hbrace]
  exact List.cons_ne_nil _ _

theorem bad_unescape_shown_eq_nil_iff {cs : List Char} :
    (unescape (cs.flatMap (Text.shown ['"']))).bad = [] ↔
      ∀ c ∈ cs, Text.shown ['"'] c ≠ Text.codePointEscape c := by
  suffices ∀ offset, (unescapeFrom 0 offset (cs.flatMap (Text.shown ['"']))).bad = [] ↔
      ∀ c ∈ cs, Text.shown ['"'] c ≠ Text.codePointEscape c from this 0
  induction cs with
  | nil => exact fun _ => iff_of_true rfl nofun
  | cons c cs ih =>
    intro offset
    rw [List.forall_mem_cons, List.flatMap_cons]
    by_cases hc : Text.shown ['"'] c = Text.codePointEscape c
    · rw [hc]
      exact iff_of_false (bad_unescapeFrom_codePointEscape offset c _) fun h => h.1 rfl
    · obtain ⟨offset', h⟩ := (Text.standsFor_shown hc).unescapeFrom offset (cs.flatMap (Text.shown ['"']))
      rw [h, ← ih offset']
      exact (and_iff_right hc).symm

theorem stringValue_quoted {s : String} (h : Text.Readable s) : stringValue (Text.quoted s) = s := by
  rw [stringValue, Text.toList_quoted, inner, List.drop_one, List.tail_cons, List.dropLast_concat,
    unescape_flatMap fun c hc => Text.standsFor_shown (h c hc), String.ofList_toList]

theorem writes_quoted (s : String) :
    Writes (Text.quoted s).toList [(.stringLit, Text.quoted s)] (Text.Readable s) fun _ => True := by
  have hw := @writes_of_scan (s.toList.flatMap (Text.shown ['"']) ++ ['"']) (Text.Readable s)
    (fun _ => True) .stringLit '"' _ (by simp)
    (List.map_eq_nil_iff.trans bad_unescape_shown_eq_nil_iff) fun afterOperand rest _ => by
      rw [List.append_assoc, List.singleton_append, Lexeme.scan_string (.inl rfl) (literalBody_shown _),
        Lexeme.escapeFaults]
  rw [Text.toList_quoted]
  exact hw

end SchemaLang
