import SchemaLang.Proofs.Floats.Texts
import SchemaLang.Proofs.Grouped.Spelled

/-!
# Expressions of one token

The text of such an expression is cut off again as one lexeme of its kind, so where it ends and which token
it is can be told from the text alone.

Main statements: each is cut off before whatever goes on with no number (`Atom.cutAs`), the text tells the
value (`Atom.eq_of_chars`), so two texts that begin alike begin with the same expression
(`separable_atom`). Strings are told apart character by character, since each one is shown as an escape
that ends where the next one starts (`separable_shown`).
-/

set_option autoImplicit false

namespace SchemaLang

variable {σ : Type} {rest : List Char}

/-! ## Cutting them off -/

theorem cutAs_number {whole fraction exponent : List Char} (hw : IsDigits whole) (hf : Fraction fraction)
    (he : Exponent exponent) (hr : BehindNumber rest) :
    CutAs (if (fraction ++ exponent).isEmpty then .integerLit else .floatLit)
      (whole ++ (fraction ++ exponent)) rest := by
  obtain ⟨c, ds, rfl⟩ := List.exists_cons_of_ne_nil hw.1
  have hc : c.isDigit = true := hw.2 c (by simp)
  refine ⟨c, ds ++ (fraction ++ exponent), rfl, [], ?_⟩
  have hparts := Lexeme.number_parts hw.2 hf he hr
  rw [Lexeme.scan_of_isDigit hc, ← hparts]
  simp

theorem cutAs_word {s : String} (h : hasAliasShape s.toList = true)
    (hr : ∀ d ∈ rest.head?, isWordPart d = false) : CutAs (wordKind s) s.toList rest := by
  obtain ⟨cs, rfl⟩ : ∃ cs, s = String.ofList cs := ⟨s.toList, String.ofList_toList.symm⟩
  rw [String.toList_ofList] at h ⊢
  cases cs with
  | nil => cases h
  | cons c ds => exact ⟨c, ds, rfl, [], Lexeme.scan_word h hr⟩

theorem hasAliasShape_builtin (k : BuiltinKind) : hasAliasShape k.text.toList = true := by
  cases k <;> decide

theorem wordKind_builtin (k : BuiltinKind) : wordKind k.text = .builtin k := by
  cases k <;> decide

theorem chars_integer (n : Nat) (p : σ) :
    (Expr.literal (.integer n) p).chars = Nat.toDigits 10 n := toList_toString_nat n

theorem chars_negative (n : Nat) (p : σ) :
    (Expr.literal (.integer (.negSucc n)) p).chars = '-' :: Nat.toDigits 10 (n + 1) := by
  rw [Expr.chars, Expr.text, Literal.text,
    show toString (Int.negSucc n) = "-" ++ toString (n + 1) from rfl, String.toList_append,
    toList_toString_nat]
  rfl

theorem exists_parts_float {x : Binary64} (hx : x.isNegative = false) : ∃ whole fraction exponent,
    IsDigits whole ∧ Fraction fraction ∧ Exponent exponent ∧ fraction ++ exponent ≠ [] ∧
      Literal.floatLayout.write x = whole ++ (fraction ++ exponent) := by
  obtain ⟨w, hspells, -⟩ := Literal.floatLayout.spellsNumber_write hx
  generalize Literal.floatLayout.write x = cs at hspells
  cases hspells with
  | parts hw hf he _ hne => exact ⟨_, _, _, hw, hf, he, hne rfl, rfl⟩

theorem chars_float (x : Binary64) (p : σ) :
    (Expr.literal (.float x) p).chars = Literal.floatLayout.write x := String.toList_ofList

theorem chars_string (s : String) (p : σ) : (Expr.literal (.string s) p).chars =
    '"' :: (s.toList.flatMap (Text.shown ['"']) ++ ['"']) := Text.toList_quoted s

theorem chars_regex (s : String) (p : σ) :
    (Expr.literal (.regex s) p).chars = regexText (escapeSlashes s.toList) := String.toList_ofList

theorem chars_dollar (n : String) (p : σ) : (Expr.dollar n p).chars = '$' :: n.toList := by
  simp [Expr.chars, Expr.text]

theorem Atom.cutAs {kind : TokenKind} {e : Expr σ} (h : Atom kind e) (hr : BehindNumber rest) :
    CutAs kind e.chars rest := by
  cases h with
  | integer n p =>
    rw [chars_integer]
    simpa using cutAs_number (isDigits_toDigits n) .none .none hr
  | float p hx =>
    obtain ⟨whole, fraction, exponent, hw, hf, he, hne, heq⟩ := exists_parts_float hx
    have hcut := cutAs_number hw hf he hr
    rw [if_neg (by simpa using hne)] at hcut
    rwa [chars_float, heq]
  | string s p =>
    rw [chars_string]
    refine ⟨'"', _, rfl, Lexeme.escapeFaults (s.toList.flatMap (Text.shown ['"'])), ?_⟩
    rw [List.append_assoc, List.singleton_append]
    exact Lexeme.scan_string (.inl rfl) (literalBody_shown s.toList)
  | @regex s p hs =>
    rw [chars_regex]
    refine ⟨'/', _, rfl, [], ?_⟩
    rw [List.append_assoc, List.singleton_append]
    exact hs.scan_false rest
  | true_ p => exact cutAs_word (s := "true") (by decide) hr.head
  | false_ p => exact cutAs_word (s := "false") (by decide) hr.head
  | nil p => exact cutAs_word (s := "nil") (by decide) hr.head
  | dollar p hn =>
    rw [chars_dollar]
    exact ⟨_, _, rfl, _, Lexeme.scan_dollar hn.1 hn.2 hr.head⟩
  | property p hn hk => exact hk ▸ cutAs_word hn hr.head
  | relation p hn hk => exact hk ▸ cutAs_word hn hr.head
  | datatype k p => exact wordKind_builtin k ▸ cutAs_word (hasAliasShape_builtin k) hr.head

/-! ## Telling them apart -/

theorem digitChar_injective {m n : Nat} (hm : m < 16) (hn : n < 16) (h : m.digitChar = n.digitChar) :
    m = n := by
  have hall : ∀ m < 16, ∀ n < 16, m.digitChar = n.digitChar → m = n := by decide
  exact hall m hm n hn h

theorem toDigits_injective {m n : Nat} (h : Nat.toDigits 16 m = Nat.toDigits 16 n) : m = n := by
  -- a number below the base is one digit, any other one has digits before its last
  have hlast (k : Nat) : ∃ ds, Nat.toDigits 16 k = ds ++ [(k % 16).digitChar] ∧
      ((k / 16 = 0 ∧ ds = []) ∨ 0 < k / 16 ∧ ds = Nat.toDigits 16 (k / 16)) := by
    by_cases hk : k < 16
    · refine ⟨[], ?_, .inl ⟨Nat.div_eq_of_lt hk, rfl⟩⟩
      rw [Nat.toDigits_of_lt_base hk, Nat.mod_eq_of_lt hk, List.nil_append]
    · exact ⟨_, Nat.toDigits_of_base_le (by decide) (by omega), .inr ⟨by omega, rfl⟩⟩
  induction m using Nat.strong_induction_on generalizing n with
  | _ m ih =>
    obtain ⟨ds, hds, hm⟩ := hlast m
    obtain ⟨es, hes, hn⟩ := hlast n
    rw [hds, hes] at h
    obtain ⟨rfl, hdigit⟩ := List.append_inj' h rfl
    have hmod : m % 16 = n % 16 := digitChar_injective (Nat.mod_lt _ (by decide))
      (Nat.mod_lt _ (by decide)) (List.singleton_inj.1 hdigit)
    have hdiv : m / 16 = n / 16 := by
      rcases hm with ⟨hm, rfl⟩ | ⟨hm, rfl⟩
      · rcases hn with ⟨hn, -⟩ | ⟨-, hn⟩
        · rw [hm, hn]
        · exact absurd hn.symm Nat.toDigits_ne_nil
      · rcases hn with ⟨-, hn⟩ | ⟨-, hn⟩
        · exact absurd hn Nat.toDigits_ne_nil
        · exact ih _ (by omega) hn
    omega

theorem separable_codePointEscape :
    Separable Text.codePointEscape (fun _ => True) fun _ => True := by
  intro c d r s _ _ _ _ h
  have hdigits (c : Char) (r : List Char) :
      ((Nat.toDigits 16 c.toNat ++ '\x7d' :: r).takeWhile isHexDigit = Nat.toDigits 16 c.toNat) ∧
        (Nat.toDigits 16 c.toNat ++ '\x7d' :: r).dropWhile isHexDigit = '\x7d' :: r :=
    takeWhile_dropWhile_append (fun _ => isHexDigit_of_mem_toDigits _) (by simp; decide)
  simp only [Text.codePointEscape, List.cons_append, List.append_assoc, List.nil_append,
    List.cons.injEq, true_and] at h
  have htake := congrArg (List.takeWhile isHexDigit) h
  have hdrop := congrArg (List.dropWhile isHexDigit) h
  rw [(hdigits c r).1, (hdigits d s).1] at htake
  rw [(hdigits c r).2, (hdigits d s).2] at hdrop
  exact ⟨Char.toNat_inj.1 (toDigits_injective htake), List.tail_eq_of_cons_eq hdrop⟩

/-- However a character is shown, the next one starts behind it. -/
theorem separable_shown : Separable (Text.shown ['"']) (fun _ => True) fun _ => True := by
  have hcode (c : Char) (r ds : List Char) (hds : StandsFor '"' c ds) (d : Char) (s : List Char) :
      ds ++ r ≠ Text.codePointEscape d ++ s := by
    cases hds with
    | @letter k hk _ =>
      intro h
      have hu : simpleEscape? 'u' = none := by decide
      obtain rfl : k = 'u' := by
        simp only [Text.codePointEscape, List.cons_append, List.nil_append, List.cons.injEq] at h
        exact h.2.1
      rw [hu] at hk
      cases hk
    | plain _ hc _ =>
      intro h
      exact hc (List.head_eq_of_cons_eq h)
  intro c d r s _ _ _ _ h
  by_cases hc : Text.shown ['"'] c = Text.codePointEscape c
  · by_cases hd : Text.shown ['"'] d = Text.codePointEscape d
    · rw [hc, hd] at h
      exact separable_codePointEscape c d r s trivial trivial trivial trivial h
    · rw [hc] at h
      exact absurd h.symm (hcode d s _ (Text.standsFor_shown hd) c r)
  · by_cases hd : Text.shown ['"'] d = Text.codePointEscape d
    · rw [hd] at h
      exact absurd h (hcode c r _ (Text.standsFor_shown hc) d s)
    · have hc := Text.standsFor_shown hc
      have hd := Text.standsFor_shown hd
      generalize Text.shown ['"'] c = cs at h hc
      generalize Text.shown ['"'] d = ds at h hd
      cases hc with
      | letter hk _ =>
        cases hd with
        | letter hk' _ =>
          simp only [List.cons_append, List.nil_append, List.cons.injEq, true_and] at h
          obtain ⟨rfl, h⟩ := h
          exact ⟨Option.some.inj (hk.symm.trans hk'), h⟩
        | plain _ hd _ => exact absurd (List.head_eq_of_cons_eq h).symm hd
      | plain _ hc _ =>
        cases hd with
        | letter _ _ => exact absurd (List.head_eq_of_cons_eq h) hc
        | plain _ _ _ => exact ⟨List.head_eq_of_cons_eq h, List.tail_eq_of_cons_eq h⟩

theorem quoted_injective {s t : String} (h : Text.quoted s = Text.quoted t) : s = t := by
  have hends (c : Char) (k : List Char) : Text.shown ['"'] c ++ k ≠ [] := by
    have hne : Text.shown ['"'] c ≠ [] := by
      unfold Text.shown
      split_ifs <;> simp [Text.codePointEscape]
    exact List.append_ne_nil_of_left_ne_nil hne k
  have hmany : Separable (List.flatMap (Text.shown ['"'])) (fun cs => ∀ c ∈ cs, True) (· = []) :=
    separable_shown.many (fun _ _ _ => trivial) (fun _ _ => trivial) fun c k _ => hends c k
  have hbody := congrArg String.toList h
  rw [Text.toList_quoted, Text.toList_quoted] at hbody
  have hbody := List.append_cancel_right (List.tail_eq_of_cons_eq hbody)
  refine String.toList_injective (hmany _ _ [] [] (by simp) (by simp) rfl rfl ?_).1
  rw [hbody]

/-- A token stands for one expression. -/
theorem Atom.eq_of_chars {kind : TokenKind} {e e' : Expr Unit} (h : Atom kind e) (h' : Atom kind e')
    (heq : e.chars = e'.chars) : e = e' := by
  cases h with
  | integer n p =>
    cases h' with
    | integer m q =>
      rw [chars_integer, chars_integer] at heq
      have hvalue := congrArg (Nat.ofDigitChars 10 · 0) heq
      simp only [Nat.ofDigitChars_ten_toDigits] at hvalue
      rw [hvalue]
  | float p hx =>
    cases h' with
    | float q hy =>
      rw [chars_float, chars_float] at heq
      rw [Literal.floatLayout.eq_of_write hx hy heq]
  | string s p =>
    cases h' with
    | string t q => rw [quoted_injective (String.toList_injective heq)]
  | regex p hs =>
    cases h' with
    | regex q ht =>
      rw [chars_regex, chars_regex] at heq
      have hbody := congrArg unescapeSlashes (List.append_cancel_right (List.tail_eq_of_cons_eq heq))
      rw [unescapeSlashes_escapeSlashes, unescapeSlashes_escapeSlashes] at hbody
      rw [String.toList_injective hbody]
  | true_ p => cases h'; rfl
  | false_ p => cases h'; rfl
  | nil p => cases h'; rfl
  | dollar p hn =>
    cases h' with
    | dollar q hm =>
      rw [chars_dollar, chars_dollar] at heq
      rw [String.toList_injective (List.tail_eq_of_cons_eq heq)]
  | @property n p hn hk =>
    cases h' with
    | @property m q hm hk' =>
      obtain rfl : n = m := String.toList_injective heq
      rfl
  | @relation n p hn hk =>
    cases h' with
    | @relation m q hm hk' =>
      obtain rfl : n = m := String.toList_injective heq
      rfl
  | datatype k p =>
    cases h'
    rfl

theorem separable_atom :
    Separable Expr.chars (fun e : Expr Unit => ∃ kind, Atom kind e) BehindNumber := by
  rintro e e' r s ⟨kind, h⟩ ⟨kind', h'⟩ hr hs heq
  obtain ⟨rfl, hchars, hrest⟩ := (h.cutAs hr).eq (h'.cutAs hs) heq
  exact ⟨h.eq_of_chars h' hchars, hrest⟩

end SchemaLang
