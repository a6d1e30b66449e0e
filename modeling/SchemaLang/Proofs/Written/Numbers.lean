import SchemaLang.Proofs.Written.Stream
import SchemaLang.Schema.Datatype

/-!
# Numbers as literals

* `Numeral kind cs`: digits, and digits behind a point if it is a float.
* `Fraction cs` and `Exponent cs`: what may stand behind the whole part of a number; `BehindNumber rest`:
  what may stand behind all of it.
* `Binary64.read?` reads a float with its sign, and `Binary64.ReadsBack` says that the text of a float in a
  datatype is read as that float.

Main statements: a number is cut off behind its parts (`Lexeme.number_parts`), so a numeral is cut off as
one literal (`writes_numeral`); whole numbers are written as numerals that are read back
(`readNat?_toDigits` and `exists_readInt?`), floats as numerals behind a sign (`exists_numeral_floatText`).
-/

set_option autoImplicit false

namespace SchemaLang

def IsDigits (cs : List Char) : Prop := cs ≠ [] ∧ ∀ c ∈ cs, c.isDigit = true

inductive Numeral : TokenKind → List Char → Prop where
  | whole {ds : List Char} : IsDigits ds → Numeral .integerLit ds
  | fraction {ds es : List Char} : IsDigits ds → IsDigits es → Numeral .floatLit (ds ++ '.' :: es)

/-! ## Cutting off a numeral -/

/-- No number goes on with the character. -/
def EndsNumber (d : Char) : Prop := isWordPart d = false ∧ d ≠ '.'

/-- No number goes on with the text. A point ends a number too if no digit stands behind it. -/
structure BehindNumber (rest : List Char) : Prop where
  head : ∀ d ∈ rest.head?, isWordPart d = false
  fractionPart_eq : fractionPart rest = []

theorem fractionPart_of_head_ne {cs : List Char} (h : cs.head? ≠ some '.') : fractionPart cs = [] := by
  unfold fractionPart
  split
  · exact absurd rfl h
  · rfl

theorem behindNumber_of_endsNumber {rest : List Char} (hr : ∀ d ∈ rest.head?, EndsNumber d) :
    BehindNumber rest :=
  ⟨fun d hd => (hr d hd).1, fractionPart_of_head_ne fun hd => (hr '.' hd).2 rfl⟩

theorem isDigit_of_isWordPart {d : Char} (h : isWordPart d = false) : d.isDigit = false := by
  simp only [isWordPart, Char.isAlphanum, Bool.or_eq_false_iff] at h
  exact h.1.2

/-- A character that is not a digit is not the same as one that is. -/
theorem ne_of_isDigit {c d : Char} (h : c.isDigit = true) (hd : d.isDigit = false) : c ≠ d := by
  rintro rfl
  simp [h] at hd

theorem exponentPart_of_isWordPart {rest : List Char} (hr : ∀ d ∈ rest.head?, isWordPart d = false) :
    exponentPart rest = [] := by
  cases rest with
  | nil => rfl
  | cons d ds =>
    have he : ¬ (d = 'e' ∨ d = 'E') := by
      rintro (rfl | rfl) <;> exact absurd (hr _ rfl) (by decide)
    rw [exponentPart, if_neg he]

/-! ### The parts of a number -/

inductive Fraction : List Char → Prop where
  | none : Fraction []
  | point {ds : List Char} : IsDigits ds → Fraction ('.' :: ds)

def isSign (c : Char) : Bool := c == '+' || c == '-'

inductive Exponent : List Char → Prop where
  | none : Exponent []
  | mark {e : Char} {sign ds : List Char} : e = 'e' ∨ e = 'E' → (∀ c ∈ sign, isSign c = true) →
      sign.length ≤ 1 → IsDigits ds → Exponent (e :: (sign ++ ds))

theorem fraction_fractionPart (cs : List Char) : Fraction (fractionPart cs) := by
  unfold fractionPart
  split
  · split
    · exact .none
    · rename_i hne
      exact .point ⟨by simpa using hne, List.all_eq_true.1 List.all_takeWhile⟩
  · exact .none

theorem exponent_exponentPart (cs : List Char) : Exponent (exponentPart cs) := by
  unfold exponentPart
  split
  · split
    · rename_i he
      dsimp only
      split
      · exact .none
      · rename_i hne
        rw [Bool.or_eq_true, not_or, List.isEmpty_iff, decide_eq_true_eq] at hne
        exact .mark he (List.all_eq_true.1 (List.all_takeWhile (p := isSign)))
          (Nat.le_of_not_lt hne.2) ⟨hne.1, List.all_eq_true.1 List.all_takeWhile⟩
    · exact .none
  · exact .none

section

variable {fraction exponent rest sign ds : List Char} {e : Char}

/-- Once there are digits, the exponent takes all that stand there. -/
theorem exponentPart_mark (he : e = 'e' ∨ e = 'E') (hsign : ∀ c ∈ sign, isSign c = true)
    (hlen : sign.length ≤ 1) (hds : IsDigits ds) (rest : List Char) :
    exponentPart (e :: (sign ++ (ds ++ rest))) = e :: (sign ++ (ds ++ rest.takeWhile Char.isDigit)) := by
  have hhead : ∀ d ∈ (ds ++ rest).head?, isSign d = false := by
    intro d hd
    rw [List.head?_append_of_ne_nil _ hds.1] at hd
    have hdigit := hds.2 d (List.mem_of_mem_head? hd)
    have hplus : d ≠ '+' := ne_of_isDigit hdigit rfl
    have hminus : d ≠ '-' := ne_of_isDigit hdigit rfl
    simp [isSign, hplus, hminus]
  have hsigns : ((sign ++ (ds ++ rest)).takeWhile fun c => c == '+' || c == '-') = sign :=
    (takeWhile_dropWhile_append hsign hhead).1
  rw [exponentPart, if_pos he]
  dsimp only
  rw [hsigns, List.drop_left, List.takeWhile_append_of_pos hds.2, if_neg]
  simpa [hds.1] using hlen

/-- Neither digits nor a fraction go on with the mark of an exponent. -/
theorem before_mark (he : e = 'e' ∨ e = 'E') (rest : List Char) :
    (∀ d ∈ (e :: rest).head?, d.isDigit = false) ∧ fractionPart (e :: rest) = [] := by
  constructor
  · intro d hd
    obtain rfl : e = d := Option.some.inj hd
    rcases he with rfl | rfl <;> decide
  · apply fractionPart_of_head_ne
    rcases he with rfl | rfl <;> simp

theorem Exponent.exponentPart_eq (h : Exponent exponent) (hr : ∀ d ∈ rest.head?, isWordPart d = false) :
    exponentPart (exponent ++ rest) = exponent := by
  cases h with
  | none => exact exponentPart_of_isWordPart hr
  | mark he hsign hlen hds =>
    have hdigits : rest.takeWhile Char.isDigit = [] :=
      (@takeWhile_dropWhile_append _ [] rest nofun fun d hd => isDigit_of_isWordPart (hr d hd)).1
    rw [List.cons_append, List.append_assoc, exponentPart_mark he hsign hlen hds, hdigits, List.append_nil]

/-- Neither digits nor a fraction go on into an exponent. -/
theorem Exponent.before (h : Exponent exponent) (hr : BehindNumber rest) :
    (∀ d ∈ (exponent ++ rest).head?, d.isDigit = false) ∧ fractionPart (exponent ++ rest) = [] := by
  cases h with
  | none => exact ⟨fun d hd => isDigit_of_isWordPart (hr.head d hd), hr.fractionPart_eq⟩
  | mark he => exact before_mark he _

theorem Fraction.fractionPart_eq (h : Fraction fraction) (hr : ∀ d ∈ rest.head?, d.isDigit = false)
    (hp : fractionPart rest = []) : fractionPart (fraction ++ rest) = fraction := by
  cases h with
  | none => exact hp
  | point hds =>
    have hdigits := (takeWhile_dropWhile_append hds.2 hr).1
    simp [fractionPart, hdigits, hds.1]

theorem Fraction.head (h : Fraction fraction) (hr : ∀ d ∈ rest.head?, d.isDigit = false) :
    ∀ d ∈ (fraction ++ rest).head?, d.isDigit = false := by
  intro d hd
  cases h with
  | none => exact hr d hd
  | point =>
    obtain rfl : '.' = d := by simpa using hd
    rfl

end

/-! ### Numerals -/

theorem isSpace_eq_false_of_isDigit {c : Char} (h : c.isDigit = true) : isSpace c = false := by
  have := isDigit_iff_toNat.1 h
  simp only [isSpace, Text.isBlank, Bool.or_eq_false_iff, Bool.and_eq_false_iff,
    decide_eq_false_iff_not, beq_eq_false_iff_ne]
  omega

namespace Lexeme

theorem scan_of_isDigit {afterOperand : Bool} {c : Char} {cs : List Char} (h : c.isDigit = true) :
    scan afterOperand c cs = number (c :: cs) := by
  have hslash : c ≠ '/' := ne_of_isDigit h rfl
  have hdouble : c ≠ '"' := ne_of_isDigit h rfl
  have hsingle : c ≠ '\'' := ne_of_isDigit h rfl
  have hsymbol : Symbol.leading? (c :: cs) = none := by
    refine Symbol.leading?_eq_none fun s hs => ?_
    have hall : (s.chars.head?.all fun d => !d.isDigit) = true := by cases s <;> decide
    simp [hs, h] at hall
  simp [scan, isSpace_eq_false_of_isDigit h, hslash, hdouble, hsingle, hsymbol, h]

theorem number_parts {whole fraction exponent rest : List Char} (hw : ∀ c ∈ whole, c.isDigit = true)
    (hf : Fraction fraction) (he : Exponent exponent) (hr : BehindNumber rest) :
    number (whole ++ (fraction ++ (exponent ++ rest))) =
      ⟨if (fraction ++ exponent).isEmpty then .integerLit else .floatLit,
        whole ++ (fraction ++ exponent), rest, []⟩ := by
  obtain ⟨hdigit, hfraction⟩ := he.before hr
  obtain ⟨htake, hdrop⟩ := takeWhile_dropWhile_append hw (hf.head hdigit)
  rw [number, htake, hdrop, hf.fractionPart_eq hdigit hfraction, List.drop_left, he.exponentPart_eq hr.head,
    ← List.append_assoc fraction, List.drop_left]

/-- A number is cut off in the same way before any character that goes on with none. -/
theorem number_append (cs : List Char) {rest : List Char} (hr : ∀ d ∈ rest.head?, EndsNumber d) :
    number ((number cs).text ++ rest) = ⟨(number cs).kind, (number cs).text, rest, []⟩ := by
  have hparts := @number_parts (cs.takeWhile Char.isDigit) _ _ rest
    (List.all_eq_true.1 List.all_takeWhile) (fraction_fractionPart (cs.dropWhile Char.isDigit))
    (exponent_exponentPart ((cs.dropWhile Char.isDigit).drop
      (fractionPart (cs.dropWhile Char.isDigit)).length)) (behindNumber_of_endsNumber hr)
  rw [← List.append_assoc (fractionPart _), ← List.append_assoc (List.takeWhile _ _)] at hparts
  exact hparts

theorem number_eq {kind : TokenKind} {cs rest : List Char} (h : Numeral kind cs)
    (hr : ∀ d ∈ rest.head?, EndsNumber d) : number (cs ++ rest) = ⟨kind, cs, rest, []⟩ := by
  cases h with
  | whole hds => simpa using number_parts hds.2 .none .none (behindNumber_of_endsNumber hr)
  | fraction hds hes =>
    simpa using number_parts hds.2 (.point hes) .none (behindNumber_of_endsNumber hr)

end Lexeme

theorem Numeral.exists_cons {kind : TokenKind} {cs : List Char} (h : Numeral kind cs) :
    ∃ c ds, cs = c :: ds ∧ c.isDigit = true := by
  rcases h with ⟨hds⟩ | ⟨hds, -⟩ <;>
    (obtain ⟨c, ds, rfl⟩ := List.exists_cons_of_ne_nil hds.1
     exact ⟨c, _, rfl, hds.2 c (by simp)⟩)

theorem writes_numeral {kind : TokenKind} {cs : List Char} (h : Numeral kind cs) :
    Writes cs [(kind, String.ofList cs)] True EndsNumber := by
  have hkind : kind ≠ .endOfText ∧ kind.isTrivia = false := by cases h <;> simp [TokenKind.isTrivia]
  obtain ⟨c, ds, rfl, hc⟩ := h.exists_cons
  have hw := @writes_of_scan ds True EndsNumber kind c [] hkind.1 (by simp) fun _ _ hr => by
    rw [Lexeme.scan_of_isDigit hc, ← List.cons_append, Lexeme.number_eq h hr]
  rwa [hkind.2] at hw

/-! ## Whole numbers -/

theorem isDigits_toDigits (n : Nat) : IsDigits (Nat.toDigits 10 n) :=
  ⟨Nat.toDigits_ne_nil, fun _ hc => Nat.isDigit_of_mem_toDigits (by decide) (by decide) hc⟩

theorem readNat?_toDigits {limit n : Nat} (h : n < limit) :
    readNat? limit (Nat.toDigits 10 n) = some n :=
  readNat?_eq_some_iff.2 ⟨Nat.toDigits_ne_nil, List.all_eq_true.2 (isDigits_toDigits n).2,
    Nat.ofDigitChars_ten_toDigits, h⟩

theorem toList_toString_nat (n : Nat) : (toString n).toList = Nat.toDigits 10 n := Nat.toList_repr

theorem readInt?_eq_some_iff {negative : Bool} {cs : List Char} {v : Int} :
    readInt? negative cs = some v ↔
      ∃ n : Nat, readNat? (if negative then signedLimit + 1 else signedLimit) cs = some n ∧
        v = if negative then -(n : Int) else n := by
  cases negative with
  | false => cases h : readNat? signedLimit cs <;> simp [readInt?, h, eq_comm]
  | true => cases h : readNat? (signedLimit + 1) cs <;> simp [readInt?, h, eq_comm]

theorem range_of_readInt? {negative : Bool} {cs : List Char} {v : Int}
    (h : readInt? negative cs = some v) : -(signedLimit : Int) ≤ v ∧ v < signedLimit := by
  obtain ⟨n, hn, rfl⟩ := readInt?_eq_some_iff.1 h
  have hlt := (readNat?_eq_some_iff.1 hn).2.2.2
  unfold signedLimit at hlt ⊢
  cases negative <;> dsimp at hlt ⊢ <;> omega

/-- A number of 64 bits is digits, behind a minus if it is negative. -/
theorem exists_readInt? {v : Int} (hl : -(signedLimit : Int) ≤ v) (hu : v < signedLimit) :
    ∃ negative ds, (toString v).toList = (if negative then ['-'] else []) ++ ds ∧ IsDigits ds ∧
      readInt? negative ds = some v := by
  cases v with
  | ofNat n =>
    refine ⟨false, Nat.toDigits 10 n, toList_toString_nat n, isDigits_toDigits n, ?_⟩
    exact readInt?_eq_some_iff.2 ⟨n, readNat?_toDigits (by simpa using hu), rfl⟩
  | negSucc n =>
    refine ⟨true, Nat.toDigits 10 (n + 1), ?_, isDigits_toDigits _, ?_⟩
    · rw [show toString (Int.negSucc n) = "-" ++ toString (n + 1) from rfl, String.toList_append,
        toList_toString_nat]
      rfl
    · refine readInt?_eq_some_iff.2 ⟨n + 1, readNat?_toDigits ?_, rfl⟩
      rw [if_pos rfl]
      omega

/-! ## Floats -/

theorem isDigits_append_replicate {ds : List Char} (h : IsDigits ds) (n : Nat) :
    IsDigits (ds ++ List.replicate n '0') ∧ IsDigits (List.replicate n '0' ++ ds) := by
  have hzero : ∀ c ∈ List.replicate n '0', c.isDigit = true := by
    intro c hc
    rw [List.eq_of_mem_replicate hc]
    rfl
  exact ⟨⟨by simp [h.1], List.forall_mem_append.2 ⟨h.2, hzero⟩⟩,
    ⟨by simp [h.1], List.forall_mem_append.2 ⟨hzero, h.2⟩⟩⟩

theorem exists_numeral_placed {ds : List Char} (h : IsDigits ds) (k : Int) :
    ∃ kind, Numeral kind (FloatLayout.placed ds k false) := by
  unfold FloatLayout.placed
  split
  · exact ⟨_, @Numeral.fraction ['0'] _ ⟨by simp, by simp⟩ (isDigits_append_replicate h _).2⟩
  split
  · rw [if_neg Bool.false_ne_true, List.append_nil]
    exact ⟨_, .whole (isDigits_append_replicate h _).1⟩
  · rename_i hk hlen
    have htake : IsDigits (ds.take k.toNat) :=
      ⟨by simp [h.1]; omega, fun c hc => h.2 c (List.mem_of_mem_take hc)⟩
    have hdrop : IsDigits (ds.drop k.toNat) :=
      ⟨by simp; omega, fun c hc => h.2 c (List.mem_of_mem_drop hc)⟩
    exact ⟨_, .fraction htake hdrop⟩

theorem exists_numeral_floatText (x : Binary64) :
    ∃ kind cs, (floatText x).toList = (if x.isNegative then ['-'] else []) ++ cs ∧ Numeral kind cs := by
  rw [floatText, String.toList_ofList, FloatLayout.write]
  split
  · exact ⟨_, ['0'], rfl, .whole ⟨by simp, by simp⟩⟩
  · obtain ⟨kind, h⟩ := exists_numeral_placed (isDigits_toDigits (x.shortest Bound.floatLayout.tie).1)
      ((x.shortest Bound.floatLayout.tie).2 +
        (Nat.toDigits 10 (x.shortest Bound.floatLayout.tie).1).length)
    exact ⟨kind, _, rfl, h⟩

namespace Binary64

/-- The float nearest to a decimal, which may have a minus. -/
def read? (cs : List Char) : Option Binary64 :=
  match cs with
  | '-' :: ds => (Decimal.read? true ds).bind ofDecimal?
  | ds => (Decimal.read? false ds).bind ofDecimal?

def ReadsBack (x : Binary64) : Prop := read? (floatText x).toList = some x

instance (x : Binary64) : Decidable x.ReadsBack := inferInstanceAs (Decidable (_ = _))

theorem ReadsBack.exists_numeral {x : Binary64} (h : x.ReadsBack) : ∃ negative kind cs,
    (floatText x).toList = (if negative then ['-'] else []) ++ cs ∧ Numeral kind cs ∧
      (Decimal.read? negative cs).bind ofDecimal? = some x := by
  obtain ⟨kind, cs, htext, hcs⟩ := exists_numeral_floatText x
  refine ⟨x.isNegative, kind, cs, htext, hcs, ?_⟩
  rw [ReadsBack, htext] at h
  cases hx : x.isNegative with
  | true => simpa [hx, read?] using h
  | false =>
    obtain ⟨c, ds, rfl, hc⟩ := hcs.exists_cons
    have hminus : c ≠ '-' := by
      rintro rfl
      exact absurd hc (by decide)
    simpa [hx, read?, hminus] using h

end Binary64

end SchemaLang
