import SchemaLang.Proofs.Imports.Rules
import SchemaLang.Proofs.Located.Reading
import SchemaLang.Proofs.Numerals.Values

/-!
# Numbers are rejected for their values alone

* `NumberItem text k t n`: the grammar sees the token `t`, which is the number `n`, as item `k` of the text.
* `WrittenNumber.OutOfRange n items k negative`: the number is beyond the range of what is read at item `k`,
  which is that of lengths where one stands, and that of numbers with a sign elsewhere.
* `Registry.Rejects r id text cause p d`: the diagnostic `d` rejects a number of the text, at the span of its
  token and with its spelling behind the minus that was read with it; with its item and its sign, the number has
  the property `p`.
* `Reading.RejectsOutOfRange r text x`: whatever the reading rejects as an integer or as a float is a number of
  the text that is out of range.

The grammar converts a token only if the scanner made it a number, and the scanner makes numbers only of
spellings that the conversions take. So what they reject is out of range. Each rule rejects a number for the
conversion that belongs where the number stands, so it is the range of that conversion that the number is out of.

Main statement: `Registry.numbers_of_find`.
-/

set_option autoImplicit false

namespace SchemaLang

/-! ## Codes -/

theorem Diagnostic.code_ofCode (c : ErrorCode) (values : List String) (s : Span) :
    (ofCode c values s).code = some c.code := by
  unfold ofCode
  dsimp only
  split <;> rfl

/-- Faults of lexemes have codes of their own. -/
theorem FaultCause.code_diagnostic_ne (c : FaultCause) (s : Span) {code : String}
    (hcode : code ∈ ["E211", "E212"]) : (c.diagnostic s).code ≠ some code := by
  intro h
  cases c <;>
    (rw [FaultCause.diagnostic, Diagnostic.code_ofCode] at h
     obtain rfl := Option.some.inj h
     revert hcode
     decide)

/-! ## Rejected numbers -/

structure NumberItem (text : String) (k : Nat) (t : Token) (n : WrittenNumber) : Prop where
  mem : t ∈ (tokenize text).1
  item : ∃ q, (placedItems (tokenize text).1)[k]? = some q ∧ q.IsToken t
  longest : t.IsLongestNumber text n

/-- A length is no less than the limit of words, and no minus is read with it. -/
def WrittenNumber.OutOfRange (n : WrittenNumber) (items : Items) (k : Nat) (negative : Bool) : Prop :=
  if IsLength items k then negative = false ∧ wordLimit ≤ decimal n.whole
  else ¬ IsInt64 (signedDecimal negative n.whole)

def Registry.Rejects (r : Registry) (id : SourceId) (text : String) (cause : String → Cause Span)
    (p : Nat → Bool → WrittenNumber → Prop) (d : Diagnostic) : Prop :=
  ∃ k t n negative s, NumberItem text k t n ∧ p k negative n ∧ r.spanOf id t.start t.stop = .ok s ∧
    d = Problem.diagnostic ⟨cause ((if negative then "-" else "") ++ t.text), s⟩

structure Reading.RejectsOutOfRange (r : Registry) (text : String) (x : Reading) : Prop where
  integers : ∀ d ∈ x.diagnostics, d.code = some "E211" → r.Rejects x.source text .invalidInteger
    (fun k negative n => n.kind = .integerLit ∧ n.OutOfRange (itemsOf (tokenize text).1) k negative) d
  floats : ∀ d ∈ x.diagnostics, d.code = some "E212" → r.Rejects x.source text .invalidFloat
    (fun _ _ n => Binary64.overflow ≤ n.value) d

namespace Registry

variable {r : Registry} {id : SourceId} {source : Source}

/-! ## Tokens of items -/

/-- An item that is a number is the token of one, at the span of the token. -/
theorem exists_number_of_item {table : SpanTable}
    (ht : r.spanTable id (placedItems (tokenize source.text).1) = .ok table) {k : Nat}
    (hk : Rule.isNumber (kindAt (itemsOf (tokenize source.text).1) k) = true) :
    ∃ t n, NumberItem source.text k t n ∧ t.kind = kindAt (itemsOf (tokenize source.text).1) k ∧
      t.text = (itemAt (itemsOf (tokenize source.text).1) k).text ∧
        r.spanOf id t.start t.stop = .ok (table.span (.single k)) := by
  have hne : kindAt (itemsOf (tokenize source.text).1) k ≠ .endOfText := by
    intro he
    rw [he] at hk
    cases hk
  have hlt : k < (placedItems (tokenize source.text).1).length := by
    have hsize := lt_size_of_kindAt_ne hne
    simpa [itemsOf] using hsize
  have hitem := itemAt_itemsOf_of_lt hlt
  have hat := spanOf_at ht hlt
  rw [SpanTable.span_single]
  rcases mem_placedItems (List.getElem_mem hlt) with ⟨-, hend, -⟩ | ⟨t, hmem, htoken⟩
  · rw [← hitem] at hend
    exact absurd hend hne
  · have hkind := htoken.kind_eq
    have htext := htoken.text_eq
    rw [← hitem] at hkind htext
    obtain ⟨n, hn⟩ := exists_isLongestNumber_of_mem_tokenize hmem (by rw [hkind]; exact hk)
    refine ⟨t, n, ⟨hmem, ⟨_, List.getElem?_eq_getElem hlt, htoken⟩, hn⟩, hkind, htext, ?_⟩
    rw [htoken.start_eq, htoken.stop_eq]
    exact hat

/-! ## Readings -/

theorem source_of_read {reading : Reading} (h : r.read id = .ok reading) : reading.source = id := by
  unfold read at h
  split at h
  · cases h
  · dsimp only at h
    split at h
    · cases h
    · split at h
      · cases h
      · cases h
        rfl

variable {table : SpanTable} {d : Diagnostic}

theorem rejects_of_invalidInteger
    (ht : r.spanTable id (placedItems (tokenize source.text).1) = .ok table)
    (hd : r.Reports id source.text table d) (hcode : d.code = some "E211") :
    r.Rejects id source.text .invalidInteger (fun k negative n =>
      n.kind = .integerLit ∧ n.OutOfRange (itemsOf (tokenize source.text).1) k negative) d := by
  cases hd with
  | @fault f s => exact absurd hcode (f.cause.code_diagnostic_ne s (by decide))
  | @problem p hp =>
    obtain ⟨cause, place⟩ := p
    cases cause with
    | invalidInteger text =>
      obtain ⟨k, rfl, hk, hrejected⟩ := ofRule_of_mem_readUnit _ hp rfl
      obtain ⟨t, n, hn, hkind, htext, hspan⟩ := exists_number_of_item ht (by rw [hk]; rfl)
      have hinteger : n.kind = .integerLit := hn.longest.kind_eq.symm.trans (hkind.trans hk)
      have hdigits : (itemAt (itemsOf (tokenize source.text).1) k).text.toList = n.text := by
        rw [← htext, hn.longest.text_eq, String.toList_ofList]
      by_cases hl : IsLength (itemsOf (tokenize source.text).1) k
      · rw [if_pos hl, hdigits] at hrejected
        obtain ⟨rfl, hnone⟩ := hrejected
        have hrange := WrittenNumber.wordLimit_le_of_readNat? hinteger hnone
        refine ⟨k, t, n, false, _, hn, ⟨hinteger, ?_⟩, hspan, by rw [htext]; rfl⟩
        rw [WrittenNumber.OutOfRange, if_pos hl]
        exact ⟨rfl, hrange⟩
      · rw [if_neg hl, hdigits] at hrejected
        obtain ⟨negative, rfl, hnone⟩ := hrejected
        have hrange := WrittenNumber.not_isInt64_of_readInt? hinteger hnone
        refine ⟨k, t, n, negative, _, hn, ⟨hinteger, ?_⟩, hspan, by rw [htext]; rfl⟩
        rw [WrittenNumber.OutOfRange, if_neg hl]
        exact hrange
    | _ => exact absurd (Option.some.inj hcode) (by decide)

theorem rejects_of_invalidFloat
    (ht : r.spanTable id (placedItems (tokenize source.text).1) = .ok table)
    (hd : r.Reports id source.text table d) (hcode : d.code = some "E212") :
    r.Rejects id source.text .invalidFloat (fun _ _ n => Binary64.overflow ≤ n.value) d := by
  cases hd with
  | @fault f s => exact absurd hcode (f.cause.code_diagnostic_ne s (by decide))
  | @problem p hp =>
    obtain ⟨cause, place⟩ := p
    cases cause with
    | invalidFloat text =>
      obtain ⟨k, negative, rfl, hk, rfl, hnone⟩ := ofRule_of_mem_readUnit _ hp rfl
      obtain ⟨t, n, hn, hkind, htext, hspan⟩ := exists_number_of_item ht hk
      rw [← htext, hn.longest.text_eq, String.toList_ofList] at hnone
      have hrange : Binary64.overflow ≤ n.value := (n.converts negative).toFloat.1 hnone
      exact ⟨k, t, n, negative, _, hn, hrange, hspan, by rw [htext]; rfl⟩
    | _ => exact absurd (Option.some.inj hcode) (by decide)

/-- **Numbers.** Wherever a lexer meets a digit in a text, the next token is the longest number there: an integer
if it is digits alone, and a float if it has a fraction or an exponent. Each number converts, whatever its
spelling, unless it is out of range. So what a reading rejects as an integer or as a float is a number of its
text that is out of range: a length is beyond all words, and any other integer is not one of 64 bits. -/
theorem numbers_of_find (r : Registry) (id : SourceId) (source : Source) (h : r.find id = .ok source) :
    (∀ (text : String) (l : Lexer) (c : Char) (cs : List Char), l.Reads text → l.rest = c :: cs →
      c.isDigit = true → ∃ n, l.next.token.start = l.offset ∧ l.next.token.IsLongestNumber text n ∧
        l.next.faults = []) ∧
      (∀ (n : WrittenNumber) (negative : Bool), n.Converts negative) ∧
        ∃ reading, r.read id = .ok reading ∧ reading.source = id ∧
          reading.RejectsOutOfRange r source.text := by
  refine ⟨?_, ?_, ?_⟩
  · intro text l c cs hl hr hc
    exact hl.exists_isLongestNumber hr hc
  · intro n negative
    exact n.converts negative
  · obtain ⟨table, reading, htable, hread, hreports, -⟩ := exists_read_reports h
    obtain rfl : reading.source = id := source_of_read hread
    refine ⟨reading, hread, rfl, ?_, ?_⟩
    · intro d hd hcode
      exact rejects_of_invalidInteger htable (hreports d hd) hcode
    · intro d hd hcode
      exact rejects_of_invalidFloat htable (hreports d hd) hcode

/-- An integer and a float are rejected behind a minus. The length before a point is not: it ends there, and the
point is unexpected. The other lengths are rejected from `2 ^ 64` on, and the number in the constraint from
`2 ^ 63` on. -/
theorem numbers_of_find_bounds :
    let source := Source.ofText "" <|
      "schema \"S\" type A = Integer[-9223372036854775809, _] type B = Float[-1.5e400, _] " ++
        "type C = String[1.x, _] type D = String[9223372036854775808, 18446744073709551616] " ++
          "type E = List<Date>[9223372036854775808, 18446744073709551616] " ++
            "type T \x7b ! \"m\" x > [9223372036854775808] \x7d"
    let items := itemsOf (tokenize source.text).1
    let r : Registry := ⟨#[source]⟩
    ((readUnit items).2.map (·.cause) =
        [.invalidInteger "-9223372036854775809", .invalidFloat "-1.5e400",
          .unexpected (.token (.symbol .comma)) ⟨.symbol .dot, "."⟩,
          .invalidInteger "18446744073709551616", .invalidInteger "18446744073709551616",
          .invalidInteger "9223372036854775808"] ∧
      ((List.range items.size).filter (kindAt items · = .integerLit)).map (decide <| IsLength items ·) =
        [false, true, true, true, true, true, false]) ∧
      r.find ⟨1⟩ = .ok source ∧
      (∀ (text : String) (l : Lexer) (c : Char) (cs : List Char), l.Reads text → l.rest = c :: cs →
        c.isDigit = true → ∃ n, l.next.token.start = l.offset ∧ l.next.token.IsLongestNumber text n ∧
          l.next.faults = []) ∧
        (∀ (n : WrittenNumber) (negative : Bool), n.Converts negative) ∧
          ∃ reading, r.read ⟨1⟩ = .ok reading ∧ reading.source = ⟨1⟩ ∧
            reading.RejectsOutOfRange r source.text := by
  intro source items r
  have hfind : r.find ⟨1⟩ = .ok source := rfl
  exact ⟨by decide +kernel, hfind, numbers_of_find r ⟨1⟩ source hfind⟩

end Registry

end SchemaLang
