import SchemaLang.Proofs.Phrase.InOrder
import SchemaLang.Proofs.Written.Phrases

/-!
# Derived datatypes as texts

* `Builtin.strings` and `Builtin.floats` are the texts and the floats in a datatype.
* `Item.IsSpelled`: a word is spelled like a word of its kind.

Main statement: the text of a derived datatype is cut into words that derive it again, without a fault
exactly if its strings are readable (`Phrase.Parameters.writtenAs` and `DatatypeRef.Derives.writtenAs`).
Floats are assumed to read back.
-/

set_option autoImplicit false

namespace SchemaLang

variable {σ : Type}

mutual

def Builtin.strings : Builtin σ → List String
  | .enum values => values
  | .pattern regex flags => regex :: flags.toList
  | .timestamp format => format.toList
  | .list element _ _ => element.strings
  | .integer .. | .float .. | .boolean | .string .. | .vector _ | .date | .uuid => []

def DatatypeRef.strings : DatatypeRef σ → List String
  | .builtin type _ => type.strings
  | .named _ => []

end

mutual

def Builtin.floats : Builtin σ → List Binary64
  | .float min max => min.value?.toList ++ max.value?.toList
  | .list element _ _ => element.floats
  | .integer .. | .boolean | .string .. | .enum _ | .pattern .. | .timestamp _ | .vector _ | .date
  | .uuid => []

def DatatypeRef.floats : DatatypeRef σ → List Binary64
  | .builtin type _ => type.floats
  | .named _ => []

end

def Item.IsSpelled (t : Item) : Prop :=
  t.kind.isWord = true → hasAliasShape t.text.toList = true ∧ wordKind t.text = t.kind

namespace Phrase

variable {α : Type}

/-! ## Literals -/

theorem writtenAs_stringLiteral (s : String) :
    WrittenAs StringLiteral s (Text.quoted s).toList (Text.Readable s) := by
  have hwrites : Writes (Text.quoted s).toList [(.stringLit, .ofList (Text.quoted s).toList)]
      (Text.Readable s) BreaksOff := by
    rw [String.ofList_toList]
    exact (writes_quoted s).mono Iff.rfl fun _ _ => trivial
  refine ⟨.single hwrites fun hs t hk ht => ?_, '"', ?_, by decide⟩
  · rw [String.ofList_toList] at ht
    have hvalue : stringValue t.text = s := by rw [ht, stringValue_quoted hs]
    exact hvalue ▸ .mk hk
  · rw [Text.toList_quoted]
    rfl

theorem writtenAs_stringLiterals {ss : List String} (h : ss ≠ []) :
    WrittenAs (Elements StringLiteral) ss (", ".intercalate (ss.map Text.quoted)).toList
      (∀ s ∈ ss, Text.Readable s) := by
  rw [String.toList_intercalate, List.map_map]
  induction ss with
  | nil => exact absurd rfl h
  | cons s ss ih =>
    cases ss with
    | nil =>
      rw [List.map_singleton, List.intercalate_singleton]
      exact (writtenAs_stringLiteral s).mono (by simp) fun _ hs => .one hs
    | cons s' ss =>
      have hpair := (writtenAs_stringLiteral s).pair (ih (by simp)) fun _ _ _ hs hc hss =>
        Elements.more hs hc hss
      rw [List.map_cons, List.map_cons, List.intercalate_cons_cons, List.append_assoc]
      exact hpair.mono (by simp) fun _ h => h

theorem writtenAs_patternText (s : String) :
    WrittenAs PatternText s (Text.quoted s).toList (Text.Readable s) :=
  (writtenAs_stringLiteral s).mono Iff.rfl fun _ hs => by
    cases hs with
    | mk ht => exact .string ht

/-! ## Bounds -/

theorem writtenAs_numeral {R : Phrase α} {kind : TokenKind} {cs : List Char} {a : α}
    (h : Numeral kind cs) (hR : ∀ t : Item, t.kind = kind → t.text.toList = cs → R [t] a) :
    WrittenAs R a cs True := by
  refine ⟨.single ((writes_numeral h).mono Iff.rfl fun _ hd => hd.endsNumber) fun _ t hk ht => ?_, ?_⟩
  · exact hR t hk (by rw [ht, String.toList_ofList])
  · obtain ⟨c, ds, rfl, hc⟩ := h.exists_cons
    exact ⟨c, rfl, isSpace_eq_false_of_isDigit hc, ne_of_isDigit hc rfl⟩

theorem writtenAs_underscore {R : Phrase α} {a : α}
    (hR : ∀ t : Item, t.kind = .symbol .underscore → R [t] a) : WrittenAs R a "_".toList True :=
  ⟨.symbol Symbol.punctuates_underscore hR, '_', rfl, by decide⟩

theorem writtenAs_signedBound {isNumber : TokenKind → Bool} {read : Bool → List Char → Option α}
    {write : α → String} {b : Bound α} (h : ∀ v ∈ b.value?, ∃ negative kind cs,
      (write v).toList = (if negative then ['-'] else []) ++ cs ∧ Numeral kind cs ∧
        isNumber kind = true ∧ read negative cs = some v) :
    WrittenAs (SignedBound isNumber read) b (b.text write).toList True := by
  cases b with
  | unbounded => exact writtenAs_underscore fun t ht => SignedBound.unbounded ht
  | value v =>
    obtain ⟨negative, kind, cs, htext, hcs, hkind, hread⟩ := h v rfl
    rw [Bound.text, htext]
    cases negative with
    | false => exact writtenAs_numeral hcs fun t hk ht => .unsigned (hk ▸ hkind) (ht ▸ hread)
    | true =>
      have hnumber : WrittenAs (fun us v => ∃ t : Item, us = [t] ∧ isNumber t.kind = true ∧
          read true t.text.toList = some v) v cs True :=
        writtenAs_numeral hcs fun t hk ht => ⟨t, rfl, hk ▸ hkind, ht ▸ hread⟩
      refine ⟨hnumber.spelled.behind (s := .minus) rfl (by decide) hnumber.ne_nil ?_ ?_, '-', rfl, by decide⟩
      · obtain ⟨c, ds, rfl, hc⟩ := hcs.exists_cons
        -- a digit makes no arrow of the minus
        have hdash : c ≠ '-' := ne_of_isDigit hc rfl
        have hgt : c ≠ '>' := ne_of_isDigit hc rfl
        rintro d ⟨⟩
        exact Symbol.goesOn_eq_false rfl fun t => by
          cases t <;> simp [Symbol.chars, Ne.symm hdash, Ne.symm hgt]
      · rintro s _ hs ⟨t, rfl, hk, ht⟩
        exact .minus hs hk ht

theorem writtenAs_integerBound {b : Bound Int}
    (h : ∀ v ∈ b.value?, -(signedLimit : Int) ≤ v ∧ v < signedLimit) :
    WrittenAs IntegerBound b (b.text toString).toList True := by
  refine writtenAs_signedBound fun v hv => ?_
  obtain ⟨negative, ds, htext, hds, hread⟩ := exists_readInt? (h v hv).1 (h v hv).2
  exact ⟨negative, _, ds, htext, .whole hds, rfl, hread⟩

theorem writtenAs_floatBound {b : Bound Binary64} (h : ∀ x ∈ b.value?, x.ReadsBack) :
    WrittenAs FloatBound b (b.text floatText).toList True := by
  refine writtenAs_signedBound fun x hx => ?_
  obtain ⟨negative, kind, cs, htext, hcs, hread⟩ := (h x hx).exists_numeral
  exact ⟨negative, kind, cs, htext, hcs, by cases hcs <;> rfl, hread⟩

theorem writtenAs_lengthBound {b : Bound Nat} (h : ∀ n ∈ b.value?, n < wordLimit) :
    WrittenAs LengthBound b (b.text toString).toList True := by
  cases b with
  | unbounded => exact writtenAs_underscore fun t ht => .unbounded ht
  | value n =>
    rw [Bound.text, toList_toString_nat]
    exact writtenAs_numeral (.whole (isDigits_toDigits n)) fun t hk ht =>
      .value hk (ht ▸ readNat?_toDigits (h n rfl))

/-- A range stands behind a word or a symbol, if it is not empty. -/
theorem spelledBy_range {B : Phrase (Bound α)} {le : α → α → Prop} {write : α → String}
    {min max : Bound α} (hmin : WrittenAs B min (min.text write).toList True)
    (hmax : WrittenAs B max (max.text write).toList True)
    (hle : ∀ lo hi, min = .value lo → max = .value hi → le lo hi) :
    SpelledBy (Range B le) (min, max) (rangeText write min max).toList True ∧
      ∀ d ∈ (rangeText write min max).toList.head?, BreaksOff d := by
  unfold rangeText
  split
  · rename_i hopen
    obtain ⟨rfl, rfl⟩ : min = .unbounded ∧ max = .unbounded := by
      cases min <;> cases max <;> simp_all [Bound.isUnbounded, Bound.value?]
    exact ⟨.nil .absent, by simp⟩
  · have hbounds : WrittenAs (Bounds B le) (min, max) _ (True ∧ True) :=
      hmin.pair hmax fun _ _ _ hlo hc hhi => .mk hlo hc hhi hle
    have htext : s!"[{min.text write}, {max.text write}]".toList =
        '[' :: ((min.text write).toList ++ ',' :: ' ' :: (max.text write).toList ++ [']']) := by
      show ("[" ++ min.text write ++ ", " ++ max.text write ++ "]").toList = _
      simp
    rw [htext]
    exact ⟨hbounds.brackets.mono (by simp) fun _ h => .present h, by simp; decide⟩

/-! ## Parameters -/

theorem Range.forall_mem_value? {B : Phrase (Bound α)} {le : α → α → Prop} {P : α → Prop}
    (hB : ∀ ts b, B ts b → ∀ v ∈ b.value?, P v) {ts : List Item} {min max : Bound α}
    (h : Range B le ts (min, max)) : (∀ v ∈ min.value?, P v) ∧ ∀ v ∈ max.value?, P v := by
  rcases h with _ | ⟨⟨-, ⟨hmin, -, hmax, -⟩, -⟩⟩
  · exact ⟨nofun, nofun⟩
  · exact ⟨hB _ _ hmin, hB _ _ hmax⟩

theorem range_of_integerBound {ts : List Item} {b : Bound Int} (h : IntegerBound ts b) :
    ∀ v ∈ b.value?, -(signedLimit : Int) ≤ v ∧ v < signedLimit := by
  cases h with
  | unbounded => nofun
  | unsigned _ hv | plus _ _ hv | minus _ _ hv =>
    rintro _ ⟨⟩
    exact range_of_readInt? hv

theorem lt_of_lengthBound {ts : List Item} {b : Bound Nat} (h : LengthBound ts b) :
    ∀ n ∈ b.value?, n < wordLimit := by
  cases h with
  | unbounded => nofun
  | value _ hn =>
    rintro _ ⟨⟩
    exact (readNat?_eq_some_iff.1 hn).2.2.2

theorem LengthRange.spelledBy {ts : List Item} {min max : Bound Nat} (h : LengthRange ts (min, max)) :
    SpelledBy LengthRange (min, max) (rangeText toString min max).toList True ∧
      ∀ d ∈ (rangeText toString min max).toList.head?, BreaksOff d :=
  have hlt := Range.forall_mem_value? (fun _ _ => lt_of_lengthBound) h
  spelledBy_range (writtenAs_lengthBound hlt.1) (writtenAs_lengthBound hlt.2) h.ordered

theorem Dimension.writtenAs {ts : List Item} {n : Nat} (h : Dimension ts n) :
    WrittenAs Dimension n (Nat.toDigits 10 n) True := by
  obtain ⟨-, hn, hpos⟩ := h
  have hlt := (readNat?_eq_some_iff.1 hn).2.2.2
  exact writtenAs_numeral (.whole (isDigits_toDigits n))
    fun t hk ht => .mk hk (ht ▸ readNat?_toDigits hlt) hpos

section

variable {E F : Phrase (DatatypeRef Unit)} {kind : BuiltinKind} {ts : List Item} {b : Builtin Unit}

/-- What stands behind the keyword of a datatype. -/
theorem Parameters.exists_spelledBy (hE : ∀ us d, us ⊆ ts → E us d → (∀ x ∈ d.floats, x.ReadsBack) →
      WrittenAs F d d.text.toList (∀ s ∈ d.strings, Text.Readable s))
    (h : Parameters E kind ts b) (hx : ∀ x ∈ b.floats, x.ReadsBack) :
    ∃ cs, b.text.toList = kind.text.toList ++ cs ∧ (∀ d ∈ cs.head?, BreaksOff d) ∧
      SpelledBy (Parameters F kind) b cs (∀ s ∈ b.strings, Text.Readable s) := by
  have hbracket (cs : List Char) : ∀ d ∈ ('[' :: cs).head?, BreaksOff d := by
    rintro d ⟨⟩
    decide
  cases h with
  | @integer _ min max h =>
    have hrange := Range.forall_mem_value? (fun _ _ => range_of_integerBound) h
    obtain ⟨hs, hhead⟩ := spelledBy_range (writtenAs_integerBound hrange.1)
      (writtenAs_integerBound hrange.2) h.ordered
    refine ⟨_, by rw [Builtin.text, String.toList_append]; rfl, hhead, ?_⟩
    exact hs.mono (by simp [Builtin.strings]) fun _ h => .integer h
  | @float _ min max h =>
    simp only [Builtin.floats, List.mem_append, Option.mem_toList] at hx
    obtain ⟨hs, hhead⟩ := spelledBy_range (writtenAs_floatBound fun x hmin => hx x (.inl hmin))
      (writtenAs_floatBound fun x hmax => hx x (.inr hmax)) h.ordered
    refine ⟨_, by rw [Builtin.text, String.toList_append]; rfl, hhead, ?_⟩
    exact hs.mono (by simp [Builtin.strings]) fun _ h => .float h
  | @string _ min max h =>
    obtain ⟨hs, hhead⟩ := LengthRange.spelledBy h
    refine ⟨_, by rw [Builtin.text, String.toList_append]; rfl, hhead, ?_⟩
    exact hs.mono (by simp [Builtin.strings]) fun _ h => .string h
  | boolean => exact ⟨[], rfl, nofun, (SpelledBy.nil .boolean).mono (by simp [Builtin.strings]) fun _ h => h⟩
  | date => exact ⟨[], rfl, nofun, (SpelledBy.nil .date).mono (by simp [Builtin.strings]) fun _ h => h⟩
  | uuid => exact ⟨[], rfl, nofun, (SpelledBy.nil .uuid).mono (by simp [Builtin.strings]) fun _ h => h⟩
  | @enum _ values h hlen =>
    have hne : values ≠ [] := by
      rintro rfl
      cases hlen
    have hs := (writtenAs_stringLiterals hne).brackets
    refine ⟨_, ?_, hbracket _, hs.mono (by simp [Builtin.strings]) fun _ h => .enum h hlen⟩
    simp [Builtin.text, BuiltinKind.text]
  | @pattern _ regex flags h =>
    cases flags with
    | none =>
      have hbody : WrittenAs PatternBody (regex, none) _ _ :=
        (writtenAs_patternText regex).mono Iff.rfl fun _ h => .plain h
      refine ⟨_, ?_, hbracket _, hbody.brackets.mono (by simp [Builtin.strings]) fun _ h => .pattern h⟩
      simp [Builtin.text, BuiltinKind.text]
    | some flags =>
      have hbody : WrittenAs PatternBody (regex, some flags) _ _ :=
        (writtenAs_patternText regex).pair (writtenAs_stringLiteral flags) fun _ _ _ => .flags
      refine ⟨_, ?_, hbracket _, hbody.brackets.mono (by simp [Builtin.strings]) fun _ h => .pattern h⟩
      simp [Builtin.text, BuiltinKind.text]
  | @timestamp _ format h =>
    cases format with
    | none =>
      have hnone : Parameters F .timestamp [] (.timestamp none) := .timestamp .absent
      exact ⟨[], rfl, nofun, (SpelledBy.nil hnone).mono (by simp [Builtin.strings]) fun _ h => h⟩
    | some format =>
      refine ⟨_, ?_, hbracket _, (writtenAs_stringLiteral format).brackets.mono (by simp [Builtin.strings])
        fun _ h => .timestamp (.present h)⟩
      simp [Builtin.text, BuiltinKind.text]
  | @vector _ n h =>
    obtain ⟨-, hdimension, -⟩ := h
    refine ⟨_, ?_, hbracket _, hdimension.writtenAs.brackets.mono (by simp [Builtin.strings])
      fun _ h => .vector h⟩
    simp [Builtin.text, BuiltinKind.text]
  | @list us vs d min max hl hr =>
    obtain ⟨hrange, hhead⟩ := LengthRange.spelledBy hr
    rcases hl with @⟨l, r, us, _, _, hd, _⟩
    have helement := hE us d (fun t ht => by simp [ht]) hd hx
    have hangle := helement.enclosed Symbol.punctuates_lt Symbol.punctuates_gt (by decide)
    have hlist : SpelledBy (Parameters F .list) (.list d min max) _ _ :=
      hangle.append hrange hhead fun _ _ => .list
    refine ⟨_, ?_, ?_, hlist.mono (by simp [Builtin.strings]) fun _ h => h⟩
    · simp [Builtin.text, BuiltinKind.text]
    · rintro c ⟨⟩
      decide

theorem BuiltinKind.isReserved_text (kind : BuiltinKind) :
    hasAliasShape kind.text.toList = true ∧ wordKind kind.text = .builtin kind := by
  cases kind <;> decide

/-- A datatype, with its keyword before what `F` says of its parts. -/
theorem Parameters.writtenAs {β : Type} {T : Phrase β} {x : β}
    (hE : ∀ us d, us ⊆ ts → E us d → (∀ x ∈ d.floats, x.ReadsBack) →
      WrittenAs F d d.text.toList (∀ s ∈ d.strings, Text.Readable s))
    (h : Parameters E kind ts b) (hx : ∀ x ∈ b.floats, x.ReadsBack)
    (hT : ∀ (t : Item) (us : List Item), t.kind = .builtin kind → Parameters F kind us b → T (t :: us) x) :
    WrittenAs T x b.text.toList (∀ s ∈ b.strings, Text.Readable s) := by
  obtain ⟨cs, htext, hcs, hs⟩ := h.exists_spelledBy hE hx
  obtain ⟨hshape, hkind⟩ := BuiltinKind.isReserved_text kind
  rw [htext]
  exact hs.keyed (fun d hd => (hcs d hd).1) hshape hkind fun t us ht _ => hT t us ht

end

end Phrase

open Phrase

/-! ## Datatypes -/

theorem TypeRef.Derives.writtenAs {ts : List Item} {r : TypeRef Unit} (h : TypeRef.Derives ts r)
    (hts : ∀ t ∈ ts, t.IsSpelled) : WrittenAs TypeRef.Derives r r.text.toList True := by
  cases h with
  | @plain n hn =>
    obtain ⟨hshape, hkind⟩ := hts n (by simp) (by rw [hn]; rfl)
    show WrittenAs _ _ n.text.toList True
    refine writtenAs_word hshape (hkind.trans hn) fun t ht htext => ?_
    rw [← htext]
    exact .plain ht
  | @qualified q d n hq hd hn =>
    obtain ⟨hqshape, hqkind⟩ := hts q (by simp) hq.isWord
    obtain ⟨hshape, hkind⟩ := hts n (by simp) (by rw [hn]; rfl)
    have hname : WrittenAs (fun us (_ : Unit) => ∃ t : Item, us = [t] ∧ t.kind = .upperWord ∧
        t.text = n.text) () n.text.toList True :=
      writtenAs_word hshape (hkind.trans hn) fun t ht htext => ⟨t, rfl, ht, htext⟩
    have hdot : SpelledBy (fun us (_ : Unit) => ∃ d t : Item, us = [d, t] ∧ d.kind = .symbol .dot ∧
        t.kind = .upperWord ∧ t.text = n.text) () ('.' :: n.text.toList) True := by
      refine hname.spelled.behind rfl (by decide) hname.ne_nil
        (fun c hc => Symbol.punctuates_dot.goesOn c (hname.forall_head c hc).2) ?_
      rintro d _ hd ⟨t, rfl, ht, htext⟩
      exact ⟨d, t, rfl, hd, ht, htext⟩
    have htext : (TypeRef.mk (some ⟨q.text, ()⟩) ⟨n.text, ()⟩ ()).text.toList =
        q.text.toList ++ '.' :: n.text.toList := by
      show (q.text ++ "." ++ n.text).toList = _
      simp
    rw [htext]
    refine hdot.keyed (by simp; decide) hqshape hqkind ?_
    rintro q' _ hq' hqtext ⟨d, t, rfl, hd, ht, htext⟩
    rw [← hqtext, ← htext]
    exact .qualified ⟨hq' ▸ hq.isWord, hqtext ▸ hq.check⟩ hd ht

theorem DatatypeRef.Derives.writtenAs {ts : List Item} {d : DatatypeRef Unit}
    (h : DatatypeRef.Derives ts d) (hts : ∀ t ∈ ts, t.IsSpelled)
    (hx : ∀ x ∈ d.floats, x.ReadsBack) :
    WrittenAs DatatypeRef.Derives d d.text.toList (∀ s ∈ d.strings, Text.Readable s) := by
  induction h with
  | builtin _ _ hp ih =>
    exact hp.writtenAs (fun us d hus hd => ih us d hd fun t ht => hts t (by simp [hus ht])) hx
      fun _ _ => .builtin fun _ _ h => h
  | named hr => exact (hr.writtenAs hts).mono (by simp [DatatypeRef.strings]) fun _ => .named

theorem PlacedBuiltin.writtenAs {ts : List Item} {kind : BuiltinKind} {b : Builtin Unit}
    (h : Parameters DatatypeRef.Derives kind ts b) (hts : ∀ t ∈ ts, t.IsSpelled)
    (hx : ∀ x ∈ b.floats, x.ReadsBack) :
    WrittenAs PlacedBuiltin.Derives ⟨b, ()⟩ b.text.toList (∀ s ∈ b.strings, Text.Readable s) :=
  h.writtenAs (fun _ _ hus hd => hd.writtenAs fun t ht => hts t (hus ht)) hx fun _ _ => .mk

end SchemaLang
