import SchemaLang.Proofs.Bodies
import SchemaLang.Proofs.Phrase.Reworded
import SchemaLang.Proofs.Phrase.Turns
import SchemaLang.Proofs.Slashes

/-!
# Slashes in constraints

A slash in a constraint divides or opens a regular expression. Which of them it is, the last token before
it decides when the text is cut; which of them the grammar wants there, all of the constraint before it
decides.

* `Shows stream us`: what the grammar sees of the tokens are the items `us`.
* `InConstraint before bs m cs`: behind the tokens `before` the constraint of an invariant goes on.

Main statement: both decide alike (`slash_of_constraint`), but not directly behind the message, nor behind
a keyword that names a member or a list of parameters (`not_forall_slash_of_constraint`).
-/

set_option autoImplicit false

namespace SchemaLang

/-! ## Items of a stream -/

/-- What the grammar sees of the tokens are the items `us`, comments and line breaks aside. -/
def Shows (stream : List Token) (us : List Item) : Prop :=
  us.map Item.word = (visibleTokens stream).map fun t => (t.kind, t.text)

instance (stream : List Token) (us : List Item) : Decidable (Shows stream us) :=
  inferInstanceAs (Decidable (_ = _))

theorem Invariant.Derives.reworded {ts us : List Item} {v : Invariant Unit}
    (h : Invariant.Derives true ts v) (hu : Reworded us ts) : Invariant.Derives true us v := by
  obtain ⟨hb, hm, he⟩ := h
  simp only [reworded_cons] at hu
  obtain ⟨b, _, rfl, ⟨hb', -⟩, m, vs, rfl, ⟨hm', hw⟩, hv⟩ := hu
  rw [← hw]
  exact .mk (hb'.trans hb) (hm'.trans hm) (Expr.Derives.reworded he hv)

namespace Shows

variable {stream after : List Token} {t : Token} {bs ts us : List Item}

theorem cons {s : Item} (h : Shows stream us) (hk : s.kind = t.kind) (ht : s.text = t.text)
    (hv : t.kind ≠ .endOfText) (hh : t.isHidden = false) : Shows (t :: stream) (s :: us) := by
  rw [Shows, visibleTokens_cons hv, if_neg (by simp [hh]), List.map_cons, List.map_cons, h,
    Item.word, hk, ht]

theorem append (h : Shows stream ts) (h' : Shows after us)
    (hs : ∀ t ∈ stream, t.kind ≠ .endOfText) : Shows (stream ++ after) (ts ++ us) := by
  rw [Shows, visibleTokens_append hs, List.map_append, List.map_append, h, h']

theorem endsInOperand_concat {c : Item} (h : Shows stream (us ++ [c])) :
    endsInOperand stream = c.kind.endsOperand := by
  have hlast := congrArg List.getLast? h
  rw [List.map_append, List.map_singleton, List.getLast?_concat, List.getLast?_map] at hlast
  obtain ⟨t, ht, hc⟩ := Option.map_eq_some_iff.1 hlast.symm
  rw [endsInOperand, ht, Option.any_some, show t.kind = c.kind from congrArg Prod.fst hc]

/-- An expression does not begin with a slash. -/
theorem kind_head_ne_slash {f : Expr Unit} {level : Precedence} (h : Shows stream (ts ++ us))
    (hf : Expr.Derives true false level ts f) :
    ∀ t ∈ (visibleTokens stream).head?, t.kind ≠ .symbol .slash := by
  obtain ⟨s, vs, rfl, -⟩ := hf.exists_cons
  intro t ht hk
  have hword := congrArg List.head? h
  rw [List.head?_map, List.head?_map, ht] at hword
  have hs : s.kind = t.kind := congrArg Prod.fst (Option.some.inj hword)
  have hfollows := hf.followsOperand_head s rfl
  rw [hs, hk] at hfollows
  cases hfollows

/-- The items of the stream are in the words of what it shows. Behind them is the end of the text. -/
theorem exists_itemsOf_eq (h : Shows stream us) :
    ∃ vs last, itemsOf stream = (vs ++ [last]).toArray ∧ last.kind = .endOfText ∧
      Reworded vs us := by
  obtain ⟨ps, last, hp, hl, hm⟩ := exists_placedItems_eq_append stream
  refine ⟨ps.map (·.item), last.item, by simp [itemsOf, hp], hl, ?_⟩
  rw [Reworded, h, ← hm, List.map_map, List.map_map]
  rfl

/-- An invariant that a stream shows is read, if what is behind it does not go on with it. -/
theorem exists_yields_invariant {v : Invariant Unit} (h : Shows stream (bs ++ (ts ++ us)))
    (hv : Invariant.Derives true ts v) (hu : ∀ u ∈ us.head?, u.kind.Ends .lowest) :
    ∃ w, Rule.invariant.Yields (itemsOf stream) bs.length w (bs.length + ts.length) ∧
      w.map forget = v := by
  obtain ⟨_, last, hitems, hlast, hw⟩ := h.exists_itemsOf_eq
  simp only [reworded_append] at hw
  obtain ⟨bs', _, rfl, hbs, ts', us', rfl, hts, hus⟩ := hw
  rw [← hbs.length_eq, ← hts.length_eq, hitems, ← List.append_assoc, List.append_assoc]
  have hstretch := stretch_toArray bs' ts' (us' ++ [last])
  have hends : (kindAt (bs' ++ ts' ++ (us' ++ [last])).toArray (bs'.length + ts'.length)).Ends
      .lowest := by
    cases us with
    | nil =>
      obtain rfl := reworded_nil.1 hus
      rw [kindAt_of_getElem? (t := last) (by simp), hlast]
      decide
    | cons u us =>
      obtain ⟨u', us', rfl, ⟨hk, -⟩, -⟩ := reworded_cons.1 hus
      rw [kindAt_of_getElem? (t := u') (by simp), hk]
      exact hu u rfl
  exact (Rule.exists_yields_invariant ⟨ts', hstretch, hv.reworded hts⟩ hends).2

theorem exists_yields_quotient {b m s : Item} {cs fs : List Item} {e f : Expr Unit}
    (h : Shows stream (bs ++ (b :: m :: (cs ++ s :: fs) ++ us))) (hb : b.kind = .symbol .bang)
    (hm : m.kind = .stringLit) (he : Expr.Derives true true .product cs e)
    (hs : s.kind = .symbol .slash) (hf : Expr.Derives true false .unary fs f)
    (hu : ∀ u ∈ us.head?, u.kind.Ends .lowest) :
    ∃ v, Rule.invariant.Yields (itemsOf stream) bs.length v
        (bs.length + (cs.length + fs.length + 3)) ∧
      v.map forget = ⟨stringValue m.text, .binary .divide e f (), ()⟩ := by
  have hquotient : Expr.Derives true true .ternary (cs ++ s :: fs) (.binary .divide e f ()) :=
    .binary (by decide) he hs (show Precedence.product < .unary by decide) hf
  have hlength : (b :: m :: (cs ++ s :: fs)).length = cs.length + fs.length + 3 := by
    simp only [List.length_cons, List.length_append]
    omega
  rw [← hlength]
  exact h.exists_yields_invariant (.mk hb hm hquotient) hu

end Shows

/-! ## Places in constraints -/

/-- Behind the tokens `before` the constraint of an invariant with the message `m` goes on. Of the
constraint `cs` is before that place, and `bs` is before the invariant. -/
structure InConstraint (before : List Token) (bs : List Item) (m : Item) (cs : List Item) : Prop where
  shows : ∃ b : Item, b.kind = .symbol .bang ∧ Shows before (bs ++ b :: m :: cs)
  message : m.kind = .stringLit

namespace InConstraint

variable {before : List Token} {bs cs : List Item} {m : Item}

/-- A message is taken for an operand. -/
theorem endsInOperand_message (h : InConstraint before bs m []) : endsInOperand before = true := by
  obtain ⟨⟨b, -, hs⟩, hm⟩ := h
  rw [List.append_cons] at hs
  rw [hs.endsInOperand_concat, hm]
  rfl

theorem endsInOperand_concat {c : Item} (h : InConstraint before bs m (cs ++ [c])) :
    endsInOperand before = c.kind.endsOperand := by
  obtain ⟨⟨b, -, hs⟩, -⟩ := h
  have hconcat : Shows before ((bs ++ b :: m :: cs) ++ [c]) := by simpa using hs
  exact hconcat.endsInOperand_concat

theorem endsInOperand_of_endsOperand (h : InConstraint before bs m cs) (he : Expr.EndsOperand cs)
    (ht : ∀ c ∈ cs.getLast?, c.kind.endsTail = false) : endsInOperand before = true := by
  obtain ⟨us, c, rfl, hc⟩ := he.exists_concat
  rw [h.endsInOperand_concat]
  simpa [ht c (by simp)] using hc

end InConstraint

/-! ## Single constraints -/

namespace SingleConstraint

/-- Up to the message of the only invariant. -/
def opening : String := "schema\"s\"type T\x7b!\"m\""

def text (constraint : String) : String := opening ++ constraint ++ "\x7d"

/-- How the opening is cut. -/
def openingTokens : List Token :=
  [⟨.keyword .schemaWord, "schema", 0, 6⟩, ⟨.stringLit, "\"s\"", 6, 9⟩,
    ⟨.keyword .typeWord, "type", 9, 13⟩, ⟨.blank, " ", 13, 14⟩, ⟨.upperWord, "T", 14, 15⟩,
    ⟨.symbol .lBrace, "\x7b", 15, 16⟩, ⟨.symbol .bang, "!", 16, 17⟩, ⟨.stringLit, "\"m\"", 17, 20⟩]

/-- An item without documentation, within a line. -/
abbrev item (kind : TokenKind) (text : String) : Item := ⟨kind, text, none, false⟩

/-- What is before the invariant. -/
def itemsBefore : List Item :=
  [item (.keyword .schemaWord) "schema", item .stringLit "\"s\"", item (.keyword .typeWord) "type",
    item .upperWord "T", item (.symbol .lBrace) "\x7b"]

def message : Item := item .stringLit "\"m\""

variable {c : String} {ts : List Token} {cs : List Item}

theorem toList_text (c : String) : (text c).toList = opening.toList ++ (c.toList ++ ['\x7d']) := by
  simp [text]

theorem tokens_opening (cs : List Char) : (Lexer.mk (opening.toList ++ cs) 0 false).tokens =
    openingTokens ++ (Lexer.mk cs 20 true).tokens := by
  have hopening : opening.toList = ['s', 'c', 'h', 'e', 'm', 'a', '"', 's', '"', 't', 'y', 'p', 'e',
    ' ', 'T', '\x7b', '!', '"', 'm', '"'] := by cbv
  rw [hopening]
  iterate 8 rw [Lexer.tokens_of_rest_eq_cons rfl]
  cbv

theorem tokenize_text (c : String) : (tokenize (text c)).1 =
    openingTokens ++ (Lexer.mk (c.toList ++ ['\x7d']) 20 true).tokens := by
  show (Lexer.ofText (text c)).tokens = _
  rw [Lexer.ofText, toList_text, tokens_opening]

theorem inConstraint (h : Shows ts cs) :
    InConstraint (openingTokens ++ ts) itemsBefore message cs where
  shows := by
    have hopening : Shows openingTokens (itemsBefore ++ [item (.symbol .bang) "!", message]) := by
      decide
    exact ⟨item (.symbol .bang) "!", rfl, by simpa using hopening.append h (by decide)⟩
  message := rfl

theorem slashAt {t : Token} {after : List Token} {rest : List Char}
    (hts : (Lexer.mk (c.toList ++ ['\x7d']) 20 true).tokens = ts ++ t :: after)
    (hrest : (c.toList ++ ['\x7d']).drop (t.start - 20) = '/' :: rest) (ht : 20 ≤ t.start)
    (hl : rest.head? ≠ some '/') (hb : rest.head? ≠ some '*') :
    SlashAt (text c) (openingTokens ++ ts) t rest where
  stream := ⟨after, by rw [tokenize_text, hts, List.append_assoc]⟩
  text_eq := by
    have hlength : opening.toList.length = 20 := by cbv
    rw [toList_text, List.drop_append, hlength, hrest, List.drop_eq_nil_of_le (by omega)]
    rfl
  not_line := hl
  not_block := hb

/-! Behind the message; behind a keyword that names a member; behind a list of parameters. -/

theorem slashAt_message : SlashAt (text "/x/=~a") (openingTokens ++ [])
    ⟨.symbol .slash, "/", 20, 21⟩ ['x', '/', '=', '~', 'a', '\x7d'] :=
  @slashAt _ _ _ [⟨.lowerWord, "x", 21, 22⟩, ⟨.symbol .slash, "/", 22, 23⟩,
    ⟨.symbol .matchOp, "=~", 23, 25⟩, ⟨.lowerWord, "a", 25, 26⟩, ⟨.symbol .rBrace, "\x7d", 26, 27⟩,
    Token.atEnd 27] _ (by cbv) (by cbv) (by decide) (by decide) (by decide)

theorem slashAt_member : SlashAt (text "$v.type/2")
    (openingTokens ++ [⟨.varWord, "$v", 20, 22⟩, ⟨.symbol .dot, ".", 22, 23⟩,
      ⟨.keyword .typeWord, "type", 23, 27⟩]) ⟨.invalid, "/2\x7d", 27, 30⟩ ['2', '\x7d'] :=
  @slashAt _ _ _ [Token.atEnd 30] _ (by cbv) (by cbv) (by decide) (by decide) (by decide)

theorem derives_member : Expr.Derives true true .access
    ([item .varWord "$v"] ++ [item (.symbol .dot) ".", item (.keyword .typeWord) "type"])
    (.member (.dollar "v" ()) ⟨"type", ()⟩ ()) :=
  .member (.operand (.dollar rfl)) rfl rfl

theorem value_invariant_member : (Rule.invariant (itemsOf (tokenize (text "$v.type/2")).1) 5).value.map
    (Invariant.map forget) = some ⟨"m", .member (.dollar "v" ()) ⟨"type", ()⟩ (), ()⟩ := by
  rw [tokenize_text]
  cbv

theorem slashAt_params : SlashAt (text "x->f|$a|/2")
    (openingTokens ++ [⟨.lowerWord, "x", 20, 21⟩, ⟨.symbol .arrow, "->", 21, 23⟩,
      ⟨.lowerWord, "f", 23, 24⟩, ⟨.symbol .pipe, "|", 24, 25⟩, ⟨.varWord, "$a", 25, 27⟩,
      ⟨.symbol .pipe, "|", 27, 28⟩]) ⟨.invalid, "/2\x7d", 28, 31⟩ ['2', '\x7d'] :=
  @slashAt _ _ _ [Token.atEnd 31] _ (by cbv) (by cbv) (by decide) (by decide) (by decide)

theorem derives_params : Expr.Derives true true .access
    ([item .lowerWord "x"] ++ item (.symbol .arrow) "->" :: item .lowerWord "f" ::
      ([] ++ (item (.symbol .pipe) "|" :: ([item .varWord "$a"] ++ [item (.symbol .pipe) "|"])) ++ []))
    (.pipeline (.property "x" ()) ⟨"f", ()⟩ none (some [⟨"a", ()⟩]) none ()) :=
  .pipeline (R := fun _ _ => False) (.operand (.property rfl)) rfl rfl (fun _ _ h => h.elim) .absent
    (.present (.mk rfl (.one rfl) rfl)) .absent

end SingleConstraint

/-- **Slashes in constraints.** In a constraint a slash that opens no comment divides directly behind the
message. Where the grammar takes an operand, it opens a regular expression. Where an operand has ended, it
divides, unless the operand ends with a keyword that names a member or with a list of parameters; and then,
if an operand follows, the constraint is read as the quotient, without a problem. It does not matter whether
that operand is cut into tokens as it would be behind the message. -/
theorem slash_of_constraint {text : String} {before : List Token} {t : Token} {rest : List Char}
    {bs cs : List Item} {m : Item} (h : SlashAt text before t rest)
    (hc : InConstraint before bs m cs) :
    (cs = [] → t.kind = .symbol .slash) ∧
    (cs ≠ [] → Expr.AwaitsOperand cs → OpensRegex text t) ∧
    (Expr.EndsOperand cs → (∀ c ∈ cs.getLast?, c.kind.endsTail = false) →
      t.kind = .symbol .slash) ∧
    ∀ (e f : Expr Unit) (fs us : List Item) (afterOperand : Bool),
      Expr.Derives true true .product cs e → (∀ c ∈ cs.getLast?, c.kind.endsTail = false) →
        Shows (Lexer.mk rest (t.start + 1) afterOperand).tokens (fs ++ us) →
          Expr.Derives true false .unary fs f → (∀ u ∈ us.head?, u.kind.Ends .lowest) →
            ∃ v, Rule.invariant.Yields (itemsOf (tokenize text).1) bs.length v
                (bs.length + (cs.length + fs.length + 3)) ∧
              v.map forget = ⟨stringValue m.text, .binary .divide e f (), ()⟩ := by
  refine ⟨?_, ?_, ?_, ?_⟩
  · rintro rfl
    exact (h.divides hc.endsInOperand_message).1
  · intro hne hawaits
    obtain ⟨us, c, rfl⟩ : ∃ us c, cs = us ++ [c] := by
      simpa using (List.eq_nil_or_concat cs).resolve_left hne
    exact h.opensRegex (hc.endsInOperand_concat.trans hawaits.endsOperand_eq_false)
  · intro hends htail
    exact (h.divides (hc.endsInOperand_of_endsOperand hends htail)).1
  · intro e f fs us afterOperand he htail hshows hf hus
    have hends : Expr.EndsOperand cs := he.endsOperand (by decide)
    obtain ⟨hslash, hbefore, hstream⟩ := h.divides (hc.endsInOperand_of_endsOperand hends htail)
    have hrest : Shows (Lexer.mk rest (t.start + 1) false).tokens (fs ++ us) := by
      cases afterOperand with
      | false => exact hshows
      | true => rwa [← tokens_eq_of_visible_ne_slash (hshows.kind_head_ne_slash hf)]
    obtain ⟨⟨b, hb, hbs⟩, hm⟩ := hc
    have hvisible : t.isHidden = false := by simp [Token.isHidden, hslash, TokenKind.isTrivia]
    have hshown := hrest.cons (s := ⟨t.kind, t.text, none, false⟩) rfl rfl (by simp [hslash]) hvisible
    have hall : Shows (tokenize text).1
        (bs ++ (b :: m :: (cs ++ ⟨t.kind, t.text, none, false⟩ :: fs) ++ us)) := by
      rw [hstream]
      simpa using hbs.append hshown hbefore
    exact hall.exists_yields_quotient hb hm he hslash hf hus

open SingleConstraint in
/-- `/x/ =~ a` begins with a sign, `a =~ /b/` has a regular expression, and `a / b` is read as a quotient. -/
theorem slash_of_constraint_single :
    (SlashAt (text "/x/=~a") (openingTokens ++ []) ⟨.symbol .slash, "/", 20, 21⟩
        ['x', '/', '=', '~', 'a', '\x7d'] ∧
      (⟨.symbol .slash, "/", 20, 21⟩ : Token).kind = .symbol .slash) ∧
    (SlashAt (text "a=~/b/")
        (openingTokens ++ [⟨.lowerWord, "a", 20, 21⟩, ⟨.symbol .matchOp, "=~", 21, 23⟩])
        ⟨.regexLit, "/b/", 23, 26⟩ ['b', '/', '\x7d'] ∧
      OpensRegex (text "a=~/b/") ⟨.regexLit, "/b/", 23, 26⟩) ∧
    SlashAt (text "a/b") (openingTokens ++ [⟨.lowerWord, "a", 20, 21⟩])
        ⟨.symbol .slash, "/", 21, 22⟩ ['b', '\x7d'] ∧
      ∃ v, Rule.invariant.Yields (itemsOf (tokenize (text "a/b")).1) 5 v 10 ∧
        v.map forget = ⟨"m", .binary .divide (.property "a" ()) (.property "b" ()) (), ()⟩ := by
  have regex : SlashAt (text "a=~/b/")
      (openingTokens ++ [⟨.lowerWord, "a", 20, 21⟩, ⟨.symbol .matchOp, "=~", 21, 23⟩])
      ⟨.regexLit, "/b/", 23, 26⟩ ['b', '/', '\x7d'] :=
    @slashAt _ _ _ [⟨.symbol .rBrace, "\x7d", 26, 27⟩, Token.atEnd 27] _
      (by cbv) (by cbv) (by decide) (by decide) (by decide)
  have quotient : SlashAt (text "a/b") (openingTokens ++ [⟨.lowerWord, "a", 20, 21⟩])
      ⟨.symbol .slash, "/", 21, 22⟩ ['b', '\x7d'] :=
    @slashAt _ _ _ [⟨.lowerWord, "b", 22, 23⟩, ⟨.symbol .rBrace, "\x7d", 23, 24⟩, Token.atEnd 24] _
      (by cbv) (by cbv) (by decide) (by decide) (by decide)
  have left : Expr.Derives true true .pattern [item .lowerWord "a"] (.property "a" ()) :=
    .operand (.property rfl)
  have right : Expr.Derives true false .sum [item .regexLit "/b/"] (.literal (.regex "b") ()) :=
    .operand (.regex rfl)
  have whole : Expr.Derives true true .ternary
      ([item .lowerWord "a"] ++ item (.symbol .matchOp) "=~" :: [item .regexLit "/b/"])
      (.binary .matchOp (.property "a" ()) (.literal (.regex "b") ()) ()) :=
    .binary (by decide) left rfl (show Precedence.pattern < .sum by decide) right
  have awaits : Expr.AwaitsOperand [item .lowerWord "a", item (.symbol .matchOp) "=~"] :=
    ⟨_, item .regexLit "/b/", [], _, rfl, rfl, whole⟩
  have behind : Shows (Lexer.mk ['b', '\x7d'] 22 false).tokens
      ([item .lowerWord "b"] ++ [item (.symbol .rBrace) "\x7d"]) := by cbv
  refine ⟨⟨slashAt_message, ?_⟩, ⟨regex, ?_⟩, quotient, ?_⟩
  · exact (slash_of_constraint slashAt_message (@inConstraint _ [] (by decide))).1 rfl
  · exact (slash_of_constraint regex (inConstraint (by decide))).2.1 (by decide) awaits
  · exact (slash_of_constraint quotient
      (@inConstraint _ [item .lowerWord "a"] (by decide))).2.2.2 _ _ _ _ false
      (.operand (.property rfl)) (by decide) behind (.operand (.property rfl)) (by decide)

open SingleConstraint in
/-- None of the exceptions can be left out. Behind the message, `/x/ =~ a` begins with a sign. In
`$v.type / 2` and in `x -> f |$a| / 2` the slash opens a regular expression, and the first of them is not
read as a quotient. -/
theorem not_forall_slash_of_constraint :
    (¬ ∀ (text : String) (before : List Token) (t : Token) (rest : List Char) (bs cs : List Item)
        (m : Item), SlashAt text before t rest → InConstraint before bs m cs →
      Expr.AwaitsOperand cs → OpensRegex text t) ∧
    (¬ ∀ (text : String) (before : List Token) (t : Token) (rest : List Char) (bs cs : List Item)
        (m : Item), SlashAt text before t rest → InConstraint before bs m cs →
      Expr.EndsOperand cs → (∀ c ∈ cs.getLast?, c.kind ≠ .symbol .pipe) → t.kind = .symbol .slash) ∧
    (¬ ∀ (text : String) (before : List Token) (t : Token) (rest : List Char) (bs cs : List Item)
        (m : Item), SlashAt text before t rest → InConstraint before bs m cs →
      Expr.EndsOperand cs → (∀ c ∈ cs.getLast?, c.kind.namesProperty = false) →
        t.kind = .symbol .slash) ∧
    ¬ ∀ (text : String) (before : List Token) (t : Token) (rest : List Char) (bs cs fs us : List Item)
        (m : Item) (e f : Expr Unit), SlashAt text before t rest → InConstraint before bs m cs →
      Expr.Derives true true .access cs e → Shows (Lexer.mk rest (t.start + 1) true).tokens (fs ++ us) →
        Expr.Derives true false .access fs f → (∀ u ∈ us.head?, u.kind.Ends .lowest) →
          ∃ v j, Rule.invariant.Yields (itemsOf (tokenize text).1) bs.length v j ∧
            v.map forget = ⟨stringValue m.text, .binary .divide e f (), ()⟩ := by
  have behind : Shows (Lexer.mk ['2', '\x7d'] 28 true).tokens
      ([item .integerLit "2"] ++ [item (.symbol .rBrace) "\x7d"]) := by cbv
  have two : Expr.Derives true false .access [item .integerLit "2"] (.literal (.integer 2) ()) :=
    .operand (.integer rfl (by decide))
  refine ⟨fun h => ?_, fun h => ?_, fun h => ?_, fun h => ?_⟩
  · have hregex := h _ _ _ _ _ [] _ slashAt_message (inConstraint (by decide))
      ⟨[], item .regexLit "/x/", [], _, rfl, rfl, .operand (.regex rfl)⟩
    rcases hregex with hk | ⟨hk, -⟩ <;> cases hk
  · have hslash := h _ _ _ _ _ _ _ slashAt_member (inConstraint (by decide))
      (derives_member.endsOperand (by decide)) (by decide)
    cases hslash
  · have hslash := h _ _ _ _ _ _ _ slashAt_params (inConstraint (by decide))
      (derives_params.endsOperand (by decide)) (by decide)
    cases hslash
  · obtain ⟨v, j, hv, hquotient⟩ := h _ _ _ _ _ _ _ _ _ _ _ slashAt_member (inConstraint (by decide))
      derives_member behind two (by decide)
    have hmember := value_invariant_member
    rw [show Rule.invariant _ 5 = _ from hv, Option.map_some, hquotient] at hmember
    cases hmember

end SchemaLang
