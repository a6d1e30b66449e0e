import SchemaLang.Proofs.ExprSound

/-!
# Reading what is an expression

What the grammar derives is what the rules for expressions read, if no operator, parenthesis, bar or
brace stands behind it.

* `TokenKind.Ends level`: an item of this kind continues no expression of a level.
* `Rule.ReachedBy items n limit i e k`: reading an expression comes to a position and goes on there with
  its loop over operators.
* `Rule.Reached items head level ts e`: so it does wherever the items `ts` stand.

Main statement: `Rule.reached_of_derives`, by induction on the derivation. An operand on the left is
read by the same run of the loop as the operators behind it, so what the induction says of it is not
that it is read, but that the loop comes to its end.
-/

set_option autoImplicit false

namespace SchemaLang

open SchemaLang.Phrase

structure TokenKind.Ends (level : Precedence) (k : TokenKind) : Prop where
  rank_le : (leftPrecedence k).rank ≤ level.rank
  ne_lParen : k ≠ .symbol .lParen
  ne_pipe : k ≠ .symbol .pipe
  ne_lBrace : k ≠ .symbol .lBrace

instance (level : Precedence) (k : TokenKind) : Decidable (k.Ends level) :=
  decidable_of_iff ((leftPrecedence k).rank ≤ level.rank ∧ k ≠ .symbol .lParen ∧
      k ≠ .symbol .pipe ∧ k ≠ .symbol .lBrace)
    ⟨fun ⟨h, h1, h2, h3⟩ => ⟨h, h1, h2, h3⟩, fun h => ⟨h.1, h.2, h.3, h.4⟩⟩

theorem TokenKind.Ends.mono {level level' : Precedence} {k : TokenKind} (h : k.Ends level)
    (hl : level.rank ≤ level'.rank) : k.Ends level' :=
  ⟨Nat.le_trans h.rank_le hl, h.ne_lParen, h.ne_pipe, h.ne_lBrace⟩

namespace TokenKind.Ends

variable {k : TokenKind} (h : k.Ends .lowest)

include h

theorem ne_lBracket : k ≠ .symbol .lBracket := by
  rintro rfl
  exact absurd h (by decide)

theorem ne_dot : k ≠ .symbol .dot := by
  rintro rfl
  exact absurd h (by decide)

theorem ne_slash : k ≠ .symbol .slash := by
  rintro rfl
  exact absurd h (by decide)

end TokenKind.Ends

variable {items : Items} {i j k : Nat}

namespace Rule

/-! ## The loop over operators -/

section

variable {expr : Within} {limit : Precedence} {left e : Expr Extent} {m n : Nat}

theorem yields_operators_of_le (h : (leftPrecedence (kindAt items k)).rank ≤ limit.rank) :
    (operators expr limit n left).Yields items k left k := by
  have hn : ¬ limit < leftPrecedence (kindAt items k) := Nat.not_lt.2 h
  cases n <;> simp [operators, hn]

variable (hx : ∀ p {i e j}, (expr p).Yields items i e j → Expr.ReadBy items p i (e.map forget) j)

include hx

/-- The loop ends by itself if there is a round for each item. -/
theorem yields_operators_of_size_le (hm : items.size ≤ m + k) (hn : items.size ≤ n + k)
    (h : (operators expr limit m left).Yields items k e j) :
    (operators expr limit n left).Yields items k e j := by
  induction m generalizing n k left with
  | zero =>
    simp [operators] at h
    obtain ⟨rfl, rfl⟩ := h
    apply yields_operators_of_le
    rw [kindAt_of_size_le (by omega)]
    exact Nat.zero_le _
  | succ m ih =>
    simp [operators] at h
    rcases h with ⟨hlt, e', m', he', h⟩ | ⟨hlt, rfl, rfl⟩
    · have hk : k < items.size := by
        apply lt_size_of_kindAt_ne
        intro hk
        rw [hk] at hlt
        exact Nat.not_lt_zero _ hlt
      have hkm := lt_of_yields_operatorTail hx he'
      cases n with
      | zero => omega
      | succ n =>
        simp [operators]
        exact .inl ⟨hlt, e', m', he', ih (by omega) (by omega) h⟩
    · exact yields_operators_of_le (Nat.le_of_not_lt hlt)

/-- A loop with a low limit begins with one that reads the strongest operators only. -/
theorem exists_yields_operators_unary (hl : limit.rank ≤ Precedence.unary.rank)
    (hn : items.size ≤ n + k) (h : (operators expr limit n left).Yields items k e j) :
    ∃ mid m, (operators expr .unary n left).Yields items k mid m ∧
      (operators expr limit (items.size - m) mid).Yields items m e j := by
  induction n generalizing k left with
  | zero =>
    refine ⟨left, k, by simp [operators], ?_⟩
    exact yields_operators_of_size_le hx hn (by omega) h
  | succ n ih =>
    by_cases hu : Precedence.unary < leftPrecedence (kindAt items k)
    · have hlt : limit < leftPrecedence (kindAt items k) := Nat.lt_of_le_of_lt hl hu
      simp [operators, hlt] at h
      obtain ⟨e', m', he', h⟩ := h
      have hkm := lt_of_yields_operatorTail hx he'
      obtain ⟨mid, m, hmid, hm⟩ := ih (by omega) h
      refine ⟨mid, m, ?_, hm⟩
      simp [operators, hu]
      exact ⟨e', m', he', hmid⟩
    · exact ⟨left, k, yields_operators_of_le (Nat.le_of_not_lt hu),
        yields_operators_of_size_le hx hn (by omega) h⟩

end

/-! ## Lists of expressions -/

section

variable {expr : Within} {closer : Symbol} {R : Phrase (Expr Unit)} {n : Nat}
  (hstart : ∀ ts e, R ts e → ∃ t us, ts = t :: us ∧ t.kind ≠ .symbol closer)
  (hc : closer ≠ .comma)
  (hR : ∀ {k a m}, i < k → kindAt items m = .symbol .comma ∨ kindAt items m = .symbol closer →
    At R items k a m → ∃ e, (expr .lowest).Yields items k e m ∧ e.map forget = a)

include hstart hR

theorem exists_yields_first {m : Nat} {as : List (Expr Unit)} (hm : i < m)
    (hk : kindAt items k = .symbol closer) (h : At (Elements R) items m as k) :
    ∃ e m' rest, kindAt items m ≠ .symbol closer ∧ (expr .lowest).Yields items m e m' ∧
      m ≤ m' ∧ as = e.map forget :: rest ∧
      ((rest = [] ∧ k = m') ∨
        kindAt items m' = .symbol .comma ∧ At (Listing R) items (m' + 1) rest k) := by
  obtain ⟨a, m', ha, htail⟩ := at_elements.1 h
  have hfirst : kindAt items m ≠ .symbol closer := by
    obtain ⟨ts, hts, hr⟩ := ha
    obtain ⟨t, us, rfl, ht⟩ := hstart _ _ hr
    rwa [hts.kindAt_head]
  rcases htail with ⟨rfl, rfl⟩ | ⟨hcomma, rest, hrest, rfl⟩
  · obtain ⟨e, he, rfl⟩ := hR hm (.inr hk) ha
    exact ⟨e, k, [], hfirst, he, ha.le, rfl, .inl ⟨rfl, rfl⟩⟩
  · obtain ⟨e, he, rfl⟩ := hR hm (.inl hcomma) ha
    exact ⟨e, m', rest, hfirst, he, ha.le, rfl, .inr ⟨hcomma, hrest⟩⟩

include hc

theorem exists_yields_furtherElements {m : Nat} {as : List (Expr Unit)} (hm : i ≤ m)
    (hn : items.size ≤ n + m) (hk : kindAt items k = .symbol closer)
    (h : (as = [] ∧ k = m) ∨
      kindAt items m = .symbol .comma ∧ At (Listing R) items (m + 1) as k) :
    ∃ es, (furtherElements expr closer n).Yields items m es k ∧ es.map (Expr.map forget) = as := by
  induction n generalizing m as with
  | zero =>
    rcases h with ⟨rfl, rfl⟩ | ⟨hcomma, -⟩
    · exact ⟨[], by simp [furtherElements], rfl⟩
    · simp [kindAt_of_size_le (show items.size ≤ m by omega)] at hcomma
  | succ n ih =>
    rcases h with ⟨rfl, rfl⟩ | ⟨hcomma, hl⟩
    · exact ⟨[], by simp [furtherElements, hk, hc], rfl⟩
    · rcases at_listing.1 hl with ⟨rfl, rfl⟩ | hel
      · exact ⟨[], by simp [furtherElements, hcomma, hk], rfl⟩
      · obtain ⟨e, m', rest, hfirst, he, hle, rfl, hrest⟩ :=
          exists_yields_first hstart hR (by omega) hk hel
        obtain ⟨es, hes, rfl⟩ := ih (by omega) (by omega) hrest
        refine ⟨e :: es, ?_, rfl⟩
        simp [furtherElements, hcomma, hfirst]
        exact ⟨m', he, hes⟩

theorem exists_yields_elements {opened : Nat} {what : Enclosure} {as : List (Expr Unit)}
    (hk : kindAt items k = .symbol closer) (h : At (Listing R) items (i + 1) as k) :
    ∃ es, (elements expr closer opened what).Yields items (i + 1) es (k + 1) ∧
      es.map (Expr.map forget) = as := by
  rcases at_listing.1 h with ⟨rfl, rfl⟩ | hel
  · exact ⟨[], by simp [elements, hk], rfl⟩
  · obtain ⟨e, m, rest, hfirst, he, hle, rfl, hrest⟩ :=
      exists_yields_first hstart hR (by omega) hk hel
    obtain ⟨es, hes, rfl⟩ := exists_yields_furtherElements hstart hc hR (by omega)
      (show items.size ≤ items.size - m + m by omega) hk hrest
    refine ⟨e :: es, ?_, rfl⟩
    simp [elements, hfirst]
    exact ⟨m, he, hes, hk⟩

end

/-! ## Parameters -/

theorem exists_yields_params {ps : List (Name Unit)} (h : At Expr.ParamNames items i ps k)
    (hk : kindAt items k = .symbol .pipe) :
    ∃ qs, params.Yields items i qs (k + 1) ∧ qs.map (Name.map forget) = ps := by
  obtain ⟨ts, hs, hp⟩ := h
  have further : ∃ q, kindAt items i = .varWord ∧ q = withoutDollars (itemAt items i).text ∧ 
      ∀ n, items.size ≤ n + (i + 1) → ∃ qs, (furtherParams n).Yields items (i + 1) qs k ∧
        ps = ⟨q, ()⟩ :: qs.map (Name.map forget) := by
    induction hp generalizing i with
    | one ht =>
      obtain ⟨h0, rfl⟩ := hs
      refine ⟨_, by rw [kindAt_of_getElem? h0, ht], rfl, fun n hn => ⟨[], ?_, ?_⟩⟩
      · cases n <;> simp [furtherParams, hk]
      · rw [itemAt_of_getElem? h0]
        rfl
    | more ht hc _ ih =>
      obtain ⟨h0, h1, hs⟩ := hs
      obtain ⟨q, hv, hq, hrest⟩ := ih hs
      refine ⟨_, by rw [kindAt_of_getElem? h0, ht], rfl, fun n hn => ?_⟩
      have hlt := lt_size_of_getElem? h1
      cases n with
      | zero => omega
      | succ n =>
        obtain ⟨qs, hqs, rfl⟩ := hrest n (by omega)
        refine ⟨⟨q, .single (i + 2)⟩ :: qs, ?_, ?_⟩
        · simp [furtherParams, kindAt_of_getElem? h1, hc]
          exact ⟨hv, hqs, hq⟩
        · rw [itemAt_of_getElem? h0]
          rfl
  obtain ⟨q, hv, rfl, hrest⟩ := further
  obtain ⟨qs, hqs, rfl⟩ := hrest (items.size - (i + 1)) (by omega)
  refine ⟨⟨withoutDollars (itemAt items i).text, .single i⟩ :: qs, ?_, rfl⟩
  simp [params, hv]
  exact ⟨hqs, hk⟩

/-! ## Operators with their operands -/

/-- Reading with a limit from item `i` on comes to item `k` with `e` read. -/
def ReachedBy (items : Items) (n : Nat) (limit : Precedence) (i : Nat) (e : Expr Unit) (k : Nat) :
    Prop :=
  ∃ left, left.map forget = e ∧ ∀ {a j},
    (operators (expressionWithin n) limit (items.size - k) left).Yields items k a j →
      (expressionWithin (n + 1) limit).Yields items i a j

variable {n : Nat} {limit : Precedence} {e : Expr Unit}

theorem ReachedBy.yields (h : ReachedBy items n limit i e k)
    (hk : (leftPrecedence (kindAt items k)).rank ≤ limit.rank) :
    ∃ a, (expressionWithin (n + 1) limit).Yields items i a k ∧ a.map forget = e := by
  obtain ⟨left, hleft, hreach⟩ := h
  exact ⟨left, hreach (yields_operators_of_le hk), hleft⟩

/-- An operand is reached at its end. -/
theorem reachedBy_of_yields_operand {left : Expr Extent}
    (h : (operand (expressionWithin n)).Yields items i left k) :
    ReachedBy items n limit i (left.map forget) k := by
  refine ⟨left, rfl, fun ha => ?_⟩
  simp [expressionWithin]
  exact ⟨left, k, h, ha⟩

/-- A step of the loop goes on to the end of an operator and its operands. -/
theorem ReachedBy.step {left e : Expr Unit} (h : ReachedBy items n limit i left k)
    (hlt : limit < leftPrecedence (kindAt items k))
    (htail : ∀ l, l.map forget = left → ∃ r, r.map forget = e ∧
      (operatorTail (expressionWithin n) l).Yields items k r j) :
    ReachedBy items n limit i e j := by
  have hx p {i e j} (h : (expressionWithin n p).Yields items i e j) :=
    readBy_of_yields_expressionWithin h
  obtain ⟨l, hl, hreach⟩ := h
  obtain ⟨r, hr, hyields⟩ := htail l hl
  refine ⟨r, hr, fun ha => hreach ?_⟩
  have hkj := lt_of_yields_operatorTail hx hyields
  have hk : k < items.size := by
    apply lt_size_of_kindAt_ne
    intro hk
    rw [hk] at hlt
    exact Nat.not_lt_zero _ hlt
  rw [show items.size - k = (items.size - k - 1) + 1 by omega]
  simp [operators]
  exact .inl ⟨hlt, r, j, hyields, yields_operators_of_size_le hx (by omega) (by omega) ha⟩

/-- Wherever the items `ts` stand, reading comes to their end with `e`. -/
def Reached (items : Items) (head : Bool) (level : Precedence) (ts : List Item) (e : Expr Unit) :
    Prop :=
  ∀ {n limit i k}, Stretch items i ts k → items.size ≤ n + 1 + i →
    limit.rank ≤ Precedence.unary.rank → (head = true → limit = .lowest) → limit.Fits level →
      (kindAt items k).Ends level → ReachedBy items n limit i e k

section

variable {R : Phrase (Expr Unit)} (hR : ∀ us e, R us e → Expr.Derives true true .ternary us e)
  (ih : ∀ us e, R us e → Reached items true .ternary us e) (hn : items.size ≤ n + 1 + i)

include hR ih hn

/-- What stands in brackets is read as a whole. -/
theorem exists_yields_whole {l m : Nat} (hl : i < l) (hm : (kindAt items m).Ends .lowest)
    (h : At R items l e m) :
    ∃ a, (expressionWithin n .lowest).Yields items l a m ∧ a.map forget = e := by
  obtain ⟨ts, hts, hr⟩ := h
  obtain ⟨t, us, rfl, -⟩ := (hR _ _ hr).exists_cons
  have hlt := lt_size_of_getElem? hts.1
  cases n with
  | zero => omega
  | succ n =>
    have hreach := ih _ _ hr hts (show items.size ≤ n + 1 + l by omega) (by decide) (fun _ => rfl)
      (.inl (by decide)) (hm.mono (by decide))
    exact hreach.yields hm.rank_le

theorem exists_yields_branch {l m : Nat} (hl : i < l)
    (h : At (Enclosed .lBrace .rBrace R) items l e m) :
    ∃ a, (branch (expressionWithin n)).Yields items l a m ∧ a.map forget = e := by
  obtain ⟨h0, k, he, hk, rfl⟩ := at_enclosed.1 h
  obtain ⟨a, ha, rfl⟩ := exists_yields_whole hR ih hn (by omega) (by rw [hk]; decide) he
  refine ⟨a, ?_, rfl⟩
  simp [branch, h0, and_assoc]
  exact ⟨ha, hk⟩

theorem exists_yields_elements_within {closer : Symbol} {opened l m : Nat} {what : Enclosure}
    {es : List (Expr Unit)} (hcl : closer = .rBracket ∨ closer = .rParen) (hl : i ≤ l)
    (hk : kindAt items m = .symbol closer) (h : At (Listing R) items (l + 1) es m) :
    ∃ as, (elements (expressionWithin n) closer opened what).Yields items (l + 1) as (m + 1) ∧
      as.map (Expr.map forget) = es := by
  refine exists_yields_elements ?_ (by rcases hcl with rfl | rfl <;> simp) ?_ hk h
  · intro ts e hr
    obtain ⟨t, us, rfl, hp, hb⟩ := (hR _ _ hr).exists_cons
    exact ⟨t, us, rfl, by rcases hcl with rfl | rfl <;> assumption⟩
  · intro k a m hlk hm ha
    refine exists_yields_whole hR ih hn (by omega) ?_ ha
    rcases hm with hm | hm <;> rw [hm]
    · decide
    · rcases hcl with rfl | rfl <;> decide

theorem exists_yields_optionalArguments {l m : Nat} {args : Option (List (Expr Unit))}
    (hl : i ≤ l) (hm : kindAt items m ≠ .symbol .lParen)
    (h : At (Optional (Enclosed .lParen .rParen (Listing R))) items l args m) :
    ∃ as, (optionalArguments (expressionWithin n)).Yields items l as m ∧
      as.map (List.map (Expr.map forget)) = args := by
  rcases at_optional.1 h with ⟨rfl, rfl⟩ | ⟨es, he, rfl⟩
  · exact ⟨none, by simp [optionalArguments, hm], rfl⟩
  · obtain ⟨h0, k, hes, hk, rfl⟩ := at_enclosed.1 he
    obtain ⟨as, has, rfl⟩ := exists_yields_elements_within hR ih hn (.inr rfl) hl hk hes
    refine ⟨some as, ?_, rfl⟩
    simp [optionalArguments, h0]
    exact has

theorem exists_yields_optionalBranch {l m : Nat} {body : Option (Expr Unit)} (hl : i < l)
    (hm : kindAt items m ≠ .symbol .lBrace)
    (h : At (Optional (Enclosed .lBrace .rBrace R)) items l body m) :
    ∃ b, (optionalBranch (expressionWithin n)).Yields items l b m ∧
      b.map (Expr.map forget) = body := by
  rcases at_optional.1 h with ⟨rfl, rfl⟩ | ⟨e, he, rfl⟩
  · exact ⟨none, by simp [optionalBranch, hm], rfl⟩
  · obtain ⟨h0, -⟩ := at_enclosed.1 he
    obtain ⟨a, ha, rfl⟩ := exists_yields_branch hR ih hn hl he
    refine ⟨some a, ?_, rfl⟩
    simp [optionalBranch, h0]
    exact ha

end

theorem exists_yields_optionalParams {l m : Nat} {params : Option (List (Name Unit))}
    (hm : kindAt items m ≠ .symbol .pipe)
    (h : At (Optional (Enclosed .pipe .pipe Expr.ParamNames)) items l params m) :
    ∃ ps, optionalParams.Yields items l ps m ∧ ps.map (List.map (Name.map forget)) = params := by
  rcases at_optional.1 h with ⟨rfl, rfl⟩ | ⟨qs, hq, rfl⟩
  · exact ⟨none, by simp [optionalParams, hm], rfl⟩
  · obtain ⟨h0, k, hqs, hk, rfl⟩ := at_enclosed.1 hq
    obtain ⟨ps, hps, rfl⟩ := exists_yields_params hqs hk
    refine ⟨some ps, ?_, rfl⟩
    simp [optionalParams, h0]
    exact hps

theorem yields_operatorTail_binary {expr : Within} {op : BinaryOp} {l r : Expr Extent}
    (hk : kindAt items k = op.token) (h : (expr op.precedence).Yields items (k + 1) r j) :
    (operatorTail expr l).Yields items k (.binary op l r (l.place.merge r.place)) j := by
  have hop := op.ofToken?_token
  simp [operatorTail, hk]
  cases op <;> simp only [BinaryOp.token] at hop ⊢ <;> simpa [hop] using h

theorem yields_operand_of_operand {expr : Within} {t : Item} (h0 : items[i]? = some t)
    (ht : Expr.Operand t e) : ∃ a, (operand expr).Yields items i a (i + 1) ∧ a.map forget = e := by
  have hk := kindAt_of_getElem? h0
  have hi := itemAt_of_getElem? h0
  cases ht with
  | integer h hv => exact ⟨.literal _ (.single i), by simp [operand, hi, h, hv, and_assoc], rfl⟩
  | float h hv => exact ⟨.literal _ (.single i), by simp [operand, hi, h, hv, and_assoc], rfl⟩
  | string h => exact ⟨.literal _ (.single i), by simp [operand, literal, hi, h], rfl⟩
  | regex h => exact ⟨.literal _ (.single i), by simp [operand, literal, hi, h], rfl⟩
  | true_ h => exact ⟨.literal _ (.single i), by simp [operand, literal, hk, h], rfl⟩
  | false_ h => exact ⟨.literal _ (.single i), by simp [operand, literal, hk, h], rfl⟩
  | nil h =>
    rcases h with h | h
    · exact ⟨.literal _ (.single i), by simp [operand, literal, hk, h], rfl⟩
    · exact ⟨.literal _ (.single i), by simp [operand, literal, hk, h], rfl⟩
  | dollar h => exact ⟨.dollar _ (.single i), by simp [operand, hi, h], rfl⟩
  | property h => exact ⟨.property _ (.single i), by simp [operand, hi, h], rfl⟩
  | relation h => exact ⟨.relation _ (.single i), by simp [operand, hi, h], rfl⟩
  | datatype h => exact ⟨.datatype _ (.single i), by simp [operand, hk, h], rfl⟩

theorem yields_operand_unary {expr : Within} {op : UnaryOp} {a : Expr Extent}
    (hk : kindAt items i = .symbol op.symbol)
    (hn : ¬ (op = .negate ∧ kindAt items (i + 1) = .integerLit))
    (h : (expr .unary).Yields items (i + 1) a k) :
    (operand expr).Yields items i (.unary op a ⟨i, k - 1⟩) k := by
  have hu : (unary expr op).Yields items i (.unary op a ⟨i, k - 1⟩) k := by
    simp only [unary, yields_position_bind, yields_take_bind, yields_peekKind_bind, yields_ite]
    exact .inr ⟨hn, by simpa using h⟩
  cases op <;> simpa [operand, hk, UnaryOp.symbol] using hu

/-! ## Forms of expressions -/

section

variable {head : Bool} {level : Precedence}

theorem reached_operand {t : Item} (ho : Expr.Operand t e) : Reached items head level [t] e := by
  intro n limit i k hs hn hl hh hf hk
  obtain ⟨h0, rfl⟩ := hs
  obtain ⟨a, ha, hae⟩ := yields_operand_of_operand h0 ho
  exact hae ▸ reachedBy_of_yields_operand ha

theorem reached_negative {s t : Item} {v : Int} (hs : s.kind = .symbol .minus)
    (ht : t.kind = .integerLit) (hv : readInt? true t.text.toList = some v) :
    Reached items head level [s, t] (.literal (.integer v) ()) := by
  intro n limit i k hstr hn hl hh hf hk
  obtain ⟨h0, h1, rfl⟩ := hstr
  refine ⟨.literal (.integer v) ⟨i, i + 1⟩, rfl, fun ha => ?_⟩
  obtain ⟨mid, m, hmid, hm⟩ := exists_yields_operators_unary
    (fun _ => readBy_of_yields_expressionWithin) hl (by omega) ha
  have hop : (operand (expressionWithin n)).Yields items i mid m := by
    simp [operand, unary, negativeInteger, kindAt_of_getElem? h0, kindAt_of_getElem? h1,
      itemAt_of_getElem? h1, hs, ht, and_assoc]
    exact ⟨v, hv, hmid⟩
  simp [expressionWithin]
  exact ⟨mid, m, hop, hm⟩

theorem reached_grouped {l r : Item} {ts : List Item} (hl' : l.kind = .symbol .lParen)
    (he : Expr.Derives true true .ternary ts e) (ih : Reached items true .ternary ts e)
    (hr : r.kind = .symbol .rParen) : Reached items head level (l :: (ts ++ [r])) e := by
  intro n limit i k hs hn hl hh hf hk
  obtain ⟨h0, hs⟩ := hs
  obtain ⟨m, hts, h1, rfl⟩ := stretch_append.1 hs
  have h0' := kindAt_of_getElem? h0
  have h1' := kindAt_of_getElem? h1
  obtain ⟨a, ha, rfl⟩ := exists_yields_whole (R := fun us d => us = ts ∧ d = e)
    (by rintro _ _ ⟨rfl, rfl⟩; exact he) (by rintro _ _ ⟨rfl, rfl⟩; exact ih) hn
    (Nat.lt_succ_self i) (by rw [h1', hr]; decide) ⟨ts, hts, rfl, rfl⟩
  rw [← Expr.map_forget_withPlace (⟨i, m⟩ : Extent)]
  apply reachedBy_of_yields_operand
  simp [operand, grouped, h0', hl', and_assoc]
  exact ⟨a, ha, by rw [h1', hr], rfl⟩

theorem reached_unary {s t : Item} {ts : List Item} {op : UnaryOp}
    (hu : level.rank ≤ Precedence.unary.rank) (hs : s.kind = .symbol op.symbol)
    (hne : ¬ (op = .negate ∧ t.kind = .integerLit)) (ih : Reached items false .unary (t :: ts) e) :
    Reached items head level (s :: t :: ts) (.unary op e ()) := by
  intro n limit i k hstr hn hl hh hf hk
  obtain ⟨h0, hts⟩ := hstr
  have hlt := lt_size_of_getElem? hts.1
  cases n with
  | zero => omega
  | succ n =>
    have hreach := ih hts (show items.size ≤ n + 1 + (i + 1) by omega) (Nat.le_refl _)
      (by intro h; cases h) (.inr (Nat.le_refl _)) (hk.mono hu)
    obtain ⟨a, ha, rfl⟩ := hreach.yields (Nat.le_trans hk.rank_le hu)
    refine reachedBy_of_yields_operand (yields_operand_unary ?_ ?_ ha)
    · rw [kindAt_of_getElem? h0, hs]
    · rwa [kindAt_of_getElem? hts.1]

/-- The left operand is read by the same run of the loop as the operator. -/
theorem reached_binary {stronger : Precedence} {t : Item} {ls rs : List Item} {op : BinaryOp}
    {l r : Expr Unit} (hp : level.rank ≤ op.precedence.rank)
    (ihl : Reached items head op.precedence ls l) (ht : t.kind = op.token)
    (hlt : op.precedence < stronger) (hright : Expr.Derives true false stronger rs r)
    (ihr : Reached items false stronger rs r) :
    Reached items head level (ls ++ t :: rs) (.binary op l r ()) := by
  intro n limit i j hs hn hl hh hf hk
  obtain ⟨k, hls, h0, hrs⟩ := stretch_append.1 hs
  have hranks := op.rank_precedence
  have hlt' : op.precedence.rank < stronger.rank := hlt
  have hlimit : limit.rank < op.precedence.rank := by
    rcases hf with hf | hf <;> omega
  have hkind : kindAt items k = op.token := by
    rw [kindAt_of_getElem? h0, ht]
  have hop : leftPrecedence (kindAt items k) = op.precedence := by
    rw [hkind, leftPrecedence_token]
  have hends : (kindAt items k).Ends op.precedence := by
    rw [hkind]
    cases op <;> decide
  have hle := hls.le
  refine (ihl hls hn hl hh (.inl hlimit) hends).step (by rw [hop]; exact hlimit) ?_
  rintro l rfl
  obtain ⟨u, us, rfl, -⟩ := hright.exists_cons
  have hlast := lt_size_of_getElem? hrs.1
  cases n with
  | zero => omega
  | succ n =>
    have hreach := ihr hrs (show items.size ≤ n + 1 + (k + 1) by omega) (by omega)
      (by intro h; cases h) (.inl hlt) (hk.mono (by omega))
    obtain ⟨a, ha, rfl⟩ := hreach.yields (Nat.le_trans hk.rank_le hp)
    exact ⟨_, rfl, yields_operatorTail_binary hkind ha⟩

theorem reached_member {d name : Item} {os : List Item} {o : Expr Unit}
    (ih : Reached items head .access os o) (hd : d.kind = .symbol .dot)
    (hname : isMemberName name.kind = true) :
    Reached items head level (os ++ [d, name]) (.member o ⟨name.text, ()⟩ ()) := by
  intro n limit i j hs hn hl hh hf hk
  obtain ⟨k, hos, h0, h1, rfl⟩ := stretch_append.1 hs
  have hkind : kindAt items k = .symbol .dot := by
    rw [kindAt_of_getElem? h0, hd]
  have hlimit : limit.rank < Precedence.access.rank := Nat.lt_of_le_of_lt hl (by decide)
  refine (ih hos hn hl hh (.inl hlimit) (by rw [hkind]; decide)).step
    (by rw [hkind]; exact hlimit) ?_
  rintro l rfl
  refine ⟨.member l ⟨name.text, .single (k + 1)⟩ (l.place.merge (.single (k + 1))), rfl, ?_⟩
  simp [operatorTail, hkind, member, kindAt_of_getElem? h1, itemAt_of_getElem? h1, hname]

section

variable {R : Phrase (Expr Unit)} (hR : ∀ us e, R us e → Expr.Derives true true .ternary us e)
  (ihR : ∀ us e, R us e → Reached items true .ternary us e)

include hR ihR

theorem reached_list {ts : List Item} {es : List (Expr Unit)}
    (he : Enclosed .lBracket .rBracket (Listing R) ts es) :
    Reached items head level ts (.list es ()) := by
  intro n limit i k hs hn hl hh hf hk
  obtain ⟨h0, m, hes, hm, rfl⟩ := at_enclosed.1 ⟨ts, hs, he⟩
  obtain ⟨as, has, rfl⟩ := exists_yields_elements_within hR ihR hn (.inl rfl) (Nat.le_refl i) hm
    hes
  have hop : (operand (expressionWithin n)).Yields items i (.list as ⟨i, m⟩) (m + 1) := by
    simp [operand, list, h0]
    exact has
  simpa only [Expr.map, Expr.mapAll_eq_map] using reachedBy_of_yields_operand hop

theorem reached_ternary {q c : Item} {cs ts es : List Item} {cond t e : Expr Unit}
    (hq : head = true ∨ level.rank ≤ Precedence.ternary.rank)
    (ih : Reached items head .ternary cs cond) (hquestion : q.kind = .symbol .question)
    (ht : Enclosed .lBrace .rBrace R ts t) (hc : c.kind = .symbol .colon)
    (he : Enclosed .lBrace .rBrace R es e) :
    Reached items head level (cs ++ q :: (ts ++ c :: es)) (.ternary cond t e ()) := by
  intro n limit i j hs hn hl hh hf hk
  obtain ⟨k, hcs, h0, hs⟩ := stretch_append.1 hs
  obtain ⟨m, hts, h1, hes⟩ := stretch_append.1 hs
  have hkind : kindAt items k = .symbol .question := by
    rw [kindAt_of_getElem? h0, hquestion]
  have hlimit : limit = .lowest := by
    rcases hq with hq | hq
    · exact hh hq
    · cases limit <;> rcases hf with hf | hf <;> simp_all [Precedence.rank] <;> omega
  subst hlimit
  have hle := hcs.le
  have hle' := hts.le
  refine (ih hcs hn hl hh (.inl (by decide)) (by rw [hkind]; decide)).step
    (by rw [hkind]; decide) ?_
  rintro l rfl
  obtain ⟨a, ha, rfl⟩ := exists_yields_branch hR ihR hn (by omega) ⟨ts, hts, ht⟩
  obtain ⟨b, hb, rfl⟩ := exists_yields_branch hR ihR hn (by omega) ⟨es, hes, he⟩
  refine ⟨.ternary l a b (l.place.merge ⟨j - 1, j - 1⟩), rfl, ?_⟩
  simp [operatorTail, hkind, ternary, and_assoc]
  exact ⟨m, ha, by rw [kindAt_of_getElem? h1, hc], hb⟩

theorem reached_index {os ts : List Item} {o : Expr Unit} {es : List (Expr Unit)}
    (ih : Reached items head .access os o) (he : Enclosed .lBracket .rBracket (Elements R) ts es) :
    Reached items head level (os ++ ts) (.index o es ()) := by
  intro n limit i j hs hn hl hh hf hk
  obtain ⟨k, hos, hts⟩ := stretch_append.1 hs
  obtain ⟨hkind, m, hes, hm, rfl⟩ := at_enclosed.1 ⟨ts, hts, he⟩
  have hlimit : limit.rank < Precedence.access.rank := Nat.lt_of_le_of_lt hl (by decide)
  refine (ih hos hn hl hh (.inl hlimit) (by rw [hkind]; decide)).step
    (by rw [hkind]; exact hlimit) ?_
  rintro l rfl
  obtain ⟨as, has, rfl⟩ := exists_yields_elements_within hR ihR hn (.inl rfl) hos.le hm
    (at_listing.2 (.inr hes))
  refine ⟨.index l as (l.place.merge (.single m)), by simp [Expr.map, Expr.mapAll_eq_map], ?_⟩
  obtain ⟨_, _, hne⟩ := hes
  have hne : as ≠ [] := by simpa using hne.ne_nil
  simp [operatorTail, hkind, index]
  exact ⟨has, hne⟩

theorem reached_pipeline {a f : Item} {ss as ps bs : List Item} {s : Expr Unit}
    {args : Option (List (Expr Unit))} {params : Option (List (Name Unit))} {body : Option (Expr Unit)}
    (ih : Reached items head .access ss s) (ha : a.kind = .symbol .arrow)
    (hname : isFunctionName f.kind = true)
    (has : Optional (Enclosed .lParen .rParen (Listing R)) as args)
    (hps : Optional (Enclosed .pipe .pipe Expr.ParamNames) ps params)
    (hbs : Optional (Enclosed .lBrace .rBrace R) bs body) :
    Reached items head level (ss ++ a :: f :: (as ++ ps ++ bs))
      (.pipeline s ⟨f.text, ()⟩ args params body ()) := by
  intro n limit i j hstr hn hl hh hf hk
  obtain ⟨k, hss, h0, h1, htail⟩ := stretch_append.1 hstr
  obtain ⟨m', htail, hbody⟩ := stretch_append.1 htail
  obtain ⟨m, hargs, hparams⟩ := stretch_append.1 htail
  have hkind : kindAt items k = .symbol .arrow := by
    rw [kindAt_of_getElem? h0, ha]
  have hlimit : limit.rank < Precedence.access.rank := Nat.lt_of_le_of_lt hl (by decide)
  have hle := hss.le
  have hle1 := hargs.le
  have hle2 := hparams.le
  have hm' : kindAt items m' ≠ .symbol .lParen ∧ kindAt items m' ≠ .symbol .pipe := by
    rcases at_optional.1 ⟨bs, hbody, hbs⟩ with ⟨-, rfl⟩ | ⟨b, hb, -⟩
    · exact ⟨hk.ne_lParen, hk.ne_pipe⟩
    · simp [(at_enclosed.1 hb).1]
  have hm : kindAt items m ≠ .symbol .lParen := by
    rcases at_optional.1 ⟨ps, hparams, hps⟩ with ⟨-, rfl⟩ | ⟨b, hb, -⟩
    · exact hm'.1
    · simp [(at_enclosed.1 hb).1]
  refine (ih hss hn hl hh (.inl hlimit) (by rw [hkind]; decide)).step
    (by rw [hkind]; exact hlimit) ?_
  rintro l rfl
  obtain ⟨args, hargs, rfl⟩ := exists_yields_optionalArguments hR ihR hn (by omega) hm
    ⟨as, hargs, has⟩
  obtain ⟨params, hparams, rfl⟩ := exists_yields_optionalParams hm'.2 ⟨ps, hparams, hps⟩
  obtain ⟨body, hbody, rfl⟩ := exists_yields_optionalBranch hR ihR hn (by omega) hk.ne_lBrace
    ⟨bs, hbody, hbs⟩
  refine ⟨.pipeline l ⟨f.text, .single (k + 1)⟩ args params body
    (l.place.merge (.single (j - 1))), ?_, ?_⟩
  · simp [Expr.map, Expr.mapArgs_eq_map, Expr.mapBody_eq_map, Name.map, forget]
  · simp [operatorTail, hkind, pipeline, kindAt_of_getElem? h1, itemAt_of_getElem? h1, hname,
      and_assoc]
    exact ⟨m, hargs, m', hparams, hbody⟩

end

end

/-- **Completeness.** A left operand is reached by the run of the loop that reads its operator. -/
theorem reached_of_derives {head : Bool} {level : Precedence} {ts : List Item}
    (h : Expr.Derives true head level ts e) : Reached items head level ts e := by
  induction h with
  | operand ho => exact reached_operand ho
  | negative hs ht hv => exact reached_negative hs ht hv
  | grouped hl he hr ih => exact reached_grouped hl he ih hr
  | list hR he ih => exact reached_list hR ih he
  | unary hu hs hn _ ih => exact reached_unary hu hs hn ih
  | binary hp _ ht hlt hr ihl ihr => exact reached_binary hp ihl ht hlt hr ihr
  | ternary hq _ hs hR ht hc he ihc ih => exact reached_ternary hR ih hq ihc hs ht hc he
  | member _ hd hn ih => exact reached_member ih hd hn
  | index _ hR he ih ihR => exact reached_index hR ihR ih he
  | pipeline _ ha hf hR has hps hbs ih ihR =>
    exact reached_pipeline hR ihR ih ha hf has hps hbs

/-- A derivation is read as a whole. -/
theorem exists_yields_expression (h : At (Expr.Derives true true .ternary) items i e j)
    (hj : (kindAt items j).Ends .lowest) :
    ∃ a, expression.Yields items i a j ∧ a.map forget = e := by
  obtain ⟨ts, hts, hd⟩ := h
  obtain ⟨t, us, rfl, -⟩ := hd.exists_cons
  have hlt := lt_size_of_getElem? hts.1
  obtain ⟨n, hn⟩ : ∃ n, items.size - i = n + 1 := ⟨items.size - i - 1, by omega⟩
  have hreach := reached_of_derives hd hts (show items.size ≤ n + 1 + i by omega) (by decide)
    (fun _ => rfl) (.inl (by decide)) (hj.mono (by decide))
  obtain ⟨a, ha, hae⟩ := hreach.yields hj.rank_le
  refine ⟨a, ?_, hae⟩
  simp only [expression, yields_remaining_bind, hn]
  exact ha

end Rule

end SchemaLang
