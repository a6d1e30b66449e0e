import SchemaLang.Proofs.Datatypes
import SchemaLang.Proofs.Phrase.Expr

/-!
# What is read as an expression

What the rules for expressions read without a problem is what the grammar derives.

* `Precedence.Fits limit level`: an expression of a level may be read with a limit.
* `Expr.ReadBy limit`: what is read with a limit is an expression of a level that fits, and the item
  behind it is no operator stronger than the limit.

Main statement: `readBy_of_yields_expressionWithin`. The invariant of the loop over operators is that
the next operator is not stronger than the level of the expression read so far.
-/

set_option autoImplicit false

namespace SchemaLang

open SchemaLang.Phrase

/-- Whether operands of a level may be read with a limit. Prefix operators are read with any. -/
def Precedence.Fits (limit level : Precedence) : Prop :=
  limit.rank < level.rank ∨ Precedence.unary.rank ≤ level.rank

variable {items : Items} {i j k : Nat}

/-- Only at the lowest limit nothing of an expression stands before. -/
def Precedence.isHead (limit : Precedence) : Bool := limit == .lowest

structure Expr.ReadBy (items : Items) (limit : Precedence) (i : Nat) (e : Expr Unit) (j : Nat) :
    Prop where
  derives : ∃ level, limit.Fits level ∧ At (Derives true limit.isHead level) items i e j
  ends : (leftPrecedence (kindAt items j)).rank ≤ limit.rank

/-- With the lowest limit, a whole expression is read. -/
theorem Expr.ReadBy.whole {e : Expr Unit} (h : Expr.ReadBy items .lowest i e j) :
    At (Expr.Derives true true .ternary) items i e j := by
  obtain ⟨level, hf, hd⟩ := h.derives
  refine hd.imp fun ts e he => he.mono (fun h => h) ?_
  rcases hf with hf | hf <;> simp only [Precedence.rank] at * <;> omega

namespace Rule

/-! ## Further entries -/

/-- Behind an entry, further ones make up a list with it. -/
theorem at_of_yields_further {α β : Type} {P : Phrase β} {f : α → β} {ends : TokenKind → Prop}
    [DecidablePred ends] {entry : Rule α} {n : Nat} {b : β} {as : List α}
    (hP : ∀ {i a j}, entry.Yields items i a j → At P items i (f a) j) (hb : At P items k b i)
    (h : (further ends entry n).Yields items i as j) : At (Elements P) items k (b :: as.map f) j := by
  induction n generalizing i k b as with
  | zero =>
    simp [further] at h
    obtain ⟨rfl, rfl⟩ := h
    exact at_elements.2 ⟨b, _, hb, .inl ⟨rfl, rfl⟩⟩
  | succ n ih =>
    simp [further] at h
    rcases h with ⟨hc, ⟨-, rfl, rfl⟩ | ⟨-, a, m, ha, rest, hrest, rfl⟩⟩ | ⟨-, rfl, rfl⟩
    · exact at_elements.2 ⟨b, i, hb, .inr ⟨hc, [], at_listing.2 (.inl ⟨rfl, rfl⟩), rfl⟩⟩
    · have := ih (hP ha) hrest
      exact at_elements.2 ⟨b, i, hb, .inr ⟨hc, _, at_listing.2 (.inr this), rfl⟩⟩
    · exact at_elements.2 ⟨b, _, hb, .inl ⟨rfl, rfl⟩⟩

section

variable {expr : Within} {closer : Symbol} {R : Phrase (Expr Unit)}

/-! ## Lists of expressions -/

theorem at_of_yields_elements {opened : Nat} {what : Enclosure} {es : List (Expr Extent)}
    (hR : ∀ {i e j}, (expr .lowest).Yields items i e j → At R items i (e.map forget) j)
    (h : (elements expr closer opened what).Yields items i es j) :
    ∃ k, At (Listing R) items i (es.map (Expr.map forget)) k ∧ kindAt items k = .symbol closer ∧
      j = k + 1 := by
  simp [elements, and_assoc] at h
  rcases h with ⟨hc, rfl, rfl⟩ | ⟨-, e, m, he, es, k, hes, hc, rfl, rfl⟩
  · exact ⟨i, at_listing.2 (.inl ⟨rfl, rfl⟩), hc, rfl⟩
  · rw [furtherElements_eq] at hes
    exact ⟨k, at_listing.2 (.inr (at_of_yields_further hR (hR he) hes)), hc, rfl⟩

theorem at_of_yields_branch {e : Expr Extent}
    (hR : ∀ {i e j}, (expr .lowest).Yields items i e j → At R items i (e.map forget) j)
    (h : (branch expr).Yields items i e j) :
    At (Enclosed .lBrace .rBrace R) items i (e.map forget) j := by
  simp [branch, and_assoc] at h
  obtain ⟨h0, k, hd, hr, rfl⟩ := h
  exact at_enclosed.2 ⟨h0, k, hR hd, hr, rfl⟩

/-! ## Parameters -/

theorem at_of_yields_params {ps : List (Name Extent)} (h : params.Yields items i ps j) :
    ∃ k, At Expr.ParamNames items i (ps.map (Name.map forget)) k ∧
      kindAt items k = .symbol .pipe ∧ j = k + 1 := by
  have further {n i j : Nat} {ps : List (Name Extent)} (hi : kindAt items i = .varWord)
      (h : (furtherParams n).Yields items (i + 1) ps j) :
      At Expr.ParamNames items i
        (⟨withoutDollars (itemAt items i).text, ()⟩ :: ps.map (Name.map forget)) j := by
    induction n generalizing i ps with
    | zero =>
      simp [furtherParams] at h
      obtain ⟨rfl, rfl⟩ := h
      exact ⟨_, stretch_of_kindAt hi (by simp), .one hi⟩
    | succ n ih =>
      simp [furtherParams, and_assoc] at h
      rcases h with ⟨hc, hp, rest, hrest, rfl⟩ | ⟨-, rfl, rfl⟩
      · obtain ⟨us, hs, hps⟩ := ih hp hrest
        exact ⟨_, .cons hi (by simp) (.cons hc (by simp) hs), .more hi hc hps⟩
      · exact ⟨_, stretch_of_kindAt hi (by simp), .one hi⟩
  simp [params, and_assoc] at h
  obtain ⟨hp, ps, k, hps, hc, rfl, rfl⟩ := h
  exact ⟨k, further hp hps, hc, rfl⟩

/-! ## Operators -/

section

variable (hx : ∀ p {i e j}, (expr p).Yields items i e j → Expr.ReadBy items p i (e.map forget) j)

include hx

omit hx in
theorem at_of_yields_optionalArguments {args : Option (List (Expr Extent))}
    (hR : ∀ {i e j}, (expr .lowest).Yields items i e j → At R items i (e.map forget) j)
    (h : (optionalArguments expr).Yields items i args j) :
    At (Optional (Enclosed .lParen .rParen (Listing R))) items i
      (args.map (List.map (Expr.map forget))) j := by
  simp [optionalArguments] at h
  rcases h with ⟨h0, es, hes, rfl⟩ | ⟨-, rfl, rfl⟩
  · obtain ⟨k, hl, hc, rfl⟩ := at_of_yields_elements hR hes
    exact at_optional.2 (.inr ⟨_, at_enclosed.2 ⟨h0, k, hl, hc, rfl⟩, rfl⟩)
  · exact at_optional.2 (.inl ⟨rfl, rfl⟩)

omit hx in
theorem at_of_yields_optionalParams {ps : Option (List (Name Extent))}
    (h : optionalParams.Yields items i ps j) :
    At (Optional (Enclosed .pipe .pipe Expr.ParamNames)) items i
      (ps.map (List.map (Name.map forget))) j := by
  simp [optionalParams] at h
  rcases h with ⟨h0, ps, hps, rfl⟩ | ⟨-, rfl, rfl⟩
  · obtain ⟨k, hl, hc, rfl⟩ := at_of_yields_params hps
    exact at_optional.2 (.inr ⟨_, at_enclosed.2 ⟨h0, k, hl, hc, rfl⟩, rfl⟩)
  · exact at_optional.2 (.inl ⟨rfl, rfl⟩)

omit hx in
theorem at_of_yields_optionalBranch {body : Option (Expr Extent)}
    (hR : ∀ {i e j}, (expr .lowest).Yields items i e j → At R items i (e.map forget) j)
    (h : (optionalBranch expr).Yields items i body j) :
    At (Optional (Enclosed .lBrace .rBrace R)) items i (body.map (Expr.map forget)) j := by
  simp [optionalBranch] at h
  rcases h with ⟨-, e, he, rfl⟩ | ⟨-, rfl, rfl⟩
  · exact at_optional.2 (.inr ⟨_, at_of_yields_branch hR he, rfl⟩)
  · exact at_optional.2 (.inl ⟨rfl, rfl⟩)

theorem at_of_yields_pipeline {head : Bool} {level : Precedence} {s e : Expr Extent}
    (hs : At (Expr.Derives true head .access) items i (s.map forget) k)
    (ha : kindAt items k = .symbol .arrow) (h : (pipeline expr s).Yields items (k + 1) e j) :
    At (Expr.Derives true head level) items i (e.map forget) j := by
  simp [pipeline, and_assoc] at h
  obtain ⟨hf, args, m, hargs, ps, m', hps, body, hbody, rfl⟩ := h
  have whole {i e j} (h : (expr .lowest).Yields items i e j) := (hx _ h).whole
  obtain ⟨ts, hts, hd⟩ := hs
  obtain ⟨as, has, hda⟩ := at_of_yields_optionalArguments whole hargs
  obtain ⟨us, hus, hdu⟩ := at_of_yields_optionalParams hps
  obtain ⟨bs, hbs, hdb⟩ := at_of_yields_optionalBranch whole hbody
  have hname : kindAt items (k + 1) ≠ .endOfText := TokenKind.ne_of_allowed hf rfl
  have htail := Stretch.cons ha (by simp) (.cons rfl hname ((has.append hus).append hbs))
  simp only [Expr.map, Expr.mapArgs_eq_map, Expr.mapBody_eq_map]
  exact ⟨_, hts.append htail, .pipeline hd ha hf (fun _ _ h => h) hda hdu hdb⟩

theorem lt_of_yields_operatorTail {left e : Expr Extent}
    (h : (operatorTail expr left).Yields items k e j) : k < j := by
  have whole {i e j} (h : (expr .lowest).Yields items i e j) := (hx _ h).whole
  simp [operatorTail] at h
  split at h
  · simp [ternary, and_assoc] at h
    obtain ⟨t, m, ht, -, f, hf, -⟩ := h
    have h1 := (at_of_yields_branch whole ht).le
    have h2 := (at_of_yields_branch whole hf).le
    omega
  · simp [member, and_assoc] at h
    omega
  · simp [index] at h
    obtain ⟨es, hes, -, -⟩ := h
    obtain ⟨m, hl, -, rfl⟩ := at_of_yields_elements whole hes
    have := hl.le
    omega
  · simp [pipeline, and_assoc] at h
    obtain ⟨-, args, m, hargs, ps, m', hps, body, hbody, -⟩ := h
    have h1 := (at_of_yields_optionalArguments whole hargs).le
    have h2 := (at_of_yields_optionalParams hps).le
    have h3 := (at_of_yields_optionalBranch whole hbody).le
    omega
  · split at h
    · simp at h
      obtain ⟨right, hright, -⟩ := h
      obtain ⟨level, -, hr⟩ := (hx _ hright).derives
      have := hr.le
      omega
    · simp at h
      omega

theorem at_of_yields_ternary {head : Bool} {level : Precedence} {c e : Expr Extent} (hh : head = true)
    (hc : At (Expr.Derives true head .ternary) items i (c.map forget) k)
    (hk : kindAt items k = .symbol .question) (h : (ternary expr c).Yields items (k + 1) e j) :
    At (Expr.Derives true head level) items i (e.map forget) j := by
  simp [ternary, and_assoc] at h
  obtain ⟨t, m, ht, hcolon, f, hf, rfl⟩ := h
  have whole {i e j} (h : (expr .lowest).Yields items i e j) := (hx _ h).whole
  obtain ⟨ts, hts, hd⟩ := hc
  obtain ⟨us, hus, hdt⟩ := at_of_yields_branch whole ht
  obtain ⟨vs, hvs, hdf⟩ := at_of_yields_branch whole hf
  have htail := Stretch.cons hk (by simp) (hus.append (.cons hcolon (by simp) hvs))
  exact ⟨_, hts.append htail, .ternary (.inl hh) hd hk (fun _ _ h => h) hdt hcolon hdf⟩

omit hx in
theorem at_of_yields_member {head : Bool} {level : Precedence} {o e : Expr Extent}
    (ho : At (Expr.Derives true head .access) items i (o.map forget) k)
    (hk : kindAt items k = .symbol .dot) (h : (member o).Yields items (k + 1) e j) :
    At (Expr.Derives true head level) items i (e.map forget) j := by
  simp [member, and_assoc] at h
  obtain ⟨hn, rfl, rfl⟩ := h
  obtain ⟨ts, hts, hd⟩ := ho
  have htail := Stretch.cons hk (by simp) (stretch_of_kindAt rfl (TokenKind.ne_of_allowed hn rfl))
  exact ⟨_, hts.append htail, .member hd hk hn⟩

theorem at_of_yields_index {head : Bool} {level : Precedence} {o e : Expr Extent} {opened : Nat}
    (ho : At (Expr.Derives true head .access) items i (o.map forget) k)
    (hk : kindAt items k = .symbol .lBracket) (h : (index expr o opened).Yields items (k + 1) e j) :
    At (Expr.Derives true head level) items i (e.map forget) j := by
  simp [index] at h
  obtain ⟨es, hes, hne, rfl⟩ := h
  obtain ⟨m, hlist, hc, rfl⟩ := at_of_yields_elements (fun h => (hx _ h).whole) hes
  obtain ⟨ts, hts, hd⟩ := ho
  rcases at_listing.1 hlist with ⟨he, -⟩ | helems
  · simp [hne] at he
  · obtain ⟨us, hus, hdi⟩ := at_enclosed.2 ⟨hk, m, helems, hc, rfl⟩
    simp only [Expr.map, Expr.mapAll_eq_map]
    exact ⟨_, hts.append hus, .index hd (fun _ _ h => h) hdi⟩

omit hx in
/-- The right operand binds more strongly than the operator, so operators of one level associate to the
left. -/
theorem at_binary_of_readBy {head : Bool} {op : BinaryOp} {l r : Expr Unit}
    (hl : At (Expr.Derives true head op.precedence) items i l k) (hk : kindAt items k = op.token)
    (hr : Expr.ReadBy items op.precedence (k + 1) r j) :
    At (Expr.Derives true head op.precedence) items i (.binary op l r ()) j := by
  obtain ⟨ts, hts, hdl⟩ := hl
  obtain ⟨stronger, hfits, us, hus, hdr⟩ := hr.derives
  have hnot : op.precedence.isHead = false := by
    cases op <;> rfl
  have hlt : op.precedence < stronger := by
    have hranks := op.rank_precedence
    show op.precedence.rank < stronger.rank
    rcases hfits with h | h <;> omega
  have hne : kindAt items k ≠ .endOfText := by
    rw [hk]
    cases op <;> simp [BinaryOp.token]
  rw [hnot] at hdr
  exact ⟨_, hts.append (.cons rfl hne hus), .binary (Nat.le_refl _) hdl hk hlt hdr⟩

/-- One more operator. -/
theorem at_of_yields_operatorTail {head : Bool} {level : Precedence} {left e : Expr Extent}
    (hl : At (Expr.Derives true head level) items i (left.map forget) k)
    (hle : (leftPrecedence (kindAt items k)).rank ≤ level.rank)
    (hlow : leftPrecedence (kindAt items k) ≠ .lowest)
    (hh : leftPrecedence (kindAt items k) = .ternary → head = true)
    (h : (operatorTail expr left).Yields items k e j) :
    ∃ level', At (Expr.Derives true head level') items i (e.map forget) j ∧
      (leftPrecedence (kindAt items k)).rank ≤ level'.rank ∧
      (leftPrecedence (kindAt items j)).rank ≤ level'.rank := by
  replace hl : At (Expr.Derives true head (leftPrecedence (kindAt items k))) items i
      (left.map forget) k := hl.imp fun _ _ hd => hd.mono (fun h => h) hle
  -- with an operator that is not binary, an expression is of each level
  have access (h : At (Expr.Derives true head .access) items i (e.map forget) j) :
      ∃ level', At (Expr.Derives true head level') items i (e.map forget) j ∧
        (leftPrecedence (kindAt items k)).rank ≤ level'.rank ∧
        (leftPrecedence (kindAt items j)).rank ≤ level'.rank :=
    ⟨.access, h, rank_leftPrecedence_le _, rank_leftPrecedence_le _⟩
  simp [operatorTail] at h
  split at h
  case h_1 hk =>
    rw [hk] at hl hh
    exact access (at_of_yields_ternary hx (hh rfl) hl hk h)
  case h_2 hk =>
    rw [hk] at hl
    exact access (at_of_yields_member hl hk h)
  case h_3 hk =>
    rw [hk] at hl
    exact access (at_of_yields_index hx hl hk h)
  case h_4 hk =>
    rw [hk] at hl
    exact access (at_of_yields_pipeline hx hl hk h)
  case h_5 =>
    split at h
    · rename_i op hop
      simp at h
      obtain ⟨right, hright, rfl⟩ := h
      have hk := (BinaryOp.token_of_ofToken? hop).symm
      have hr := hx _ hright
      rw [hk, leftPrecedence_token] at hl ⊢
      exact ⟨op.precedence, at_binary_of_readBy hl hk hr, Nat.le_refl _, hr.ends⟩
    · rename_i hnone
      exfalso
      apply hlow
      simp only [leftPrecedence, infixInfo?]
      split
      · rename_i info hinfo
        simp [hnone] at hinfo
      · rfl

/-- The loop ends before an operator that is too weak. -/
theorem readBy_of_yields_operators {limit level : Precedence} {head : Bool} {n : Nat}
    {left e : Expr Extent} (hn : items.size ≤ n + k) (hfits : limit.Fits level)
    (hl : At (Expr.Derives true head level) items i (left.map forget) k)
    (hle : (leftPrecedence (kindAt items k)).rank ≤ level.rank)
    (hh : limit = .lowest → head = true)
    (h : (operators expr limit n left).Yields items k e j) :
    (∃ level', limit.Fits level' ∧ At (Expr.Derives true head level') items i (e.map forget) j ∧
      (leftPrecedence (kindAt items j)).rank ≤ level'.rank) ∧
      (leftPrecedence (kindAt items j)).rank ≤ limit.rank := by
  induction n generalizing level k left with
  | zero =>
    simp [operators] at h
    obtain ⟨rfl, rfl⟩ := h
    refine ⟨⟨level, hfits, hl, hle⟩, ?_⟩
    rw [kindAt_of_size_le (by omega)]
    exact Nat.zero_le _
  | succ n ih =>
    simp [operators] at h
    rcases h with ⟨hlt, e', m, he', h⟩ | ⟨hlt, rfl, rfl⟩
    · have hlt' : limit.rank < (leftPrecedence (kindAt items k)).rank := hlt
      have hlow : leftPrecedence (kindAt items k) ≠ .lowest := by
        intro he
        simp [he, Precedence.rank] at hlt'
      have hternary : leftPrecedence (kindAt items k) = .ternary → head = true := by
        intro he
        apply hh
        rw [he] at hlt'
        cases limit <;> simp_all [Precedence.rank]
      obtain ⟨level', hd, hge, hle'⟩ := at_of_yields_operatorTail hx hl hle hlow hternary he'
      have hkm := lt_of_yields_operatorTail hx he'
      exact ih (by omega) (.inl (by omega)) hd hle' h
    · exact ⟨⟨level, hfits, hl, hle⟩, Nat.le_of_not_lt hlt⟩

/-! ## Operands -/

theorem at_of_yields_negativeInteger {head : Bool} {e : Expr Extent}
    (hk : kindAt items i = .symbol .minus) (ht : kindAt items (i + 1) = .integerLit)
    (h : (negativeInteger expr i).Yields items (i + 1) e j) :
    At (Expr.Derives true head .unary) items i (e.map forget) j ∧
      (leftPrecedence (kindAt items j)).rank ≤ Precedence.unary.rank := by
  simp [negativeInteger, and_assoc] at h
  obtain ⟨v, hv, h⟩ := h
  have hl : At (Expr.Derives true head .access) items i
      ((Expr.literal (.integer v) (⟨i, i + 1⟩ : Extent)).map forget) (i + 2) :=
    ⟨_, .cons hk (by simp) (stretch_of_kindAt ht (by simp)), .negative hk ht hv⟩
  obtain ⟨⟨level, hf, hd, -⟩, hend⟩ := readBy_of_yields_operators hx (by omega)
    (.inr (by decide)) hl (rank_leftPrecedence_le _) (by intro h; cases h) h
  refine ⟨hd.imp fun ts e he => he.mono (fun h => h) ?_, hend⟩
  rcases hf with hf | hf <;> simp only [Precedence.rank] at * <;> omega

theorem at_of_yields_unary {head : Bool} {op : UnaryOp} {e : Expr Extent}
    (hk : kindAt items i = .symbol op.symbol) (h : (unary expr op).Yields items i e j) :
    At (Expr.Derives true head .unary) items i (e.map forget) j ∧
      (leftPrecedence (kindAt items j)).rank ≤ Precedence.unary.rank := by
  simp [unary] at h
  rcases h with ⟨⟨rfl, ht⟩, h⟩ | ⟨hn, e, he, rfl⟩
  · exact at_of_yields_negativeInteger hx hk ht h
  · have hr := hx _ he
    obtain ⟨level, hf, ts, hts, hd⟩ := hr.derives
    have hd' : Expr.Derives true false .unary ts (e.map forget) :=
      hd.mono (fun h => h) (by rcases hf with hf | hf <;> simp only [Precedence.rank] at * <;> omega)
    obtain ⟨t, us, rfl, -⟩ := hd'.exists_cons
    refine ⟨⟨_, .cons hk (by simp) hts, ?_⟩, hr.ends⟩
    refine .unary (Nat.le_refl _) hk ?_ hd'
    rwa [← hts.kindAt_head, not_and]

theorem at_of_yields_grouped {head : Bool} {level : Precedence} {e : Expr Extent}
    (hk : kindAt items i = .symbol .lParen) (h : (grouped expr).Yields items i e j) :
    At (Expr.Derives true head level) items i (e.map forget) j := by
  simp [grouped, and_assoc] at h
  obtain ⟨e, k, he, hc, rfl, rfl⟩ := h
  obtain ⟨ts, hts, hd⟩ := (hx _ he).whole
  rw [Expr.map_forget_withPlace]
  exact ⟨_, .cons hk (by simp) (hts.concat hc (by simp)), .grouped hk hd hc⟩

theorem at_of_yields_list {head : Bool} {level : Precedence} {e : Expr Extent}
    (hk : kindAt items i = .symbol .lBracket) (h : (list expr).Yields items i e j) :
    At (Expr.Derives true head level) items i (e.map forget) j := by
  simp [list] at h
  obtain ⟨es, hes, rfl⟩ := h
  obtain ⟨k, hl, hc, rfl⟩ := at_of_yields_elements (fun h => (hx _ h).whole) hes
  obtain ⟨ts, hts, hd⟩ := at_enclosed.2 ⟨hk, k, hl, hc, rfl⟩
  simp only [Expr.map, Expr.mapAll_eq_map]
  exact ⟨ts, hts, .list (fun _ _ h => h) hd⟩

theorem at_of_yields_operand (head : Bool) {e : Expr Extent}
    (h : (operand expr).Yields items i e j) :
    ∃ level, At (Expr.Derives true head level) items i (e.map forget) j ∧
      Precedence.unary.rank ≤ level.rank ∧
      (leftPrecedence (kindAt items j)).rank ≤ level.rank := by
  have atom {kind : TokenKind} (hk : kindAt items i = kind) (hne : kind ≠ .endOfText)
      (he : Expr.Operand (itemAt items i) (e.map forget)) (hj : j = i + 1) :
      ∃ level, At (Expr.Derives true head level) items i (e.map forget) j ∧
        Precedence.unary.rank ≤ level.rank ∧
        (leftPrecedence (kindAt items j)).rank ≤ level.rank := by
    subst hj
    exact ⟨.access, ⟨_, stretch_of_kindAt hk hne, .operand he⟩, by decide,
      rank_leftPrecedence_le _⟩
  simp [operand] at h
  split at h
  · rename_i hk
    simp [and_assoc] at h
    obtain ⟨v, hv, rfl, rfl⟩ := h
    exact atom hk (by simp) (.integer hk hv) rfl
  · rename_i hk
    simp [and_assoc] at h
    obtain ⟨v, hv, rfl, rfl⟩ := h
    exact atom hk (by simp) (.float hk hv) rfl
  · rename_i hk
    simp [literal] at h
    obtain ⟨rfl, rfl⟩ := h
    exact atom hk (by simp) (.string hk) rfl
  · rename_i hk
    simp [literal] at h
    obtain ⟨rfl, rfl⟩ := h
    exact atom hk (by simp) (.regex hk) rfl
  · rename_i hk
    simp [literal] at h
    obtain ⟨rfl, rfl⟩ := h
    exact atom hk (by simp) (.true_ hk) rfl
  · rename_i hk
    simp [literal] at h
    obtain ⟨rfl, rfl⟩ := h
    exact atom hk (by simp) (.false_ hk) rfl
  · rename_i hk
    simp [literal] at h
    obtain ⟨rfl, rfl⟩ := h
    exact atom hk (by simp) (.nil (.inl hk)) rfl
  · rename_i hk
    simp [literal] at h
    obtain ⟨rfl, rfl⟩ := h
    exact atom hk (by simp) (.nil (.inr hk)) rfl
  · rename_i hk
    simp at h
    obtain ⟨rfl, rfl⟩ := h
    exact atom hk (by simp) (.dollar hk) rfl
  · rename_i hk
    simp at h
    obtain ⟨rfl, rfl⟩ := h
    exact atom hk (by simp) (.property hk) rfl
  · rename_i hk
    simp at h
    obtain ⟨rfl, rfl⟩ := h
    exact atom hk (by simp) (.relation hk) rfl
  · rename_i hk
    simp at h
    obtain ⟨rfl, rfl⟩ := h
    exact atom hk (by simp) (.datatype hk) rfl
  · rename_i hk
    obtain ⟨hd, he⟩ := at_of_yields_unary hx hk h
    exact ⟨.unary, hd, Nat.le_refl _, he⟩
  · rename_i hk
    obtain ⟨hd, he⟩ := at_of_yields_unary hx hk h
    exact ⟨.unary, hd, Nat.le_refl _, he⟩
  · rename_i hk
    exact ⟨.access, at_of_yields_grouped hx hk h, by decide, rank_leftPrecedence_le _⟩
  · rename_i hk
    exact ⟨.access, at_of_yields_list hx hk h, by decide, rank_leftPrecedence_le _⟩
  · simp at h

end

end

/-- Behind what is read with a limit stands no operator that is stronger. -/
theorem readBy_of_yields_expressionWithin {n : Nat} {limit : Precedence} {e : Expr Extent}
    (h : (expressionWithin n limit).Yields items i e j) :
    Expr.ReadBy items limit i (e.map forget) j := by
  induction n generalizing limit i e j with
  | zero => simp [expressionWithin] at h
  | succ n ih =>
    simp [expressionWithin] at h
    obtain ⟨left, k, hleft, h⟩ := h
    obtain ⟨level, hd, hu, hle⟩ := at_of_yields_operand (fun _ => ih) limit.isHead hleft
    obtain ⟨⟨level', hf, hd', -⟩, hend⟩ := readBy_of_yields_operators (fun _ => ih) (by omega)
      (.inr hu) hd hle (by rintro rfl; exact rfl) h
    exact ⟨⟨level', hf, hd'⟩, hend⟩

theorem at_of_yields_expression {e : Expr Extent} (h : expression.Yields items i e j) :
    At (Expr.Derives true true .ternary) items i (e.map forget) j :=
  (readBy_of_yields_expressionWithin (yields_remaining_bind.1 h)).whole

end Rule

end SchemaLang
