import SchemaLang.Grammar.Expr
import SchemaLang.Proofs.Phrase.Basic

/-!
# The grammar of constraint expressions

Expressions come in levels, one for each strength of operators. An expression of a level has
operators of that strength or stronger ones outside all brackets; operators of one level group to
the left.

* `Expr.Operand` are the expressions of one item.
* `Expr.Derives` are expressions of a level.

A ternary is the weakest expression. It may be the condition of another one. In the lenient grammar
it may also stand wherever an operand may, as long as nothing of the expression stands before it:
its closing brace ends it.
-/

set_option autoImplicit false

namespace SchemaLang.Expr

open SchemaLang.Phrase

/-- Expressions of one item. -/
inductive Operand (t : Item) : Expr Unit → Prop where
  | integer {v : Int} : t.kind = .integerLit → readInt? false t.text.toList = some v →
      Operand t (.literal (.integer v) ())
  | float {v : Binary64} : t.kind = .floatLit →
      (Decimal.read? false t.text.toList).bind Binary64.ofDecimal? = some v →
      Operand t (.literal (.float v) ())
  | string : t.kind = .stringLit → Operand t (.literal (.string (stringValue t.text)) ())
  | regex : t.kind = .regexLit → Operand t (.literal (.regex (regexValue t.text)) ())
  | true_ : t.kind = .keyword .trueWord → Operand t (.literal (.boolean true) ())
  | false_ : t.kind = .keyword .falseWord → Operand t (.literal (.boolean false) ())
  | nil : t.kind = .keyword .nilWord ∨ t.kind = .symbol .underscore → Operand t (.literal .nil ())
  | dollar : t.kind = .varWord → Operand t (.dollar (Rule.withoutDollars t.text) ())
  | property : t.kind = .lowerWord → Operand t (.property t.text ())
  | relation : t.kind = .upperWord → Operand t (.relation t.text ())
  | datatype {k : BuiltinKind} : t.kind = .builtin k → Operand t (.datatype k ())

/-- Parameters between commas. -/
inductive ParamNames : Phrase (List (Name Unit)) where
  | one {t : Item} : t.kind = .varWord → ParamNames [t] [⟨Rule.withoutDollars t.text, ()⟩]
  | more {t c : Item} {us : List Item} {ps : List (Name Unit)} :
      t.kind = .varWord → c.kind = .symbol .comma → ParamNames us ps →
        ParamNames (t :: c :: us) (⟨Rule.withoutDollars t.text, ()⟩ :: ps)

/-- The items `ts` are an expression of level `level`. With `head`, a ternary may be the first
operand; what is in brackets has it so if `lenient`. -/
inductive Derives (lenient : Bool) : Bool → Precedence → Phrase (Expr Unit) where
  | operand {head : Bool} {level : Precedence} {t : Item} {e : Expr Unit} :
      Operand t e → Derives lenient head level [t] e
  /-- A minus before an integer is a part of the literal. -/
  | negative {head : Bool} {level : Precedence} {s t : Item} {v : Int} :
      s.kind = .symbol .minus → t.kind = .integerLit → readInt? true t.text.toList = some v →
        Derives lenient head level [s, t] (.literal (.integer v) ())
  | grouped {head : Bool} {level : Precedence} {l r : Item} {ts : List Item} {e : Expr Unit} :
      l.kind = .symbol .lParen → Derives lenient lenient .ternary ts e → r.kind = .symbol .rParen →
        Derives lenient head level (l :: (ts ++ [r])) e
  | list {head : Bool} {level : Precedence} {ts : List Item} {es : List (Expr Unit)}
      {R : Phrase (Expr Unit)} :
      (∀ us e, R us e → Derives lenient lenient .ternary us e) →
        Enclosed .lBracket .rBracket (Listing R) ts es →
          Derives lenient head level ts (.list es ())
  /-- Equal prefix operators may follow one another; a minus not before an integer. -/
  | unary {head : Bool} {level : Precedence} {s t : Item} {ts : List Item} {op : UnaryOp}
      {e : Expr Unit} :
      level.rank ≤ Precedence.unary.rank → s.kind = .symbol op.symbol →
        ¬ (op = .negate ∧ t.kind = .integerLit) → Derives lenient false .unary (t :: ts) e →
          Derives lenient head level (s :: t :: ts) (.unary op e ())
  | binary {head : Bool} {level stronger : Precedence} {t : Item} {ls rs : List Item}
      {op : BinaryOp} {l r : Expr Unit} :
      level.rank ≤ op.precedence.rank → Derives lenient head op.precedence ls l →
        t.kind = op.token → op.precedence < stronger → Derives lenient false stronger rs r →
          Derives lenient head level (ls ++ t :: rs) (.binary op l r ())
  | ternary {head : Bool} {level : Precedence} {q c : Item} {cs ts es : List Item}
      {R : Phrase (Expr Unit)} {condition thenBranch elseBranch : Expr Unit} :
      head = true ∨ level.rank ≤ Precedence.ternary.rank →
        Derives lenient head .ternary cs condition → q.kind = .symbol .question →
          (∀ us e, R us e → Derives lenient lenient .ternary us e) →
            Enclosed .lBrace .rBrace R ts thenBranch → c.kind = .symbol .colon →
              Enclosed .lBrace .rBrace R es elseBranch →
                Derives lenient head level (cs ++ q :: (ts ++ c :: es))
                  (.ternary condition thenBranch elseBranch ())
  | member {head : Bool} {level : Precedence} {d n : Item} {os : List Item} {o : Expr Unit} :
      Derives lenient head .access os o → d.kind = .symbol .dot → Rule.isMemberName n.kind = true →
        Derives lenient head level (os ++ [d, n]) (.member o ⟨n.text, ()⟩ ())
  | index {head : Bool} {level : Precedence} {os ts : List Item} {o : Expr Unit}
      {es : List (Expr Unit)} {R : Phrase (Expr Unit)} :
      Derives lenient head .access os o → (∀ us e, R us e → Derives lenient lenient .ternary us e) →
        Enclosed .lBracket .rBracket (Elements R) ts es →
          Derives lenient head level (os ++ ts) (.index o es ())
  | pipeline {head : Bool} {level : Precedence} {a f : Item} {ss as ps bs : List Item}
      {s : Expr Unit} {args : Option (List (Expr Unit))} {params : Option (List (Name Unit))}
      {body : Option (Expr Unit)} {R : Phrase (Expr Unit)} :
      Derives lenient head .access ss s → a.kind = .symbol .arrow →
        Rule.isFunctionName f.kind = true →
          (∀ us e, R us e → Derives lenient lenient .ternary us e) →
            Optional (Enclosed .lParen .rParen (Listing R)) as args →
              Optional (Enclosed .pipe .pipe ParamNames) ps params →
                Optional (Enclosed .lBrace .rBrace R) bs body →
                  Derives lenient head level (ss ++ a :: f :: (as ++ ps ++ bs))
                    (.pipeline s ⟨f.text, ()⟩ args params body ())

variable {lenient head : Bool} {level : Precedence} {ts : List Item} {e : Expr Unit}

/-- A stronger expression is an expression of a weaker level. -/
theorem Derives.mono (h : Derives lenient head level ts e) {head' : Bool} {level' : Precedence}
    (hh : head = true → head' = true) (hl : level'.rank ≤ level.rank) :
    Derives lenient head' level' ts e := by
  induction h generalizing head' level' with
  | operand ho => exact .operand ho
  | negative hs ht hv => exact .negative hs ht hv
  | grouped hl' he hr _ => exact .grouped hl' he hr
  | list hR he _ => exact .list hR he
  | unary hu hs hn he _ => exact .unary (Nat.le_trans hl hu) hs hn he
  | binary hp _ ht hlt hr ih _ =>
    exact .binary (Nat.le_trans hl hp) (ih hh (Nat.le_refl _)) ht hlt hr
  | ternary hq _ hs hR ht hc he ih _ =>
    refine .ternary ?_ (ih hh (Nat.le_refl _)) hs hR ht hc he
    exact hq.imp hh (Nat.le_trans hl)
  | member _ hd hn ih => exact .member (ih hh (Nat.le_refl _)) hd hn
  | index _ hR he ih _ => exact .index (ih hh (Nat.le_refl _)) hR he
  | pipeline _ ha hf hR has hps hbs ih _ =>
    exact .pipeline (ih hh (Nat.le_refl _)) ha hf hR has hps hbs

/-- The lenient grammar has all expressions of the strict one. -/
theorem Derives.toLenient (h : Derives false head level ts e) : Derives true head level ts e := by
  have inner {us : List Item} {e : Expr Unit} (h : Derives true false .ternary us e) :
      Derives true true .ternary us e := h.mono (fun _ => rfl) (Nat.le_refl _)
  induction h with
  | operand ho => exact .operand ho
  | negative hs ht hv => exact .negative hs ht hv
  | grouped hl _ hr ih => exact .grouped hl (inner ih) hr
  | list _ he ih => exact .list (fun us e h => inner (ih us e h)) he
  | unary hu hs hn _ ih => exact .unary hu hs hn ih
  | binary hp _ ht hlt _ ihl ihr => exact .binary hp ihl ht hlt ihr
  | ternary hq _ hs _ ht hc he ihc ih =>
    exact .ternary hq ihc hs (fun us e h => inner (ih us e h)) ht hc he
  | member _ hd hn ih => exact .member ih hd hn
  | index _ _ he iho ih => exact .index iho (fun us e h => inner (ih us e h)) he
  | pipeline _ ha hf _ has hps hbs ihs ih =>
    exact .pipeline ihs ha hf (fun us e h => inner (ih us e h)) has hps hbs

/-- An expression has a first item, and that closes nothing. -/
theorem Derives.exists_cons (h : Derives lenient head level ts e) :
    ∃ t us, ts = t :: us ∧ t.kind ≠ .symbol .rParen ∧ t.kind ≠ .symbol .rBracket := by
  induction h with
  | @operand _ _ t _ ho =>
    refine ⟨t, [], rfl, ?_⟩
    cases ho with
    | nil h => rcases h with h | h <;> simp [h]
    | _ => simp [*]
  | negative hs ht hv => exact ⟨_, _, rfl, by simp [hs], by simp [hs]⟩
  | grouped hl he hr _ => exact ⟨_, _, rfl, by simp [hl], by simp [hl]⟩
  | list hR he _ =>
    cases he with
    | mk hl hes hr => exact ⟨_, _, rfl, by simp [hl], by simp [hl]⟩
  | @unary _ _ _ _ _ op _ hu hs hn he _ =>
    refine ⟨_, _, rfl, ?_⟩
    cases op <;> simp [hs, UnaryOp.symbol]
  | binary _ _ _ _ _ ih _ | ternary _ _ _ _ _ _ _ ih _ | member _ _ _ ih | index _ _ _ ih _
  | pipeline _ _ _ _ _ _ _ ih _ =>
    obtain ⟨t, us, rfl, ht⟩ := ih
    exact ⟨t, _, rfl, ht⟩

end SchemaLang.Expr

namespace SchemaLang

/-- Binary operators are stronger than ternaries and weaker than prefix operators. -/
theorem BinaryOp.rank_precedence (op : BinaryOp) :
    Precedence.ternary.rank < op.precedence.rank ∧
      op.precedence.rank < Precedence.unary.rank := by
  cases op <;> decide

theorem rank_leftPrecedence_le (k : TokenKind) :
    (leftPrecedence k).rank ≤ Precedence.access.rank := by
  cases leftPrecedence k <;> decide

/-- Without places, it does not matter where an expression is put. -/
theorem Expr.map_forget_withPlace {σ : Type} (q : σ) (e : Expr σ) :
    (e.withPlace q).map forget = e.map forget := by
  cases e <;> rfl

end SchemaLang
