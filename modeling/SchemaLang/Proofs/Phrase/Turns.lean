import SchemaLang.Proofs.Phrase.Expr

/-!
# Operands and operators take turns

An expression begins with an operand. Behind an operand it goes on with an operator or ends, and an
operator wants an operand again. A token alone does not always tell on which side it stands: a bar
opens parameters or closes them.

* `Turn` is what an expression goes on with.
* `Alternates s ts s'`: the items `ts` lead from one turn to another.
* `Expr.AwaitsOperand` and `Expr.EndsOperand` are the beginnings of expressions behind which an operand
  may stand, and those that end with one.

Main statements: an expression leads from an operand to an operator (`Expr.Derives.alternates`), so the
last item tells on which side a beginning stands (`Expr.AwaitsOperand.endsOperand_eq_false`,
`Expr.EndsOperand.exists_concat`).
-/

set_option autoImplicit false

namespace SchemaLang

/-- What an expression goes on with. Behind an operand it may also end. -/
inductive Turn where
  | operand
  | operator

namespace TokenKind

/-- Operators that only stand behind an operand; a minus or a bracket may also begin one. -/
def followsOperand (k : TokenKind) : Bool :=
  leftPrecedence k != .lowest && k != .symbol .minus && k != .symbol .lBracket

/-- What ends an operand in some places only: keywords, as names of members, and the bar behind
parameters. -/
def endsTail : TokenKind → Bool
  | keyword k => k.namesProperty
  | symbol .pipe => true
  | _ => false

end TokenKind

namespace Turn

/-- No operator takes the turn of an operand, and no regular expression that of an operator. -/
def admits : Turn → TokenKind → Bool
  | operand, k => !k.followsOperand
  | operator, k => k != .regexLit

/-- What may be next behind a token. -/
def comesBehind : Turn → TokenKind → Bool
  | operand, k => !k.endsOperand
  | operator, k => k.endsOperand || k.endsTail

def leads (s : Turn) (k : TokenKind) (s' : Turn) : Bool := s.admits k && s'.comesBehind k

/-- Signs are no regular expressions. -/
theorem leads_symbol {x : Symbol} {s' : Turn} (h : operand.leads (.symbol x) s' = true) (s : Turn) :
    s.leads (.symbol x) s' = true := by
  cases s with
  | operand => exact h
  | operator => exact (Bool.and_eq_true_iff.1 h).2

end Turn

def Alternates : Turn → List Item → Turn → Prop
  | s, [], s' => s' = s
  | s, t :: ts, s' => ∃ m, s.leads t.kind m = true ∧ Alternates m ts s'

section

variable {s m s' : Turn} {t : Item} {ts us : List Item}

theorem alternates_append :
    Alternates s (ts ++ us) s' ↔ ∃ m, Alternates s ts m ∧ Alternates m us s' := by
  induction ts generalizing s with
  | nil => simp [Alternates]
  | cons t ts ih =>
    simp only [List.cons_append, Alternates, ih]
    constructor
    · rintro ⟨m, hm, n, hts, hus⟩
      exact ⟨n, ⟨m, hm, hts⟩, hus⟩
    · rintro ⟨n, ⟨m, hm, hts⟩, hus⟩
      exact ⟨m, hm, n, hts, hus⟩

namespace Alternates

theorem append (h : Alternates s ts m) (h' : Alternates m us s') : Alternates s (ts ++ us) s' :=
  alternates_append.2 ⟨m, h, h'⟩

theorem cons {k : TokenKind} (ht : t.kind = k) (hk : s.leads k m = true) (h : Alternates m ts s') :
    Alternates s (t :: ts) s' := ⟨m, ht ▸ hk, h⟩

theorem single {k : TokenKind} (ht : t.kind = k) (hk : s.leads k s' = true) : Alternates s [t] s' :=
  cons ht hk rfl

theorem of_kinds (h : Alternates s ts s') (hk : ts.map Item.kind = us.map Item.kind) :
    Alternates s us s' := by
  induction ts generalizing s us with
  | nil =>
    obtain rfl := List.map_eq_nil_iff.1 hk.symm
    exact h
  | cons t ts ih =>
    obtain ⟨u, us, rfl, hu, hus⟩ := List.map_eq_cons_iff.1 hk.symm
    obtain ⟨m, hm, hts⟩ := h
    exact ⟨m, hu ▸ hm, ih hts hus.symm⟩

/-- The last item tells what comes behind it. -/
theorem comesBehind_concat (h : Alternates s (ts ++ [t]) s') : s'.comesBehind t.kind = true := by
  obtain ⟨m, -, n, hn, rfl⟩ := alternates_append.1 h
  exact (Bool.and_eq_true_iff.1 hn).2

end Alternates

end

/-! ## Phrases -/

namespace Phrase

variable {α : Type} {R : Phrase α} {s : Turn}

/-- All phrases of `R` lead from one turn to another. -/
def Takes (s : Turn) (R : Phrase α) (s' : Turn) : Prop := ∀ ts a, R ts a → Alternates s ts s'

/-- What stands in brackets begins with an operand, or there is nothing. -/
def Opens (R : Phrase α) : Prop := ∀ ts a, R ts a → ∃ s, Alternates .operand ts s

namespace Takes

variable (hR : Takes .operand R .operator)

include hR

theorem opens : Opens R := fun ts a h => ⟨_, hR ts a h⟩

theorem elements : Opens (Elements R) := by
  intro ts as h
  induction h with
  | one hr => exact hR.opens _ _ hr
  | ended hr hc => exact ⟨.operand, (hR _ _ hr).append (.single hc rfl)⟩
  | more hr hc _ ih =>
    obtain ⟨s, hs⟩ := ih
    exact ⟨s, (hR _ _ hr).append (.cons hc rfl hs)⟩

theorem listing : Opens (Listing R) := by
  intro ts as h
  cases h with
  | empty => exact ⟨.operand, rfl⟩
  | filled he => exact hR.elements _ _ he

end Takes

/-- Brackets end an operand, wherever they stand. -/
theorem Opens.enclosed {opener closer : Symbol} (hR : Opens R)
    (ho : Turn.operand.leads (.symbol opener) .operand = true)
    (hc : Turn.operand.leads (.symbol closer) .operator = true) :
    Takes s (Enclosed opener closer R) .operator := by
  rintro _ a @⟨l, r, ts, _, hl, hr, hk⟩
  obtain ⟨m, hts⟩ := hR _ _ hr
  exact .cons hl (Turn.leads_symbol ho s) (hts.append (.single hk (Turn.leads_symbol hc m)))

theorem Takes.optional (hR : Takes s R s) : Takes s (Optional R) s := by
  intro ts a h
  cases h with
  | absent => rfl
  | present hr => exact hR _ _ hr

end Phrase

/-! ## Expressions -/

namespace Expr

open SchemaLang.Phrase

variable {lenient head : Bool} {level : Precedence} {cs ts : List Item} {e : Expr Unit}

theorem alternates_operand {t : Item} (h : Operand t e) : Alternates .operand [t] .operator := by
  cases h with
  | integer h | float h | string h | regex h | true_ h | false_ h | dollar h | property h | relation h =>
    exact .single h rfl
  | nil h => rcases h with h | h <;> exact .single h rfl
  | @datatype k h => exact .single h (by cases k <;> rfl)

theorem takes_paramNames : Takes .operand ParamNames .operator := by
  intro ts ps h
  induction h with
  | one ht => exact .single ht rfl
  | more ht hc _ ih => exact .cons ht (m := .operator) rfl (.cons hc rfl ih)

theorem leads_memberName {k : TokenKind} (h : Rule.isMemberName k = true) :
    Turn.operand.leads k .operator = true := by
  cases k with
  | upperWord | lowerWord => rfl
  | keyword w => cases w <;> first | rfl | cases h
  | _ => cases h

theorem leads_functionName {k : TokenKind} (h : Rule.isFunctionName k = true) :
    Turn.operand.leads k .operator = true := by
  cases k with
  | upperWord | lowerWord => rfl
  | _ => cases h

/-- An expression begins with an operand and ends with one. -/
theorem Derives.alternates (h : Derives lenient head level ts e) :
    Alternates .operand ts .operator := by
  induction h with
  | operand ho => exact alternates_operand ho
  | negative hs ht _ => exact .cons hs (m := .operand) rfl (.single ht rfl)
  | grouped hl _ hr ih => exact .cons hl (m := .operand) rfl (ih.append (.single hr rfl))
  | list _ he ih => exact Opens.enclosed (Takes.listing ih) rfl rfl _ _ he
  | @unary _ _ _ _ _ op _ _ hs _ _ ih => exact .cons hs (by cases op <;> rfl) ih
  | @binary _ _ _ _ _ _ op _ _ _ _ ht _ _ ihl ihr =>
    exact ihl.append (.cons ht (by cases op <;> rfl) ihr)
  | ternary _ _ hq _ ht hc he ihc ih =>
    have branch := @Opens.enclosed _ _ .operand .lBrace .rBrace (Takes.opens ih) rfl rfl
    exact ihc.append (.cons hq rfl ((branch _ _ ht).append (.cons hc rfl (branch _ _ he))))
  | member _ hd hn ih =>
    exact ih.append (.cons hd rfl (.single rfl (leads_memberName hn)))
  | index _ _ he iho ih => exact iho.append (Opens.enclosed (Takes.elements ih) rfl rfl _ _ he)
  | pipeline _ ha hf _ has hps hbs ihs ih =>
    have args := Takes.optional (Opens.enclosed (s := .operator) (Takes.listing ih) rfl rfl) _ _ has
    have params := Takes.optional (Opens.enclosed (s := .operator) takes_paramNames.opens rfl rfl) _ _ hps
    have body := Takes.optional (Opens.enclosed (s := .operator) (Takes.opens ih) rfl rfl) _ _ hbs
    exact ihs.append (.cons ha rfl (.cons rfl (leads_functionName hf)
      ((args.append params).append body)))

/-- No operator begins an expression that needs an operand before it. -/
theorem Derives.followsOperand_head (h : Derives lenient head level ts e) :
    ∀ t ∈ ts.head?, t.kind.followsOperand = false := by
  have halt := h.alternates
  cases ts with
  | nil => nofun
  | cons t ts =>
    obtain ⟨m, hm, -⟩ := halt
    simpa [Turn.admits] using (Bool.and_eq_true_iff.1 hm).1

/-! ## Beginnings -/

/-- Behind `cs` a constraint may go on with an operand; a regular expression is nothing else. Only kinds
matter: numbers may be out of range. -/
def AwaitsOperand (cs : List Item) : Prop :=
  ∃ ds t us e, ds.map Item.kind = cs.map Item.kind ∧ t.kind = .regexLit ∧
    Derives true true .ternary (ds ++ t :: us) e

/-- Behind `cs` a constraint may end, or go on with what only stands behind an operand. -/
def EndsOperand (cs : List Item) : Prop :=
  ∃ ds us e, ds.map Item.kind = cs.map Item.kind ∧ Derives true true .ternary (ds ++ us) e ∧
    ∀ t ∈ us.head?, t.kind.followsOperand = true

theorem Derives.endsOperand (h : Derives true head level cs e)
    (hl : Precedence.ternary.rank ≤ level.rank) : EndsOperand cs :=
  ⟨cs, [], e, rfl, by simpa using h.mono (fun _ => rfl) hl, nofun⟩

theorem AwaitsOperand.alternates (h : AwaitsOperand cs) : Alternates .operand cs .operand := by
  obtain ⟨ds, t, us, e, hk, ht, hd⟩ := h
  obtain ⟨m, hds, n, hm, -⟩ := alternates_append.1 hd.alternates
  cases m with
  | operand => exact hds.of_kinds hk
  | operator => simp [Turn.leads, Turn.admits, ht] at hm

theorem EndsOperand.alternates (h : EndsOperand cs) : Alternates .operand cs .operator := by
  obtain ⟨ds, us, e, hk, hd, hus⟩ := h
  obtain ⟨m, hds, hm⟩ := alternates_append.1 hd.alternates
  cases m with
  | operator => exact hds.of_kinds hk
  | operand =>
    cases us with
    | nil => cases hm
    | cons t us =>
      obtain ⟨n, hn, -⟩ := hm
      simp [Turn.leads, Turn.admits, hus t rfl] at hn

theorem AwaitsOperand.endsOperand_eq_false {c : Item} (h : AwaitsOperand (cs ++ [c])) :
    c.kind.endsOperand = false := by
  simpa [Turn.comesBehind] using h.alternates.comesBehind_concat

theorem EndsOperand.exists_concat (h : EndsOperand cs) :
    ∃ us c, cs = us ++ [c] ∧ (c.kind.endsOperand = true ∨ c.kind.endsTail = true) := by
  have halt := h.alternates
  rcases List.eq_nil_or_concat cs with rfl | ⟨us, c, rfl⟩
  · cases halt
  · rw [List.concat_eq_append] at halt ⊢
    exact ⟨us, c, rfl, by simpa [Turn.comesBehind] using halt.comesBehind_concat⟩

end Expr

end SchemaLang
