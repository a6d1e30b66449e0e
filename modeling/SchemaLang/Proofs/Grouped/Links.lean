import SchemaLang.Proofs.Grouped.Tokens

/-!
# What stands behind an expression

* `Link` is what stands behind an expression and belongs to a larger one with it: a member, an index or a
  function.
* `Follows r`: neither a token nor a function goes on with the text. Links follow, and so does what ends an
  expression.
* `Stops r`: no link starts the text either, so it ends an expression.
* `Short n e`: the expression is spelled and its text is shorter than `n`.

Main statement: links are read off if the shorter expressions in them are (`separable_links`).
-/

set_option autoImplicit false

namespace SchemaLang

structure Follows (r : List Char) : Prop extends BehindNumber r where
  args : r.head? ≠ some '('
  params : ¬ [' ', '|', '$'] <+: r
  body : ¬ [' ', '\x7b'] <+: r

structure Stops (r : List Char) : Prop extends Follows r where
  member : r.head? ≠ some '.'
  index : r.head? ≠ some '['
  pipeline : ¬ [' ', '-', '>'] <+: r

/-- What may stand behind the name of a function, behind its arguments and behind its parameters. -/
theorem Follows.parts {σ : Type} {k : List Char} (h : Follows k) (args : Option (List (Expr σ)))
    (params : Option (List (Name σ))) (body : Option (Expr σ)) :
    (∀ c ∈ (Expr.argsChars args ++ (paramsChars params ++ (Expr.bodyChars body ++ k))).head?,
      isWordPart c = false) ∧
    (paramsChars params ++ (Expr.bodyChars body ++ k)).head? ≠ some '(' ∧
    ¬ [' ', '|', '$'] <+: Expr.bodyChars body ++ k := by
  have hblank : isWordPart ' ' = false := by decide
  have hparen : isWordPart '(' = false := by decide
  cases body with
  | none =>
    cases params with
    | none =>
      refine ⟨?_, h.args, h.params⟩
      cases args with
      | none => exact h.head
      | some es => simpa [Expr.argsChars] using hparen
    | some ps =>
      refine ⟨?_, by simp [paramsChars], h.params⟩
      cases args with
      | none => simpa [Expr.argsChars, paramsChars] using hblank
      | some es => simpa [Expr.argsChars] using hparen
  | some e =>
    refine ⟨?_, ?_, by simp [Expr.bodyChars, List.cons_prefix_cons]⟩
    · cases args <;> cases params <;> simpa [Expr.argsChars, paramsChars, Expr.bodyChars]
    · cases params <;> simp [paramsChars, Expr.bodyChars]

/-! ## Ends of expressions -/

theorem follows_cons {c : Char} (hword : isWordPart c = false) (hdot : c ≠ '.') (hparen : c ≠ '(')
    (hblank : c ≠ ' ') (r : List Char) : Follows (c :: r) where
  head := by simpa using hword
  fractionPart_eq := fractionPart_of_head_ne (by simpa using hdot)
  args := by simpa using hparen
  params := by simp [List.cons_prefix_cons, hblank.symm]
  body := by simp [List.cons_prefix_cons, hblank.symm]

theorem stops_nil : Stops [] where
  head := nofun
  fractionPart_eq := rfl
  args := nofun
  params := by simp
  body := by simp
  member := nofun
  index := nofun
  pipeline := by simp

theorem stops_closing {c : Char} (hc : c ∈ [')', ']', '\x7d', ',']) (r : List Char) : Stops (c :: r) := by
  simp only [List.mem_cons, List.not_mem_nil, or_false] at hc
  refine ⟨?_, ?_, ?_, ?_⟩
  · rcases hc with rfl | rfl | rfl | rfl <;> exact follows_cons (by decide) (by decide) (by decide) (by decide) r
  · rcases hc with rfl | rfl | rfl | rfl <;> simp
  · rcases hc with rfl | rfl | rfl | rfl <;> simp
  · rcases hc with rfl | rfl | rfl | rfl <;> simp [List.cons_prefix_cons]

theorem follows_blank {r : List Char} (hparams : ¬ ['|', '$'] <+: r) (hbody : ¬ ['\x7b'] <+: r) :
    Follows (' ' :: r) where
  head := by simp; decide
  fractionPart_eq := rfl
  args := by simp
  params := by simpa [List.cons_prefix_cons] using hparams
  body := by simpa [List.cons_prefix_cons] using hbody

theorem stops_blank {r : List Char} (hparams : ¬ ['|', '$'] <+: r) (hbody : ¬ ['\x7b'] <+: r)
    (hpipeline : ¬ ['-', '>'] <+: r) : Stops (' ' :: r) where
  toFollows := follows_blank hparams hbody
  member := by simp
  index := by simp
  pipeline := by simpa [List.cons_prefix_cons] using hpipeline

theorem stops_operator (op : BinaryOp) (r : List Char) : Stops (' ' :: (op.text.toList ++ ' ' :: r)) := by
  refine stops_blank ?_ ?_ ?_ <;>
    cases op <;> simp [BinaryOp.text, BinaryOp.token, Symbol.text, Symbol.chars, Keyword.text, List.cons_prefix_cons]

theorem stops_question (r : List Char) : Stops (' ' :: '?' :: r) := by
  refine stops_blank ?_ ?_ ?_ <;> simp [List.cons_prefix_cons]

/-! ## Starts of expressions -/

def startsExpr (c : Char) : Bool := isWordPart c || ['"', '/', '$', '-', '[', '('].contains c

theorem Atom.exists_chars {kind : TokenKind} {e : Expr Unit} (h : Atom kind e) :
    ∃ c cs, e.chars = c :: cs ∧ (isWordPart c = true ∨ c ∈ ['"', '/', '$']) := by
  have number {ds : List Char} (h : IsDigits ds) (cs : List Char) :
      ∃ c cs', ds ++ cs = c :: cs' ∧ (isWordPart c = true ∨ c ∈ ['"', '/', '$']) := by
    obtain ⟨c, ds, rfl⟩ := List.exists_cons_of_ne_nil h.1
    exact ⟨c, ds ++ cs, rfl, .inl (by simp [isWordPart, Char.isAlphanum, h.2 c (by simp)])⟩
  have word {s : String} (h : hasAliasShape s.toList = true) :
      ∃ c cs, s.toList = c :: cs ∧ (isWordPart c = true ∨ c ∈ ['"', '/', '$']) := by
    cases hs : s.toList with
    | nil =>
      rw [hs] at h
      cases h
    | cons c cs =>
      rw [hs, hasAliasShape, Bool.and_eq_true] at h
      exact ⟨c, cs, rfl, .inl (by simp [isWordPart, Char.isAlphanum, h.1])⟩
  cases h with
  | integer n p =>
    rw [chars_integer]
    simpa using number (isDigits_toDigits n) []
  | float p hx =>
    obtain ⟨whole, fraction, exponent, hw, -, -, -, heq⟩ := exists_parts_float hx
    rw [chars_float, heq]
    exact number hw _
  | string s p => exact ⟨'"', _, chars_string s p, .inr (by simp)⟩
  | regex p hs => exact ⟨'/', _, chars_regex _ p, .inr (by simp)⟩
  | true_ p => exact word (s := "true") (by decide)
  | false_ p => exact word (s := "false") (by decide)
  | nil p => exact word (s := "nil") (by decide)
  | dollar p hn => exact ⟨'$', _, chars_dollar _ p, .inr (by simp)⟩
  | property p hn hk => exact word hn
  | relation p hn hk => exact word hn
  | datatype k p => exact word (hasAliasShape_builtin k)

theorem Expr.Spelled.exists_chars {e : Expr Unit} (h : e.Spelled) :
    ∃ c cs, e.chars = c :: cs ∧ startsExpr c = true := by
  induction h with
  | atom h =>
    obtain ⟨c, cs, heq, hc⟩ := h.exists_chars
    refine ⟨c, cs, heq, ?_⟩
    rcases hc with hc | hc
    · simp [startsExpr, hc]
    · simp only [List.mem_cons, List.not_mem_nil, or_false] at hc
      rcases hc with rfl | rfl | rfl <;> decide
  | negative n p => exact ⟨'-', _, chars_negative n p, by decide⟩
  | list p _ _ => exact ⟨'[', _, Expr.chars_list, by decide⟩
  | unary op p _ _ => exact ⟨'(', _, Expr.chars_unary, by decide⟩
  | binary op p _ _ _ _ => exact ⟨'(', _, Expr.chars_binary, by decide⟩
  | ternary p _ _ _ _ _ _ => exact ⟨'(', _, Expr.chars_ternary, by decide⟩
  | member p _ _ ih =>
    obtain ⟨c, cs, heq, hc⟩ := ih
    exact ⟨c, _, by rw [Expr.chars_member, heq]; rfl, hc⟩
  | index p _ _ ih _ =>
    obtain ⟨c, cs, heq, hc⟩ := ih
    exact ⟨c, _, by rw [Expr.chars_index, heq]; rfl, hc⟩
  | pipeline p _ _ _ _ _ ih _ _ =>
    obtain ⟨c, cs, heq, hc⟩ := ih
    exact ⟨c, _, by rw [Expr.chars_pipeline, heq]; rfl, hc⟩

/-- No expression starts with the character. -/
theorem Expr.Spelled.head_ne {e : Expr Unit} (h : e.Spelled) {c : Char} (hc : startsExpr c = false)
    (k : List Char) : (e.chars ++ k).head? ≠ some c := by
  obtain ⟨d, ds, heq, hd⟩ := h.exists_chars
  rw [heq]
  intro hdc
  obtain rfl : d = c := Option.some.inj hdc
  simp [hd] at hc

/-! ## Links -/

inductive Link where
  | member (name : Name Unit)
  | index (indices : List (Expr Unit))
  | pipeline (function : Name Unit) (args : Option (List (Expr Unit)))
      (params : Option (List (Name Unit))) (body : Option (Expr Unit))

namespace Link

def behind (e : Expr Unit) : Link → Expr Unit
  | member n => .member e n ()
  | index es => .index e es ()
  | pipeline f args params body => .pipeline e f args params body ()

def chars : Link → List Char
  | member n => '.' :: n.text.toList
  | index es => ['['] ++ (commaed (es.map Expr.chars) ++ [']'])
  | pipeline f args params body => [' ', '-', '>', ' '] ++ (f.text.toList ++
      (Expr.argsChars args ++ (paramsChars params ++ Expr.bodyChars body)))

def Spelled : Link → Prop
  | member n => hasAliasShape n.text.toList = true
  | index es => ∀ e ∈ es, e.Spelled
  | pipeline f args params body => hasAliasShape f.text.toList = true ∧
      (∀ es ∈ args, ∀ e ∈ es, e.Spelled) ∧
        (∀ ps ∈ params, ps ≠ [] ∧ ∀ p ∈ ps, IsRun p.text.toList) ∧ ∀ e ∈ body, e.Spelled

theorem chars_behind (e : Expr Unit) (l : Link) : (l.behind e).chars = e.chars ++ l.chars := by
  cases l with
  | member n => exact Expr.chars_member
  | index es => exact Expr.chars_index
  | pipeline f args params body => exact Expr.chars_pipeline

theorem follows_append {l : Link} (h : l.Spelled) (k : List Char) : Follows (l.chars ++ k) := by
  cases l with
  | member n =>
    cases hn : n.text.toList with
    | nil =>
      rw [Spelled, hn] at h
      cases h
    | cons c cs =>
      rw [Spelled, hn, hasAliasShape, Bool.and_eq_true] at h
      have hdigit : c.isDigit = false := isDigit_eq_false_of_isAlpha h.1
      rw [chars, hn]
      exact ⟨⟨by simp; decide, by simp [fractionPart, hdigit]⟩, by simp, by simp, by simp⟩
  | index es => exact follows_cons (by decide) (by decide) (by decide) (by decide) _
  | pipeline f args params body => exact follows_blank (by simp) (by simp)

theorem not_stops_append {l : Link} (h : l.Spelled) (k : List Char) : ¬ Stops (l.chars ++ k) := by
  intro hs
  cases l with
  | member n => exact hs.member rfl
  | index es => exact hs.index rfl
  | pipeline f args params body => exact hs.pipeline ⟨_, rfl⟩

end Link

/-! ## Reading links off -/

def Short (n : Nat) (e : Expr Unit) : Prop := e.Spelled ∧ e.chars.length < n

theorem length_le_flatMap {α β : Type} {a : α} {as : List α} (h : a ∈ as) (f : α → List β) :
    (f a).length ≤ (as.flatMap f).length := by
  obtain ⟨bs, cs, rfl⟩ := List.append_of_mem h
  simp only [List.flatMap_append, List.flatMap_cons, List.length_append]
  omega

theorem length_le_commaed {t : List Char} {ts : List (List Char)} (h : t ∈ ts) :
    t.length ≤ (commaed ts).length := by
  cases ts with
  | nil => cases h
  | cons u us =>
    rw [commaed_cons, List.length_append]
    rcases List.mem_cons.1 h with rfl | h
    · omega
    · have hle := length_le_flatMap h ([',', ' '] ++ ·)
      rw [List.length_append] at hle
      omega

/-- The parts of a link are shorter than the link. -/
theorem Link.Spelled.short {l : Link} (h : l.Spelled) {n : Nat} (hn : l.chars.length ≤ n) :
    match l with
    | .member _ => True
    | .index es => ∀ e ∈ es, Short n e
    | .pipeline _ args _ body => (∀ es ∈ args, ∀ e ∈ es, Short n e) ∧ ∀ e ∈ body, Short n e := by
  cases l with
  | member name => trivial
  | index es =>
    intro e he
    have hle := length_le_commaed (List.mem_map_of_mem he : e.chars ∈ es.map Expr.chars)
    refine ⟨h e he, ?_⟩
    simp only [Link.chars, List.length_append, List.length_singleton] at hn
    omega
  | pipeline f args params body =>
    obtain ⟨-, hargs, -, hbody⟩ := h
    simp only [Link.chars, List.length_append, List.length_cons, List.length_nil] at hn
    refine ⟨?_, ?_⟩
    · rintro es rfl e he
      have hle := length_le_commaed (List.mem_map_of_mem he : e.chars ∈ es.map Expr.chars)
      refine ⟨hargs es rfl e he, ?_⟩
      simp only [Expr.argsChars, Option.elim_some, List.length_append, List.length_singleton] at hn
      omega
    · rintro e rfl
      refine ⟨hbody e rfl, ?_⟩
      simp only [Expr.bodyChars, Option.elim_some, List.length_append, List.length_cons] at hn
      omega

theorem Name.eq_of_text {p q : Name Unit} (h : p.text = q.text) : p = q := by
  cases p
  cases q
  rw [Name.mk.injEq]
  exact ⟨h, rfl⟩

theorem separable_params : Separable paramsChars
    (fun params : Option (List (Name Unit)) => ∀ ps ∈ params, ps ≠ [] ∧ ∀ p ∈ ps, IsRun p.text.toList)
    fun r => ¬ [' ', '|', '$'] <+: r := by
  have hname : Separable (fun p : Name Unit => '$' :: p.text.toList) (fun p => IsRun p.text.toList)
      BehindNumber := by
    intro p q r s hp hq hr hs heq
    obtain ⟨hpq, hrs⟩ := separable_atom (.dollar p.text ()) (.dollar q.text ()) r s
      ⟨_, .dollar () hp⟩ ⟨_, .dollar () hq⟩ hr hs (by rwa [chars_dollar, chars_dollar])
    exact ⟨Name.eq_of_text (Expr.dollar.inj hpq).1, hrs⟩
  have hclosed : Separable (fun ps : List (Name Unit) =>
      [' ', '|'] ++ (commaed (ps.map fun p => '$' :: p.text.toList) ++ ['|']))
      (fun ps => ∀ p ∈ ps, IsRun p.text.toList) fun _ => True :=
    (hname.commaed (by decide) (fun r => (follows_cons (by decide) (by decide) (by decide) (by decide) r).1)
      (fun r => (follows_cons (by decide) (by decide) (by decide) (by decide) r).1) (by simp)).enclosed
  refine (hclosed.mono (fun ps h => h.2) fun _ h => h).optional (fun _ _ => trivial) ?_
  rintro (_ | ⟨p, ps⟩) k ⟨hne, -⟩ hk
  · exact hne rfl
  · simp [commaed_cons, List.cons_prefix_cons] at hk

section

variable {n : Nat} (ih : Separable Expr.chars (Short n) Stops)

include ih

theorem separable_bracketed {opener closer : Char} (hcloser : closer ∈ [')', ']']) :
    Separable (fun es : List (Expr Unit) => [opener] ++ (commaed (es.map Expr.chars) ++ [closer]))
      (fun es => ∀ e ∈ es, Short n e) fun _ => True := by
  simp only [List.mem_cons, List.not_mem_nil, or_false] at hcloser
  have hcomma : closer ≠ ',' := by rcases hcloser with rfl | rfl <;> decide
  have hstarts : startsExpr closer = false := by rcases hcloser with rfl | rfl <;> decide
  have hstops (r : List Char) : Stops (closer :: r) :=
    stops_closing (by rcases hcloser with rfl | rfl <;> decide) r
  exact (ih.commaed hcomma (stops_closing (by simp)) hstops fun e k he => he.1.head_ne hstarts k).enclosed

theorem separable_args : Separable Expr.argsChars (fun args => ∀ es ∈ args, ∀ e ∈ es, Short n e)
    (fun r => r.head? ≠ some '(') :=
  (separable_bracketed ih (by simp)).optional (fun _ _ => trivial) (by simp)

theorem separable_body : Separable Expr.bodyChars (fun body => ∀ e ∈ body, Short n e)
    (fun r => ¬ [' ', '\x7b'] <+: r) := by
  have hclosed : Separable (fun e => [' ', '\x7b'] ++ (Expr.chars e ++ ['\x7d'])) (Short n) fun _ => True := by
    refine (ih.mono (fun _ h => h) ?_).enclosed
    rintro _ ⟨k, rfl⟩
    exact stops_closing (by simp) k
  exact hclosed.optional (fun _ _ => trivial) (by simp)

theorem separable_link : Separable Link.chars (fun l => l.Spelled ∧ l.chars.length ≤ n) Follows := by
  rintro l m r s ⟨hl, hln⟩ ⟨hm, hmn⟩ hr hs heq
  have hlshort := hl.short hln
  have hmshort := hm.short hmn
  cases l with
  | member p =>
    cases m with
    | member q =>
      obtain ⟨-, htext, hrs⟩ := (cutAs_word hl hr.head).eq (cutAs_word hm hs.head)
        (List.tail_eq_of_cons_eq heq)
      exact ⟨congrArg Link.member (Name.eq_of_text (String.toList_injective htext)), hrs⟩
    | index fs => simp [Link.chars] at heq
    | pipeline g bargs qs c => simp [Link.chars] at heq
  | index es =>
    cases m with
    | member q => simp [Link.chars] at heq
    | index fs =>
      obtain ⟨rfl, hrs⟩ :=
        separable_bracketed ih (by simp) es fs r s hlshort hmshort trivial trivial heq
      exact ⟨rfl, hrs⟩
    | pipeline g bargs qs c => simp [Link.chars] at heq
  | pipeline f args params body =>
    cases m with
    | member q => simp [Link.chars] at heq
    | index fs => simp [Link.chars] at heq
    | pipeline g bargs qs c =>
      simp only [Link.chars, List.append_assoc, List.append_cancel_left_eq] at heq
      obtain ⟨hword, hparen, hbar⟩ := hr.parts args params body
      obtain ⟨hword', hparen', hbar'⟩ := hs.parts bargs qs c
      obtain ⟨-, htext, hargs⟩ := (cutAs_word hl.1 hword).eq (cutAs_word hm.1 hword') heq
      obtain ⟨rfl, hparams⟩ := separable_args ih args bargs _ _ hlshort.1 hmshort.1 hparen hparen' hargs
      obtain ⟨rfl, hbody⟩ := separable_params params qs _ _ hl.2.2.1 hm.2.2.1 hbar hbar' hparams
      obtain ⟨rfl, hrs⟩ := separable_body ih body c r s hlshort.2 hmshort.2 hr.body hs.body hbody
      obtain rfl := Name.eq_of_text (String.toList_injective htext)
      exact ⟨rfl, hrs⟩

end

end SchemaLang
