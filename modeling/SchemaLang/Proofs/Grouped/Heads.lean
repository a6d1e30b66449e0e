import SchemaLang.Proofs.Grouped.Links

/-!
# Expressions are read off their texts

* `Head opener e`: an expression without links, by its first character if that is not one of a token.

An expression is a head with links behind it. Its first character tells what sort of head it is, and all
that stands in a head or a link is shorter. A parenthesis with a minus behind it is the one place where the
next character does not decide: a negation goes on with its operand, and so may a binary or ternary expression
whose first number is negative. Without the minus that is an expression too, and what stands behind it
decides.

Main statement: the text of an expression tells all of it but its places (`Expr.Spelled.eq_of_text`).
-/

set_option autoImplicit false

namespace SchemaLang

/-! ## Heads -/

inductive Head : Option Char → Expr Unit → Prop where
  | atom {kind : TokenKind} {e : Expr Unit} : Atom kind e → Head none e
  | negative (n : Nat) : Head (some '-') (.literal (.integer (.negSucc n)) ())
  | list {es : List (Expr Unit)} : (∀ e ∈ es, e.Spelled) → Head (some '[') (.list es ())
  | unary (op : UnaryOp) {e : Expr Unit} : e.Spelled → Head (some '(') (.unary op e ())
  | binary (op : BinaryOp) {l r : Expr Unit} : l.Spelled → r.Spelled → Head (some '(') (.binary op l r ())
  | ternary {c t e : Expr Unit} : c.Spelled → t.Spelled → e.Spelled → Head (some '(') (.ternary c t e ())

def isOpener (c : Char) : Bool := ['-', '[', '('].contains c

theorem Head.exists_chars {opener : Option Char} {e : Expr Unit} (h : Head opener e) :
    ∃ c cs, e.chars = c :: cs ∧ opener = if isOpener c then some c else none := by
  cases h with
  | atom h =>
    obtain ⟨c, cs, heq, hc⟩ := h.exists_chars
    refine ⟨c, cs, heq, ?_⟩
    have hopener : isOpener c = false := by
      rcases hc with hc | hc
      · simp only [isOpener, List.contains_eq_mem, List.mem_cons, List.not_mem_nil, or_false,
          decide_eq_false_iff_not]
        rintro (rfl | rfl | rfl) <;> exact absurd hc (by decide)
      · simp only [List.mem_cons, List.not_mem_nil, or_false] at hc
        rcases hc with rfl | rfl | rfl <;> decide
    simp [hopener]
  | negative n => exact ⟨'-', _, chars_negative n (), rfl⟩
  | list _ => exact ⟨'[', _, Expr.chars_list, rfl⟩
  | unary _ _ => exact ⟨'(', _, Expr.chars_unary, rfl⟩
  | binary _ _ _ => exact ⟨'(', _, Expr.chars_binary, rfl⟩
  | ternary _ _ _ => exact ⟨'(', _, Expr.chars_ternary, rfl⟩

/-- The first character of a head tells its sort. -/
theorem Head.opener_eq {o o' : Option Char} {e e' : Expr Unit} (h : Head o e) (h' : Head o' e')
    {r s : List Char} (heq : e.chars ++ r = e'.chars ++ s) : o = o' := by
  obtain ⟨c, cs, hchars, rfl⟩ := h.exists_chars
  obtain ⟨c', cs', hchars', rfl⟩ := h'.exists_chars
  rw [hchars, hchars'] at heq
  rw [List.head_eq_of_cons_eq heq]

/-- An expression is a head with links behind it. -/
structure Chain (opener : Option Char) (head : Expr Unit) (links : List Link) (e : Expr Unit) : Prop where
  isHead : Head opener head
  spelled : ∀ l ∈ links, l.Spelled
  foldl_eq : links.foldl Link.behind head = e

namespace Chain

variable {opener : Option Char} {head e : Expr Unit} {links : List Link}

theorem of_head (h : Head opener e) : Chain opener e [] e := ⟨h, nofun, rfl⟩

theorem behind (h : Chain opener head links e) {l : Link} (hl : l.Spelled) :
    Chain opener head (links ++ [l]) (l.behind e) where
  isHead := h.isHead
  spelled := by simpa [or_imp, forall_and, hl] using h.spelled
  foldl_eq := by simp [h.foldl_eq]

theorem chars_eq (h : Chain opener head links e) : e.chars = head.chars ++ links.flatMap Link.chars := by
  rw [← h.foldl_eq]
  clear h
  induction links generalizing head with
  | nil => simp
  | cons l links ih => rw [List.foldl_cons, ih, Link.chars_behind, List.append_assoc, List.flatMap_cons]

end Chain

theorem Expr.Spelled.exists_chain {e : Expr Unit} (h : e.Spelled) :
    ∃ opener head links, Chain opener head links e := by
  induction h with
  | atom h => exact ⟨_, _, _, .of_head (.atom h)⟩
  | negative n _ => exact ⟨_, _, _, .of_head (.negative n)⟩
  | list _ hes _ => exact ⟨_, _, _, .of_head (.list hes)⟩
  | unary op _ he _ => exact ⟨_, _, _, .of_head (.unary op he)⟩
  | binary op _ hl hr _ _ => exact ⟨_, _, _, .of_head (.binary op hl hr)⟩
  | ternary _ hc ht he _ _ _ => exact ⟨_, _, _, .of_head (.ternary hc ht he)⟩
  | @member _ n _ _ hn ih =>
    obtain ⟨opener, head, links, hchain⟩ := ih
    exact ⟨_, _, _, hchain.behind (l := .member n) hn⟩
  | @index _ es _ _ hes ih _ =>
    obtain ⟨opener, head, links, hchain⟩ := ih
    exact ⟨_, _, _, hchain.behind (l := .index es) hes⟩
  | @pipeline _ f args params body _ _ hf hargs hparams hbody ih _ _ =>
    obtain ⟨opener, head, links, hchain⟩ := ih
    exact ⟨_, _, _, hchain.behind (l := .pipeline f args params body) ⟨hf, hargs, hparams, hbody⟩⟩

/-! ## Operators -/

theorem BinaryOp.text_injective : Function.Injective BinaryOp.text := by
  have hfind (op : BinaryOp) : [or, xor, and, equal, notEqual, matchOp, notMatchOp, member, less, lessEqual,
      greater, greaterEqual, add, subtract, multiply, divide, modulo].find? (·.text == op.text) = some op := by
    cases op <;> decide
  intro op op' h
  have hop := hfind op
  rw [h, hfind op'] at hop
  exact (Option.some.inj hop).symm

/-- A blank ends a binary operator. -/
theorem separable_operator : Separable (fun op : BinaryOp => op.text.toList) (fun _ => True)
    ([' '] <+: ·) := by
  have hblank (op : BinaryOp) : ∀ c ∈ op.text.toList, (c != ' ') = true := by
    have : (op.text.toList.all (· != ' ')) = true := by cases op <;> decide
    exact List.all_eq_true.1 this
  rintro op op' _ _ - - ⟨r, rfl⟩ ⟨s, rfl⟩ heq
  obtain ⟨htake, hdrop⟩ := @takeWhile_dropWhile_append _ _ ([' '] ++ r) (hblank op) (by simp)
  obtain ⟨htake', hdrop'⟩ := @takeWhile_dropWhile_append _ _ ([' '] ++ s) (hblank op') (by simp)
  dsimp only at heq
  rw [heq] at htake hdrop
  exact ⟨BinaryOp.text_injective (String.toList_injective (htake.symm.trans htake')),
    hdrop.symm.trans hdrop'⟩

theorem Link.Spelled.behind {l : Link} (hl : l.Spelled) {e : Expr Unit} (h : e.Spelled) :
    (l.behind e).Spelled := by
  cases l with
  | member n => exact .member () h hl
  | index es => exact .index () h hl
  | pipeline f args params body => exact .pipeline () h hl.1 hl.2.1 hl.2.2.1 hl.2.2.2

theorem spelled_foldl_behind {links : List Link} (hlinks : ∀ l ∈ links, l.Spelled) {e : Expr Unit}
    (h : e.Spelled) : (links.foldl Link.behind e).Spelled := by
  induction links generalizing e with
  | nil => exact h
  | cons l links ih =>
    rw [List.forall_mem_cons] at hlinks
    exact ih hlinks.2 (hlinks.1.behind h)

/-- Without the minus that it starts with, an expression is one too. -/
theorem Expr.Spelled.exists_unsigned {e : Expr Unit} (h : e.Spelled) {cs : List Char}
    (hm : e.chars = '-' :: cs) : ∃ e' : Expr Unit, e'.Spelled ∧ e'.chars = cs := by
  obtain ⟨opener, head, links, hchain⟩ := h.exists_chain
  have hchars := hchain.chars_eq
  obtain ⟨c, ds, hhead, hopener⟩ := hchain.isHead.exists_chars
  rw [hm, hhead, List.cons_append, List.cons.injEq] at hchars
  obtain ⟨rfl, rfl⟩ := hchars
  obtain rfl : opener = some '-' := hopener
  obtain ⟨hnegative, hlinks, -⟩ := hchain
  cases hnegative with
  | negative n =>
    have hnumber : Atom .integerLit (.literal (.integer ((n + 1 : Nat) : Int)) ()) := .integer (n + 1) ()
    have hunsigned : Chain none (.literal (.integer ((n + 1 : Nat) : Int)) ()) links _ :=
      ⟨.atom hnumber, hlinks, rfl⟩
    refine ⟨_, spelled_foldl_behind hlinks (.atom hnumber), ?_⟩
    rw [chars_negative] at hhead
    rw [hunsigned.chars_eq, chars_integer, List.tail_eq_of_cons_eq hhead]

theorem separable_sign : Separable (fun op : UnaryOp => op.text.toList) (fun _ => True) fun _ => True := by
  rintro op op' r s - - - - heq
  cases op <;> cases op' <;>
    simp_all [UnaryOp.text, UnaryOp.symbol, Symbol.text, Symbol.chars]

theorem operator_ne_question (op : BinaryOp) (k k' : List Char) : op.text.toList ++ k ≠ '?' :: k' := by
  cases op <;> simp [BinaryOp.text, BinaryOp.token, Symbol.text, Symbol.chars, Keyword.text]

/-! ## Parentheses -/

/-- What stands behind an opening parenthesis, with the expressions in it below a length. -/
inductive Group (n : Nat) : Expr Unit → List Char → Prop where
  | unary (op : UnaryOp) {e : Expr Unit} : Short n e →
      Group n (.unary op e ()) (op.text.toList ++ (e.chars ++ [')']))
  | binary (op : BinaryOp) {l r : Expr Unit} : Short n l → Short n r →
      Group n (.binary op l r ()) (l.chars ++ ' ' :: (op.text.toList ++ ' ' :: (r.chars ++ [')'])))
  | ternary {c t e : Expr Unit} : Short n c → Short n t → Short n e →
      Group n (.ternary c t e ()) (c.chars ++ ' ' :: '?' :: ' ' :: '\x7b' :: (t.chars ++
        '\x7d' :: ' ' :: ':' :: ' ' :: '\x7b' :: (e.chars ++ ['\x7d', ')'])))

theorem Head.exists_group {e : Expr Unit} (h : Head (some '(') e) {n : Nat} (hn : e.chars.length ≤ n) :
    ∃ content, e.chars = '(' :: content ∧ Group n e content := by
  cases h with
  | unary op he =>
    refine ⟨_, Expr.chars_unary, .unary op ⟨he, ?_⟩⟩
    simp only [Expr.chars_unary, List.length_cons, List.length_append] at hn
    omega
  | binary op hl hr =>
    simp only [Expr.chars_binary, List.length_cons, List.length_append] at hn
    exact ⟨_, Expr.chars_binary, .binary op ⟨hl, by omega⟩ ⟨hr, by omega⟩⟩
  | ternary hc ht he =>
    simp only [Expr.chars_ternary, List.length_cons, List.length_append] at hn
    exact ⟨_, Expr.chars_ternary, .ternary ⟨hc, by omega⟩ ⟨ht, by omega⟩ ⟨he, by omega⟩⟩

/-! ## Expressions -/

section

variable {n : Nat} (ih : Separable Expr.chars (Short n) Stops)

include ih

theorem separable_links : Separable (List.flatMap Link.chars)
    (fun links => ∀ l ∈ links, l.Spelled ∧ l.chars.length ≤ n) Stops :=
  (separable_link ih).many (fun _ k h => Link.follows_append h.1 k) (fun _ h => h.toFollows)
    fun _ k h => Link.not_stops_append h.1 k

/-- What stands behind a sign in parentheses ends the operand, or it has an operator behind it. -/
theorem ne_infix_of_unary {op : UnaryOp} {e left : Expr Unit} {r k : List Char} (he : Short n e)
    (hleft : Short n left) (hk : Stops (' ' :: k)) :
    op.text.toList ++ (e.chars ++ ')' :: r) ≠ left.chars ++ ' ' :: k := by
  intro heq
  obtain ⟨c, cs, hchars, hc⟩ := hleft.1.exists_chars
  rw [hchars] at heq
  cases op with
  | not =>
    obtain rfl : '!' = c := List.head_eq_of_cons_eq heq
    exact absurd hc (by decide)
  | negate =>
    obtain rfl : '-' = c := List.head_eq_of_cons_eq heq
    obtain ⟨left', hspelled, rfl⟩ := hleft.1.exists_unsigned hchars
    have hshort : Short n left' := ⟨hspelled, by
      have := hleft.2
      rw [hchars, List.length_cons] at this
      omega⟩
    have hrest := (ih e left' _ _ he hshort (stops_closing (by simp) r) hk (List.tail_eq_of_cons_eq heq)).2
    simp at hrest

theorem Group.eq_of_append {e e' : Expr Unit} {content content' r s : List Char} (h : Group n e content)
    (h' : Group n e' content') (heq : content ++ r = content' ++ s) : e = e' ∧ r = s := by
  have hparen (k : List Char) : Stops (')' :: k) := stops_closing (by simp) k
  have hbrace (k : List Char) : Stops ('\x7d' :: k) := stops_closing (by simp) k
  cases h with
  | unary op he =>
    cases h' with
    | unary op' he' =>
      simp only [List.append_assoc, List.singleton_append] at heq
      obtain ⟨rfl, hoperand⟩ := separable_sign op op' _ _ trivial trivial trivial trivial heq
      obtain ⟨rfl, hrs⟩ := ih _ _ _ _ he he' (hparen r) (hparen s) hoperand
      exact ⟨rfl, List.tail_eq_of_cons_eq hrs⟩
    | binary op' hl' hr' =>
      simp only [List.append_assoc, List.cons_append] at heq
      exact absurd heq (ne_infix_of_unary ih he hl' (stops_operator op' _))
    | ternary hc' ht' he' =>
      simp only [List.append_assoc, List.cons_append] at heq
      exact absurd heq (ne_infix_of_unary ih he hc' (stops_question _))
  | @binary op l right hl hr =>
    cases h' with
    | unary op' he' =>
      simp only [List.append_assoc, List.cons_append] at heq
      exact absurd heq.symm (ne_infix_of_unary ih he' hl (stops_operator op _))
    | binary op' hl' hr' =>
      simp only [List.append_assoc, List.cons_append] at heq
      obtain ⟨rfl, htail⟩ := ih _ _ _ _ hl hl' (stops_operator op _) (stops_operator op' _) heq
      obtain ⟨rfl, hright⟩ := separable_operator op op' _ _ trivial trivial ⟨_, rfl⟩ ⟨_, rfl⟩
        (List.tail_eq_of_cons_eq htail)
      obtain ⟨rfl, hrs⟩ := ih _ _ _ _ hr hr' (hparen r) (hparen s) (List.tail_eq_of_cons_eq hright)
      exact ⟨rfl, List.tail_eq_of_cons_eq hrs⟩
    | ternary hc' ht' he' =>
      simp only [List.append_assoc, List.cons_append] at heq
      have htail := (ih _ _ _ _ hl hc' (stops_operator op _) (stops_question _) heq).2
      exact absurd (List.tail_eq_of_cons_eq htail) (operator_ne_question op _ _)
  | ternary hc ht he =>
    cases h' with
    | unary op' he' =>
      simp only [List.append_assoc, List.cons_append] at heq
      exact absurd heq.symm (ne_infix_of_unary ih he' hc (stops_question _))
    | binary op' hl' hr' =>
      simp only [List.append_assoc, List.cons_append] at heq
      have htail := (ih _ _ _ _ hc hl' (stops_question _) (stops_operator op' _) heq).2
      exact absurd (List.tail_eq_of_cons_eq htail).symm (operator_ne_question op' _ _)
    | ternary hc' ht' he' =>
      simp only [List.append_assoc, List.cons_append, List.nil_append] at heq
      obtain ⟨rfl, hthen⟩ := ih _ _ _ _ hc hc' (stops_question _) (stops_question _) heq
      simp only [List.cons.injEq, true_and] at hthen
      obtain ⟨rfl, helse⟩ := ih _ _ _ _ ht ht' (hbrace _) (hbrace _) hthen
      simp only [List.cons.injEq, true_and] at helse
      obtain ⟨rfl, hrs⟩ := ih _ _ _ _ he he' (hbrace _) (hbrace _) helse
      simp only [List.cons.injEq, true_and] at hrs
      exact ⟨rfl, hrs⟩

theorem separable_head : Separable Expr.chars (fun e => (∃ opener, Head opener e) ∧ e.chars.length ≤ n)
    Follows := by
  rintro e e' r s ⟨⟨o, h⟩, hn⟩ ⟨⟨o', h'⟩, hn'⟩ hr hs heq
  obtain rfl := h.opener_eq h' heq
  by_cases ho : o = some '('
  · subst ho
    obtain ⟨content, hchars, hgroup⟩ := h.exists_group hn
    obtain ⟨content', hchars', hgroup'⟩ := h'.exists_group hn'
    rw [hchars, hchars'] at heq
    exact hgroup.eq_of_append ih hgroup' (List.tail_eq_of_cons_eq heq)
  cases h with
  | atom h =>
    cases h' with
    | atom h' => exact separable_atom _ _ r s ⟨_, h⟩ ⟨_, h'⟩ hr.1 hs.1 heq
  | negative m =>
    cases h' with
    | negative m' =>
      rw [chars_negative, chars_negative] at heq
      obtain ⟨hm, hrs⟩ := separable_atom (.literal (.integer ((m + 1 : Nat) : Int)) ())
        (.literal (.integer ((m' + 1 : Nat) : Int)) ()) r s ⟨_, .integer (m + 1) ()⟩
        ⟨_, .integer (m' + 1) ()⟩ hr.1 hs.1
        (by rw [chars_integer, chars_integer]; exact List.tail_eq_of_cons_eq heq)
      simp only [Expr.literal.injEq, Literal.integer.injEq] at hm
      obtain rfl : m = m' := by omega
      exact ⟨rfl, hrs⟩
  | list hes =>
    cases h' with
    | list hes' =>
      rw [Expr.chars_list] at hn hn' heq
      rw [Expr.chars_list] at heq
      obtain ⟨rfl, hrs⟩ := separable_bracketed ih (by simp) _ _ r s
        (Link.Spelled.short (l := .index _) hes hn) (Link.Spelled.short (l := .index _) hes' hn')
        trivial trivial heq
      exact ⟨rfl, hrs⟩
  | unary _ _ | binary _ _ _ | ternary _ _ _ => exact absurd rfl ho

end

theorem follows_links {links : List Link} (hlinks : ∀ l ∈ links, l.Spelled) {r : List Char} (hr : Stops r) :
    Follows (links.flatMap Link.chars ++ r) := by
  cases links with
  | nil => exact hr.toFollows
  | cons l links =>
    rw [List.flatMap_cons, List.append_assoc]
    exact Link.follows_append (hlinks l (by simp)) _

theorem separable_expr (n : Nat) : Separable Expr.chars (Short n) Stops := by
  induction n with
  | zero => exact fun _ _ _ _ h => absurd h.2 (Nat.not_lt_zero _)
  | succ n ih =>
    rintro e e' r s ⟨he, hn⟩ ⟨he', hn'⟩ hr hs heq
    obtain ⟨o, head, links, h⟩ := he.exists_chain
    obtain ⟨o', head', links', h'⟩ := he'.exists_chain
    rw [h.chars_eq, List.length_append] at hn
    rw [h'.chars_eq, List.length_append] at hn'
    rw [h.chars_eq, h'.chars_eq, List.append_assoc, List.append_assoc] at heq
    obtain ⟨rfl, hlinks⟩ := separable_head ih head head' _ _ ⟨⟨o, h.isHead⟩, by omega⟩
      ⟨⟨o', h'.isHead⟩, by omega⟩ (follows_links h.spelled hr) (follows_links h'.spelled hs) heq
    have hshort {links : List Link} (h : ∀ l ∈ links, l.Spelled)
        (hn : head.chars.length + (links.flatMap Link.chars).length < n + 1) :
        ∀ l ∈ links, l.Spelled ∧ l.chars.length ≤ n := by
      intro l hl
      have hle := length_le_flatMap hl Link.chars
      exact ⟨h l hl, by omega⟩
    obtain ⟨rfl, hrs⟩ := separable_links ih links links' r s (hshort h.spelled hn) (hshort h'.spelled hn')
      hr hs hlinks
    exact ⟨h.foldl_eq.symm.trans h'.foldl_eq, hrs⟩

theorem Expr.Spelled.eq_of_text {e e' : Expr Unit} (h : e.Spelled) (h' : e'.Spelled)
    (heq : e.text = e'.text) : e = e' := by
  have hchars : e.chars ++ [] = e'.chars ++ [] := by rw [chars, chars, heq]
  exact (separable_expr (e.chars.length + e'.chars.length + 1) e e' [] [] ⟨h, by omega⟩ ⟨h', by omega⟩
    stops_nil stops_nil hchars).1

end SchemaLang
