import SchemaLang.Proofs.Grouped.Separable
import SchemaLang.Proofs.Written.Before

/-!
# Expressions as they are spelled

* `Expr.chars e` are the characters of the text of an expression.
* `Atom kind e`: the expression is read from one token of the kind.
* `Expr.Spelled e`: names are words and values are what tokens stand for, at any depth.

The parts of a pipeline that may be missing have characters of their own (`Expr.argsChars`, `paramsChars`
and `Expr.bodyChars`).

Main statements: places do not matter (`Expr.Spelled.map`), and for each kind of expression its characters in
terms of those of its parts.
-/

set_option autoImplicit false

namespace SchemaLang

variable {σ τ : Type}

def Expr.chars (e : Expr σ) : List Char := e.text.toList

inductive Atom : TokenKind → Expr σ → Prop where
  | integer (n : Nat) (p : σ) : Atom .integerLit (.literal (.integer n) p)
  | float {x : Binary64} (p : σ) : x.isNegative = false → Atom .floatLit (.literal (.float x) p)
  | string (s : String) (p : σ) : Atom .stringLit (.literal (.string s) p)
  | regex {s : String} (p : σ) : RegexBody (escapeSlashes s.toList) →
      Atom .regexLit (.literal (.regex s) p)
  | true_ (p : σ) : Atom (.keyword .trueWord) (.literal (.boolean true) p)
  | false_ (p : σ) : Atom (.keyword .falseWord) (.literal (.boolean false) p)
  | nil (p : σ) : Atom (.keyword .nilWord) (.literal .nil p)
  | dollar {n : String} (p : σ) : IsRun n.toList → Atom .varWord (.dollar n p)
  | property {n : String} (p : σ) : hasAliasShape n.toList = true → wordKind n = .lowerWord →
      Atom .lowerWord (.property n p)
  | relation {n : String} (p : σ) : hasAliasShape n.toList = true → wordKind n = .upperWord →
      Atom .upperWord (.relation n p)
  | datatype (k : BuiltinKind) (p : σ) : Atom (.builtin k) (.datatype k p)

inductive Expr.Spelled : Expr σ → Prop where
  | atom {kind : TokenKind} {e : Expr σ} : Atom kind e → Spelled e
  | negative (n : Nat) (p : σ) : Spelled (.literal (.integer (.negSucc n)) p)
  | list {es : List (Expr σ)} (p : σ) : (∀ e ∈ es, Spelled e) → Spelled (.list es p)
  | unary (op : UnaryOp) {e : Expr σ} (p : σ) : Spelled e → Spelled (.unary op e p)
  | binary (op : BinaryOp) {l r : Expr σ} (p : σ) : Spelled l → Spelled r → Spelled (.binary op l r p)
  | member {e : Expr σ} {n : Name σ} (p : σ) : Spelled e → hasAliasShape n.text.toList = true →
      Spelled (.member e n p)
  | index {e : Expr σ} {es : List (Expr σ)} (p : σ) : Spelled e → (∀ e ∈ es, Spelled e) →
      Spelled (.index e es p)
  | ternary {c t e : Expr σ} (p : σ) : Spelled c → Spelled t → Spelled e → Spelled (.ternary c t e p)
  | pipeline {s : Expr σ} {f : Name σ} {args : Option (List (Expr σ))} {params : Option (List (Name σ))}
      {body : Option (Expr σ)} (p : σ) : Spelled s → hasAliasShape f.text.toList = true →
        (∀ es ∈ args, ∀ e ∈ es, Spelled e) →
          (∀ ps ∈ params, ps ≠ [] ∧ ∀ q ∈ ps, IsRun q.text.toList) → (∀ e ∈ body, Spelled e) →
            Spelled (.pipeline s f args params body p)

theorem Atom.map (f : σ → τ) {kind : TokenKind} {e : Expr σ} (h : Atom kind e) : Atom kind (e.map f) := by
  cases h with
  | integer n p => exact .integer n (f p)
  | float p hx => exact .float (f p) hx
  | string s p => exact .string s (f p)
  | regex p hs => exact .regex (f p) hs
  | true_ p => exact .true_ (f p)
  | false_ p => exact .false_ (f p)
  | nil p => exact .nil (f p)
  | dollar p hn => exact .dollar (f p) hn
  | property p hn hk => exact .property (f p) hn hk
  | relation p hn hk => exact .relation (f p) hn hk
  | datatype k p => exact .datatype k (f p)

theorem Expr.Spelled.map (f : σ → τ) {e : Expr σ} (h : e.Spelled) : (e.map f).Spelled := by
  have all {es : List (Expr σ)} (ih : ∀ e ∈ es, (e.map f).Spelled) : ∀ e ∈ Expr.mapAll f es, e.Spelled := by
    rw [Expr.mapAll_eq_map]
    simpa using ih
  induction h with
  | atom h => exact .atom (h.map f)
  | negative n p => exact .negative n (f p)
  | list p _ ih => exact .list (f p) (all ih)
  | unary op p _ ih => exact .unary op (f p) ih
  | binary op p _ _ ihl ihr => exact .binary op (f p) ihl ihr
  | member p _ hn ih => exact .member (f p) ih hn
  | index p _ _ ih ihs => exact .index (f p) ih (all ihs)
  | ternary p _ _ _ ihc iht ihe => exact .ternary (f p) ihc iht ihe
  | @pipeline s g args params body p _ hg _ hparams _ ihs ihargs ihbody =>
    refine .pipeline (f p) ihs hg ?_ ?_ ?_
    · rw [Expr.mapArgs_eq_map]
      intro es hes
      obtain ⟨fs, hfs, rfl⟩ := Option.map_eq_some_iff.1 hes
      simpa using ihargs fs hfs
    · intro ps hps
      obtain ⟨qs, hqs, rfl⟩ := Option.map_eq_some_iff.1 hps
      simpa using hparams qs hqs
    · rw [Expr.mapBody_eq_map]
      intro e he
      obtain ⟨b, hb, rfl⟩ := Option.map_eq_some_iff.1 he
      exact ihbody b hb

/-! ## Texts -/

theorem intercalate_texts (es : List (Expr σ)) :
    [',', ' '].intercalate ((Expr.texts es).map String.toList) = commaed (es.map Expr.chars) := by
  rw [Expr.texts_eq_map, List.map_map]
  rfl

namespace Expr

variable {p : σ}

theorem chars_list {es : List (Expr σ)} :
    (list es p).chars = ['['] ++ (commaed (es.map chars) ++ [']']) := by
  simp [chars, text, intercalate_texts]

theorem chars_unary {op : UnaryOp} {e : Expr σ} :
    (unary op e p).chars = '(' :: (op.text.toList ++ (e.chars ++ [')'])) := by
  simp [chars, text]

theorem chars_binary {op : BinaryOp} {l r : Expr σ} : (binary op l r p).chars =
    '(' :: (l.chars ++ ' ' :: (op.text.toList ++ ' ' :: (r.chars ++ [')']))) := by
  simp [chars, text]

theorem chars_ternary {c t e : Expr σ} : (ternary c t e p).chars =
    '(' :: (c.chars ++ ' ' :: '?' :: ' ' :: '\x7b' :: (t.chars ++ '\x7d' :: ' ' :: ':' :: ' ' :: '\x7b' ::
      (e.chars ++ ['\x7d', ')']))) := by
  simp [chars, text, braced]

theorem chars_member {e : Expr σ} {n : Name σ} :
    (member e n p).chars = e.chars ++ '.' :: n.text.toList := by
  simp [chars, text]

theorem chars_index {e : Expr σ} {es : List (Expr σ)} :
    (index e es p).chars = e.chars ++ (['['] ++ (commaed (es.map chars) ++ [']'])) := by
  simp [chars, text, intercalate_texts]

def argsChars (args : Option (List (Expr σ))) : List Char :=
  args.elim [] fun es => ['('] ++ (commaed (es.map chars) ++ [')'])

def bodyChars (body : Option (Expr σ)) : List Char :=
  body.elim [] fun e => [' ', '\x7b'] ++ (e.chars ++ ['\x7d'])

end Expr

def paramsChars (params : Option (List (Name σ))) : List Char :=
  params.elim [] fun ps => [' ', '|'] ++ (commaed (ps.map fun p => '$' :: p.text.toList) ++ ['|'])

theorem Expr.chars_pipeline {s : Expr σ} {f : Name σ} {args : Option (List (Expr σ))}
    {params : Option (List (Name σ))} {body : Option (Expr σ)} {p : σ} :
    (pipeline s f args params body p).chars = s.chars ++ ([' ', '-', '>', ' '] ++ (f.text.toList ++
      (argsChars args ++ (paramsChars params ++ bodyChars body)))) := by
  have hargs : (argsText args).toList = argsChars args := by
    cases args <;> simp [argsText, argsChars, intercalate_texts]
  have hparams : (paramsText params).toList = paramsChars params := by
    cases params with
    | none => rfl
    | some ps =>
      simp [paramsText, paramsChars, commaed, String.toList_intercalate, Function.comp_def]
  have hbody : (bodyText body).toList = bodyChars body := by
    cases body <;> simp [bodyText, bodyChars, braced, chars]
  simp [chars, text, hargs, hparams, hbody]

end SchemaLang
