import SchemaLang.Decimal.Shortest
import SchemaLang.Schema.Name
import SchemaLang.Schema.Operator
import SchemaLang.Text.Quoted

/-!
# Constraint expressions

* `Literal` and `Expr` are the values and the trees of constraints.
* `Expr.place` is the place of a node, `Expr.withPlace` puts it elsewhere, `Expr.map` moves the
  whole tree.
* `Expr.text` writes a tree with all its parentheses.
-/

set_option autoImplicit false

namespace SchemaLang

inductive Literal where
  | integer (value : Int)
  | float (value : Binary64)
  | string (value : String)
  | boolean (value : Bool)
  | regex (source : String)
  | nil
deriving DecidableEq, Repr

inductive Expr (σ : Type) where
  | literal (value : Literal) (place : σ)
  | list (elements : List (Expr σ)) (place : σ)
  | unary (op : UnaryOp) (operand : Expr σ) (place : σ)
  | binary (op : BinaryOp) (left right : Expr σ) (place : σ)
  | member (object : Expr σ) (name : Name σ) (place : σ)
  | index (object : Expr σ) (indices : List (Expr σ)) (place : σ)
  | ternary (condition thenBranch elseBranch : Expr σ) (place : σ)
  /-- The parts behind the function may be missing, which is not the same as empty. -/
  | pipeline (subject : Expr σ) (function : Name σ) (args : Option (List (Expr σ)))
      (params : Option (List (Name σ))) (body : Option (Expr σ)) (place : σ)
  /-- A word after a dollar sign; the sign is not part of the name. -/
  | dollar (name : String) (place : σ)
  /-- A lower-case word: a property. -/
  | property (name : String) (place : σ)
  /-- An upper-case word: a relation. -/
  | relation (name : String) (place : σ)
  | datatype (kind : BuiltinKind) (place : σ)

variable {σ τ υ : Type}

namespace Expr

def place : Expr σ → σ
  | literal _ p | list _ p | unary _ _ p | binary _ _ _ p | member _ _ p | index _ _ p
  | ternary _ _ _ p | pipeline _ _ _ _ _ p | dollar _ p | property _ p | relation _ p
  | datatype _ p => p

def withPlace (q : σ) : Expr σ → Expr σ
  | literal v _ => literal v q
  | list es _ => list es q
  | unary op e _ => unary op e q
  | binary op l r _ => binary op l r q
  | member e n _ => member e n q
  | index e es _ => index e es q
  | ternary c t e _ => ternary c t e q
  | pipeline s f as ps b _ => pipeline s f as ps b q
  | dollar n _ => dollar n q
  | property n _ => property n q
  | relation n _ => relation n q
  | datatype k _ => datatype k q

def isNil : Expr σ → Bool
  | literal .nil _ => true
  | _ => false

@[simp] theorem place_withPlace (q : σ) (e : Expr σ) : (e.withPlace q).place = q := by
  cases e <;> rfl

end Expr

/-- Numbers of expressions are written so that a float never looks like an integer. -/
def Literal.floatLayout : FloatLayout := ⟨some (-3, 16), true, false, .up⟩

/-- A backslash before each slash. -/
def escapeSlashes : List Char → List Char
  | [] => []
  | c :: cs => if c = '/' then '\\' :: '/' :: escapeSlashes cs else c :: escapeSlashes cs

def Literal.text : Literal → String
  | .integer v => toString v
  | .float v => String.ofList (Literal.floatLayout.write v)
  | .string v => Text.quoted v
  | .boolean v => toString v
  | .regex s => String.ofList ('/' :: (escapeSlashes s.toList ++ ['/']))
  | .nil => "nil"

/-- A text in braces. -/
def braced (s : String) : String := "\x7b" ++ s ++ "\x7d"

/-- Parameters between bars, each with its dollar sign. -/
def paramsText : Option (List (Name σ)) → String
  | none => ""
  | some ps => " |" ++ ", ".intercalate (ps.map fun p => "$" ++ p.text) ++ "|"

mutual

/-- Operators stand in parentheses, so the text shows how they group. -/
def Expr.text : Expr σ → String
  | .literal v _ => v.text
  | .list es _ => "[" ++ ", ".intercalate (Expr.texts es) ++ "]"
  | .unary op e _ => "(" ++ op.text ++ e.text ++ ")"
  | .binary op l r _ => "(" ++ l.text ++ " " ++ op.text ++ " " ++ r.text ++ ")"
  | .member e n _ => e.text ++ "." ++ n.text
  | .index e es _ => e.text ++ "[" ++ ", ".intercalate (Expr.texts es) ++ "]"
  | .ternary c t e _ =>
    "(" ++ c.text ++ " ? " ++ braced t.text ++ " : " ++ braced e.text ++ ")"
  | .pipeline s f args params body _ =>
    s.text ++ " -> " ++ f.text ++ Expr.argsText args ++ paramsText params ++ Expr.bodyText body
  | .dollar n _ => "$" ++ n
  | .property n _ | .relation n _ => n
  | .datatype k _ => k.text

def Expr.texts : List (Expr σ) → List String
  | [] => []
  | e :: es => e.text :: Expr.texts es

def Expr.argsText : Option (List (Expr σ)) → String
  | none => ""
  | some es => "(" ++ ", ".intercalate (Expr.texts es) ++ ")"

def Expr.bodyText : Option (Expr σ) → String
  | none => ""
  | some e => " " ++ braced e.text

end

mutual

def Expr.map (f : σ → τ) : Expr σ → Expr τ
  | .literal v p => .literal v (f p)
  | .list es p => .list (Expr.mapAll f es) (f p)
  | .unary op e p => .unary op (e.map f) (f p)
  | .binary op l r p => .binary op (l.map f) (r.map f) (f p)
  | .member e n p => .member (e.map f) (n.map f) (f p)
  | .index e es p => .index (e.map f) (Expr.mapAll f es) (f p)
  | .ternary c t e p => .ternary (c.map f) (t.map f) (e.map f) (f p)
  | .pipeline s g args params body p =>
    .pipeline (s.map f) (g.map f) (Expr.mapArgs f args) (params.map (List.map (Name.map f)))
      (Expr.mapBody f body) (f p)
  | .dollar n p => .dollar n (f p)
  | .property n p => .property n (f p)
  | .relation n p => .relation n (f p)
  | .datatype k p => .datatype k (f p)

def Expr.mapAll (f : σ → τ) : List (Expr σ) → List (Expr τ)
  | [] => []
  | e :: es => e.map f :: Expr.mapAll f es

def Expr.mapArgs (f : σ → τ) : Option (List (Expr σ)) → Option (List (Expr τ))
  | none => none
  | some es => some (Expr.mapAll f es)

def Expr.mapBody (f : σ → τ) : Option (Expr σ) → Option (Expr τ)
  | none => none
  | some e => some (e.map f)

end

@[simp] theorem Expr.place_map (f : σ → τ) (e : Expr σ) : (e.map f).place = f e.place := by
  cases e <;> simp [Expr.map, Expr.place]

theorem Expr.mapAll_eq_map (f : σ → τ) (es : List (Expr σ)) :
    Expr.mapAll f es = es.map (Expr.map f) := by
  induction es with
  | nil => rfl
  | cons e es ih => simp [Expr.mapAll, ih]

theorem Expr.mapArgs_eq_map (f : σ → τ) (args : Option (List (Expr σ))) :
    Expr.mapArgs f args = args.map (List.map (Expr.map f)) := by
  cases args with
  | none => rfl
  | some es => simp [Expr.mapArgs, Expr.mapAll_eq_map]

theorem Expr.mapBody_eq_map (f : σ → τ) (body : Option (Expr σ)) :
    Expr.mapBody f body = body.map (Expr.map f) := by
  cases body <;> rfl

mutual

@[simp] theorem Expr.map_map (f : σ → τ) (g : τ → υ) :
    (e : Expr σ) → (e.map f).map g = e.map (g ∘ f)
  | .literal .. | .dollar .. | .property .. | .relation .. | .datatype .. => by simp [Expr.map]
  | .list es _ => by simp [Expr.map, Expr.mapAll_mapAll f g es]
  | .unary _ e _ => by simp [Expr.map, Expr.map_map f g e]
  | .binary _ l r _ => by simp [Expr.map, Expr.map_map f g l, Expr.map_map f g r]
  | .member e _ _ => by simp [Expr.map, Expr.map_map f g e]
  | .index e es _ => by simp [Expr.map, Expr.map_map f g e, Expr.mapAll_mapAll f g es]
  | .ternary c t e _ => by
    simp [Expr.map, Expr.map_map f g c, Expr.map_map f g t, Expr.map_map f g e]
  | .pipeline s _ args _ body _ => by
    have ha : Expr.mapArgs g (Expr.mapArgs f args) = Expr.mapArgs (g ∘ f) args := by
      cases args with
      | none => rfl
      | some es => simp [Expr.mapArgs, Expr.mapAll_mapAll f g es]
    have hb : Expr.mapBody g (Expr.mapBody f body) = Expr.mapBody (g ∘ f) body := by
      cases body with
      | none => rfl
      | some e => simp [Expr.mapBody, Expr.map_map f g e]
    simp [Expr.map, Expr.map_map f g s, ha, hb, Function.comp_def]

theorem Expr.mapAll_mapAll (f : σ → τ) (g : τ → υ) :
    (es : List (Expr σ)) → Expr.mapAll g (Expr.mapAll f es) = Expr.mapAll (g ∘ f) es
  | [] => rfl
  | e :: es => by simp [Expr.mapAll, Expr.map_map f g e, Expr.mapAll_mapAll f g es]

end

theorem Expr.texts_eq_map (es : List (Expr σ)) : Expr.texts es = es.map Expr.text := by
  induction es with
  | nil => rfl
  | cons e es ih => simp [Expr.texts, ih]

theorem paramsText_map (f : σ → τ) (ps : Option (List (Name σ))) :
    paramsText (ps.map (List.map (Name.map f))) = paramsText ps := by
  cases ps with
  | none => rfl
  | some ps => simp [paramsText, Function.comp_def]

mutual

/-- Moving an expression does not change its text. -/
theorem Expr.text_map (f : σ → τ) : (e : Expr σ) → (e.map f).text = e.text
  | .literal .. | .dollar .. | .property .. | .relation .. | .datatype .. => by
    simp [Expr.map, Expr.text]
  | .list es _ => by simp [Expr.map, Expr.text, Expr.texts_mapAll f es]
  | .unary _ e _ => by simp [Expr.map, Expr.text, Expr.text_map f e]
  | .binary _ l r _ => by simp [Expr.map, Expr.text, Expr.text_map f l, Expr.text_map f r]
  | .member e _ _ => by simp [Expr.map, Expr.text, Expr.text_map f e]
  | .index e es _ => by
    simp [Expr.map, Expr.text, Expr.text_map f e, Expr.texts_mapAll f es]
  | .ternary c t e _ => by
    simp [Expr.map, Expr.text, Expr.text_map f c, Expr.text_map f t, Expr.text_map f e]
  | .pipeline s _ none _ none _ => by
    simp [Expr.map, Expr.text, Expr.text_map f s, paramsText_map, Expr.mapArgs, Expr.argsText,
      Expr.mapBody, Expr.bodyText]
  | .pipeline s _ none _ (some b) _ => by
    simp [Expr.map, Expr.text, Expr.text_map f s, paramsText_map, Expr.mapArgs, Expr.argsText,
      Expr.mapBody, Expr.bodyText, Expr.text_map f b]
  | .pipeline s _ (some es) _ none _ => by
    simp [Expr.map, Expr.text, Expr.text_map f s, paramsText_map, Expr.mapArgs, Expr.argsText,
      Expr.mapBody, Expr.bodyText, Expr.texts_mapAll f es]
  | .pipeline s _ (some es) _ (some b) _ => by
    simp [Expr.map, Expr.text, Expr.text_map f s, paramsText_map, Expr.mapArgs, Expr.argsText,
      Expr.mapBody, Expr.bodyText, Expr.texts_mapAll f es, Expr.text_map f b]

theorem Expr.texts_mapAll (f : σ → τ) :
    (es : List (Expr σ)) → Expr.texts (Expr.mapAll f es) = Expr.texts es
  | [] => rfl
  | e :: es => by simp [Expr.mapAll, Expr.texts, Expr.text_map f e, Expr.texts_mapAll f es]

end

end SchemaLang
