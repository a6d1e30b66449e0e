import SchemaLang.Proofs.Phrase.Datatype
import SchemaLang.Proofs.Phrase.Expr
import SchemaLang.Schema.Unit

/-!
# The grammar of type members

* `Property.Derives`, `Association.Derives`, `Composition.Derives` and `Invariant.Derives` are the four
  kinds of members, `Member.Derives` is any of them.
* `Multiplicity.Derives` is how many targets a relation may have, `ReverseEdge.Derives` its other
  direction.
* `Phrase.Many` are phrases one behind the other.

A member is documented by its first item. Constraints are in the strict or the lenient grammar.
-/

set_option autoImplicit false

namespace SchemaLang

namespace Phrase

variable {α : Type} {R S : Phrase α}

/-- Phrases without anything between them. -/
inductive Many (R : Phrase α) : Phrase (List α) where
  | nil : Many R [] []
  | cons {ts us : List Item} {a : α} {as : List α} :
      R ts a → Many R us as → Many R (ts ++ us) (a :: as)

theorem Many.imp (h : ∀ ts a, R ts a → S ts a) {ts : List Item} {as : List α}
    (hm : Many R ts as) : Many S ts as := by
  induction hm with
  | nil => exact .nil
  | cons hr _ ih => exact .cons (h _ _ hr) ih

/-- The targets behind the colon of a multiplicity; `true` is many. -/
inductive Cardinality : Phrase Bool where
  | absent : Cardinality [] false
  | one {c t : Item} : c.kind = .symbol .colon → t.kind = .keyword .oneWord → Cardinality [c, t] false
  | many {c t : Item} :
      c.kind = .symbol .colon → t.kind = .keyword .manyWord → Cardinality [c, t] true

/-- What stands in the parentheses of a multiplicity. -/
inductive MultiplicityForm : Phrase Multiplicity where
  | optional {t : Item} {ts : List Item} {isMany : Bool} :
      t.kind = .symbol .underscore → Cardinality ts isMany →
        MultiplicityForm (t :: ts) (.of false isMany)
  | required {t : Item} {ts : List Item} {isMany : Bool} :
      t.kind = .keyword .oneWord → Cardinality ts isMany →
        MultiplicityForm (t :: ts) (.of true isMany)
  | many {t : Item} : t.kind = .keyword .manyWord → MultiplicityForm [t] (.of false true)

abbrev Constraint (lenient : Bool) : Phrase (Expr Unit) :=
  Expr.Derives lenient lenient .ternary

end Phrase

open Phrase

inductive PropertyModifier.Derives : Phrase PropertyModifier where
  | none : Derives [] .none
  | primary {t : Item} : t.kind = .keyword .primaryWord → Derives [t] .primary
  | required {t : Item} : t.kind = .keyword .requiredWord → Derives [t] .required

inductive Property.Derives : Phrase (Property Unit) where
  | mk {n : Item} {ts us : List Item} {d : DatatypeRef Unit} {m : PropertyModifier} :
      n.kind.namesProperty = true → DatatypeRef.Derives ts d → PropertyModifier.Derives us m →
        Derives (n :: (ts ++ us)) ⟨n.doc, ⟨n.text, ()⟩, d, m, ()⟩

inductive Multiplicity.Derives : Phrase Multiplicity where
  | absent : Derives [] .optionalOne
  | present {ts : List Item} {m : Multiplicity} :
      Enclosed .lParen .rParen MultiplicityForm ts m → Derives ts m

inductive ReverseEdge.Derives : Phrase (ReverseEdge Unit) where
  | mk {s n : Item} {ts : List Item} {m : Multiplicity} :
      s.kind = .symbol .slash → n.kind.isWord = true → Multiplicity.Derives ts m →
        Derives (s :: n :: ts) ⟨⟨n.text, ()⟩, m, ()⟩

inductive RelationBody.Derives : Phrase (RelationBody Unit) where
  | mk {ts : List Item} {ps : List (Property Unit)} :
      Enclosed .lBrace .rBrace (Many Property.Derives) ts ps → Derives ts ⟨ps, ()⟩

inductive Association.Derives : Phrase (Association Unit) where
  | mk {a n : Item} {ts us vs ws : List Item} {m : Multiplicity} {target : TypeRef Unit}
      {reverse : Option (ReverseEdge Unit)} {body : Option (RelationBody Unit)} :
      a.kind = .symbol .association → n.kind.isWord = true → Multiplicity.Derives ts m →
        TypeRef.Derives us target → Optional ReverseEdge.Derives vs reverse →
          Optional RelationBody.Derives ws body →
            Derives (a :: n :: (ts ++ us ++ vs ++ ws))
              ⟨a.doc, ⟨n.text, ()⟩, m, target, reverse, body, ()⟩

inductive Composition.Derives : Phrase (Composition Unit) where
  | mk {a n : Item} {ts us vs : List Item} {m : Multiplicity} {target : TypeRef Unit}
      {reverse : Option (ReverseEdge Unit)} :
      a.kind = .symbol .composition → n.kind.isWord = true → Multiplicity.Derives ts m →
        TypeRef.Derives us target → Optional ReverseEdge.Derives vs reverse →
          Derives (a :: n :: (ts ++ us ++ vs)) ⟨a.doc, ⟨n.text, ()⟩, m, target, reverse, ()⟩

inductive Invariant.Derives (lenient : Bool) : Phrase (Invariant Unit) where
  | mk {b m : Item} {ts : List Item} {e : Expr Unit} :
      b.kind = .symbol .bang → m.kind = .stringLit → Constraint lenient ts e →
        Derives lenient (b :: m :: ts) ⟨stringValue m.text, e, ()⟩

inductive Member.Derives (lenient : Bool) : Phrase (Member Unit) where
  | property {ts : List Item} {p : Property Unit} :
      Property.Derives ts p → Derives lenient ts (.property p)
  | association {ts : List Item} {a : Association Unit} :
      Association.Derives ts a → Derives lenient ts (.association a)
  | composition {ts : List Item} {c : Composition Unit} :
      Composition.Derives ts c → Derives lenient ts (.composition c)
  | invariant {ts : List Item} {i : Invariant Unit} :
      Invariant.Derives lenient ts i → Derives lenient ts (.invariant i)

theorem Member.Derives.toLenient {lenient : Bool} {ts : List Item} {m : Member Unit}
    (h : Member.Derives lenient ts m) : Member.Derives true ts m := by
  cases h with
  | property h => exact .property h
  | association h => exact .association h
  | composition h => exact .composition h
  | invariant h =>
    obtain ⟨hb, hm, he⟩ := h
    refine .invariant (.mk hb hm ?_)
    cases lenient with
    | false => exact he.toLenient.mono (fun _ => rfl) (Nat.le_refl _)
    | true => exact he

end SchemaLang
