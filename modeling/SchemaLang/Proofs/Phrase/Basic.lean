import SchemaLang.Grammar.Item

/-!
# Phrases

A phrase is a sequence of items that says something. The grammar of the language is given as
relations between sequences of items and what they say, apart from any way of reading them.

* `Phrase α` is such a relation; what is said has no places.
* `Phrase.Elements`, `Phrase.Listing`, `Phrase.Enclosed` and `Phrase.Optional` are the ways in which
  phrases are made of others.

Where the phrases of a relation have parts of the same relation, its definition takes any relation `R` for
them that implies it.
-/

set_option autoImplicit false

namespace SchemaLang

/-- The place of a node in a tree without places. -/
def forget {σ : Type} (_ : σ) : Unit := ()

abbrev Phrase (α : Type) : Type := List Item → α → Prop

namespace Phrase

variable {α : Type}

/-- Phrases between commas, one at least. A comma may end them. -/
inductive Elements (R : Phrase α) : Phrase (List α) where
  | one {ts : List Item} {a : α} : R ts a → Elements R ts [a]
  | ended {ts : List Item} {a : α} {c : Item} :
      R ts a → c.kind = .symbol .comma → Elements R (ts ++ [c]) [a]
  | more {ts us : List Item} {a : α} {as : List α} {c : Item} :
      R ts a → c.kind = .symbol .comma → Elements R us as → Elements R (ts ++ c :: us) (a :: as)

/-- Nothing, or phrases between commas. -/
inductive Listing (R : Phrase α) : Phrase (List α) where
  | empty : Listing R [] []
  | filled {ts : List Item} {as : List α} : Elements R ts as → Listing R ts as

/-- A phrase between two symbols. -/
inductive Enclosed (opener closer : Symbol) (R : Phrase α) : Phrase α where
  | mk {l r : Item} {ts : List Item} {a : α} :
      l.kind = .symbol opener → R ts a → r.kind = .symbol closer →
        Enclosed opener closer R (l :: (ts ++ [r])) a

/-- A phrase that may be missing. -/
inductive Optional (R : Phrase α) : Phrase (Option α) where
  | absent : Optional R [] none
  | present {ts : List Item} {a : α} : R ts a → Optional R ts (some a)

end Phrase

end SchemaLang
