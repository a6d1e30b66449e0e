import SchemaLang.Proofs.Phrase.Member

/-!
# The grammar of schema units

* `Import.Derives`, `TypeDecl.Derives` and `DatatypeDecl.Derives` are what a unit consists of behind
  its header.
* `SchemaUnit.Derives` is a whole unit: the header, the imports, the declarations.
-/

set_option autoImplicit false

namespace SchemaLang

open Phrase

inductive Import.Derives : Phrase (Import Unit) where
  | plain {k p : Item} :
      k.kind = .keyword .importWord → p.kind = .stringLit →
        Derives [k, p] ⟨stringValue p.text, none, ()⟩
  | aliased {k p a n : Item} :
      k.kind = .keyword .importWord → p.kind = .stringLit → a.kind = .keyword .asWord → n.IsAlias →
        Derives [k, p, a, n] ⟨stringValue p.text, some ⟨n.text, ()⟩, ()⟩

/-- The words before the name of a type. -/
inductive TypeModifier.Derives : Phrase TypeModifier where
  | none {t : Item} : t.kind = .keyword .typeWord → Derives [t] .none
  | abstract_ {m t : Item} :
      m.kind = .keyword .abstractWord → t.kind = .keyword .typeWord → Derives [m, t] .abstract_
  | part {m t : Item} :
      m.kind = .keyword .partWord → t.kind = .keyword .typeWord → Derives [m, t] .part

/-- The parents of a type; a comma may end them. -/
inductive Phrase.Parents : Phrase (List (TypeRef Unit)) where
  | absent : Parents [] []
  | present {e : Item} {ts : List Item} {ps : List (TypeRef Unit)} :
      e.kind = .keyword .extendsWord → Elements TypeRef.Derives ts ps → Parents (e :: ts) ps

/-- The first item documents a declaration. -/
inductive TypeDecl.Derives (lenient : Bool) : Phrase (TypeDecl Unit) where
  | mk {f n : Item} {fs ts us : List Item} {m : TypeModifier} {ps : List (TypeRef Unit)}
      {members : List (Member Unit)} :
      TypeModifier.Derives (f :: fs) m → n.kind = .upperWord → Parents ts ps →
        Enclosed .lBrace .rBrace (Many (Member.Derives lenient)) us members →
          Derives lenient (f :: fs ++ n :: (ts ++ us)) ⟨f.doc, ⟨n.text, ()⟩, m, ps, members, ()⟩

inductive DatatypeDecl.Derives : Phrase (DatatypeDecl Unit) where
  | mk {k n a : Item} {ts : List Item} {b : PlacedBuiltin Unit} :
      k.kind = .keyword .typeWord → n.kind = .upperWord → a.kind = .symbol .assign →
        PlacedBuiltin.Derives ts b → Derives (k :: n :: a :: ts) ⟨k.doc, ⟨n.text, ()⟩, b, ()⟩

inductive Declaration.Derives (lenient : Bool) : Phrase (Declaration Unit) where
  | type {ts : List Item} {t : TypeDecl Unit} :
      TypeDecl.Derives lenient ts t → Derives lenient ts (.type t)
  | datatype {ts : List Item} {d : DatatypeDecl Unit} :
      DatatypeDecl.Derives ts d → Derives lenient ts (.datatype d)

inductive SchemaUnit.Derives (lenient : Bool) : Phrase (SchemaUnit Unit) where
  | mk {s n : Item} {ts us : List Item} {imports : List (Import Unit)}
      {declarations : List (Declaration Unit)} :
      s.kind = .keyword .schemaWord → n.kind = .stringLit → Many Import.Derives ts imports →
        Many (Declaration.Derives lenient) us declarations →
          Derives lenient (s :: n :: (ts ++ us))
            ⟨stringValue n.text, some (), s.doc, imports, declarations, ()⟩

theorem Import.Derives.ne_nil {ts : List Item} {d : Import Unit} (h : Import.Derives ts d) :
    ts ≠ [] := by
  cases h <;> simp

theorem Declaration.Derives.ne_nil {lenient : Bool} {ts : List Item} {d : Declaration Unit}
    (h : Declaration.Derives lenient ts d) : ts ≠ [] := by
  rcases h with ⟨⟨⟩⟩ | ⟨⟨⟩⟩ <;> simp

end SchemaLang
