import SchemaLang.Proofs.Phrase.Visited

/-!
# Datatypes of derived units

* `Builtin.InOrder`: no finite range of a datatype ends before it starts, and an enumeration has two
  values at least.

Main statement: a walk of a derived unit meets no other built-in datatypes
(`SchemaUnit.Derives.inOrder_of_mem_walk`).
-/

set_option autoImplicit false

namespace SchemaLang

variable {σ : Type}

def Builtin.InOrder : Builtin σ → Prop
  | .integer min max => ∀ lo hi, min = .value lo → max = .value hi → lo ≤ hi
  | .float min max => ∀ lo hi, min = .value lo → max = .value hi → hi.lt lo = false
  | .string min max | .list _ min max => ∀ lo hi, min = .value lo → max = .value hi → lo ≤ hi
  | .enum values => 2 ≤ values.length
  | _ => True

/-- A visit of a built-in datatype finds it in order. -/
def Visit.InOrder (v : Visit σ) : Prop := ∀ b, v.node = .builtin b → b.InOrder

variable {ts : List Item}

namespace Phrase

theorem Range.ordered {α : Type} {B : Phrase (Bound α)} {le : α → α → Prop} {min max : Bound α}
    (h : Range B le ts (min, max)) : ∀ lo hi, min = .value lo → max = .value hi → le lo hi := by
  cases h with
  | absent => nofun
  | present h =>
    cases h with
    | mk _ hb _ =>
      cases hb with
      | mk _ _ _ hle => exact hle

theorem Parameters.inOrder {E : Phrase (DatatypeRef Unit)} {kind : BuiltinKind}
    {b : Builtin Unit} (h : Parameters E kind ts b) : b.InOrder := by
  cases h with
  | integer h | float h | string h | list _ h =>
    rw [Builtin.InOrder]
    exact h.ordered
  | enum _ hn => exact hn
  | boolean | date | uuid | pattern | timestamp | vector => trivial

end Phrase

theorem SchemaUnit.Derives.inOrder_of_mem_walk {lenient : Bool} {u : SchemaUnit Unit}
    (h : SchemaUnit.Derives lenient ts u) : ∀ v ∈ u.walk, v.InOrder :=
  h.meets_of_mem_walk fun _ _ _ _ h => h.inOrder

end SchemaLang
