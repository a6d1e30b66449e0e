import SchemaLang.Grammar.Item
import SchemaLang.Schema.Operator

/-!
# Where lengths stand

A number is a length in the brackets behind `String` and behind the element of a list. The same items may stand
in a constraint, and there they are an index, or a list behind a comparison:

```
names List<String>[1, 8]
! "few names" $v.count > [1]
```

A constraint has a mark before it. A datatype has the name of a property before its keyword, or the sign of a
declaration, and no operand of a constraint has one of these before it. So the items before a number tell
whether it stands in a datatype.

* `TokenKind.introducesDatatype`: the kinds of items that datatypes stand behind.
* `inDatatype items k`: before item `k` stands a keyword behind such an item, and no mark of a constraint since.
* `bracketOwner items k`: the kind of the item before the bracket, if the last bracket before item `k` opens.
* `InBounds items o k`: item `k` stands in a datatype, in brackets behind an item of kind `o`.
* `IsLength items k`: a number that is item `k` is a length.

For each of these it is said here what one more item keeps of it.
-/

set_option autoImplicit false

namespace SchemaLang

/-- A property has its datatype behind its name, and a declaration behind its sign. -/
def TokenKind.introducesDatatype (k : TokenKind) : Bool := k.namesProperty || k == .symbol .assign

theorem TokenKind.isBuiltin_of_allowed {p : TokenKind → Bool} {k : TokenKind} (h : p k = true)
    (hp : ∀ b, p (.builtin b) = false) : k.isBuiltin = false := by
  cases k with
  | builtin b => simp [hp] at h
  | _ => rfl

/-- No operator is the keyword of a datatype or stands before one that is declared. -/
theorem TokenKind.starts_no_datatype_of_operator {k : TokenKind} (h : leftPrecedence k ≠ .lowest) :
    k.isBuiltin = false ∧ k.introducesDatatype = false := by
  cases k with
  | keyword w =>
    revert h
    cases w <;> decide
  | builtin b => exact absurd rfl h
  | symbol s =>
    revert h
    cases s <;> decide
  | _ => exact absurd rfl h

/-! ## Datatypes and constraints -/

def inDatatype (items : Items) : Nat → Bool
  | 0 | 1 => false
  | k + 2 => kindAt items (k + 1) != .symbol .bang &&
      (inDatatype items (k + 1) ||
        (kindAt items k).introducesDatatype && (kindAt items (k + 1)).isBuiltin)

section

variable {items : Items} {k : Nat}

theorem inDatatype_succ (hk : kindAt items k ≠ .symbol .bang) (h : inDatatype items k = true) :
    inDatatype items (k + 1) = true := by
  cases k with
  | zero => cases h
  | succ k => simp [inDatatype, hk, h]

/-- Other items than marks and keywords are read where the item before them is. -/
theorem inDatatype_succ_eq (hbang : kindAt items k ≠ .symbol .bang)
    (hkeyword : (kindAt items k).isBuiltin = false) : inDatatype items (k + 1) = inDatatype items k := by
  cases k with
  | zero => rfl
  | succ k => simp [inDatatype, hbang, hkeyword]

/-- A datatype starts with its keyword, behind what introduces it. -/
theorem inDatatype_of_keyword (hk : (kindAt items k).introducesDatatype = true)
    (hkeyword : (kindAt items (k + 1)).isBuiltin = true) : inDatatype items (k + 2) = true := by
  have hbang : kindAt items (k + 1) ≠ .symbol .bang := by
    intro h
    rw [h] at hkeyword
    cases hkeyword
  simp [inDatatype, hbang, hk, hkeyword]

/-- A constraint starts with its mark. -/
theorem inDatatype_of_bang (hk : kindAt items k = .symbol .bang) : inDatatype items (k + 1) = false := by
  cases k with
  | zero => rfl
  | succ k => simp [inDatatype, hk]

theorem not_inDatatype_succ (hk : (kindAt items k).isBuiltin = false) (h : inDatatype items k = false) :
    inDatatype items (k + 1) = false := by
  cases k with
  | zero => rfl
  | succ k => simp [inDatatype, hk, h]

/-- Even a keyword starts no datatype behind an item that introduces none. -/
theorem not_inDatatype_behind (hk : (kindAt items k).introducesDatatype = false)
    (h : inDatatype items (k + 1) = false) : inDatatype items (k + 2) = false := by
  simp [inDatatype, hk, h]

section

variable {s : Symbol} (hk : kindAt items k = .symbol s)

include hk

theorem not_inDatatype_succ_of_symbol (h : inDatatype items k = false) : inDatatype items (k + 1) = false :=
  not_inDatatype_succ (by rw [hk]; rfl) h

theorem not_inDatatype_behind_symbol (hs : s ≠ .assign) (h : inDatatype items (k + 1) = false) :
    inDatatype items (k + 2) = false :=
  not_inDatatype_behind (by simp [hk, TokenKind.introducesDatatype, TokenKind.namesProperty, hs]) h

end

theorem not_inDatatype_of_succ (hk : kindAt items k ≠ .symbol .bang)
    (h : inDatatype items (k + 1) = false) : inDatatype items k = false := by
  cases hd : inDatatype items k with
  | false => rfl
  | true =>
    rw [inDatatype_succ hk hd] at h
    cases h

end

/-! ## Brackets -/

def bracketOwner (items : Items) : Nat → Option TokenKind
  | 0 | 1 => none
  | k + 2 =>
    match kindAt items (k + 1) with
    | .symbol .lBracket => some (kindAt items k)
    | .symbol .rBracket => none
    | _ => bracketOwner items (k + 1)

structure InBounds (items : Items) (o : TokenKind) (k : Nat) : Prop where
  datatype : inDatatype items k = true
  owner : bracketOwner items k = some o

def IsLength (items : Items) (k : Nat) : Prop :=
  InBounds items (.builtin .string) k ∨ InBounds items (.symbol .gt) k

instance (items : Items) (o : TokenKind) (k : Nat) : Decidable (InBounds items o k) :=
  decidable_of_iff (inDatatype items k = true ∧ bracketOwner items k = some o)
    ⟨fun ⟨hd, ho⟩ => ⟨hd, ho⟩, fun ⟨hd, ho⟩ => ⟨hd, ho⟩⟩

instance (items : Items) (k : Nat) : Decidable (IsLength items k) :=
  inferInstanceAs (Decidable (_ ∨ _))

section

variable {items : Items} {o : TokenKind} {k : Nat}

theorem InBounds.of_bracket (hd : inDatatype items (k + 1) = true)
    (hk : kindAt items (k + 1) = .symbol .lBracket) : InBounds items (kindAt items k) (k + 2) :=
  ⟨inDatatype_succ (by simp [hk]) hd, by simp [bracketOwner, hk]⟩

/-- What stands between brackets is neither a mark nor a bracket. -/
theorem InBounds.succ (h : InBounds items o k) (hbang : kindAt items k ≠ .symbol .bang)
    (hopen : kindAt items k ≠ .symbol .lBracket) (hclose : kindAt items k ≠ .symbol .rBracket) :
    InBounds items o (k + 1) := by
  refine ⟨inDatatype_succ hbang h.datatype, ?_⟩
  rw [← h.owner]
  cases k with
  | zero => rfl
  | succ k =>
    rw [bracketOwner]
    split
    · exact absurd ‹_› hopen
    · exact absurd ‹_› hclose
    · rfl

theorem InBounds.succ_of_allowed {p : TokenKind → Bool} (h : InBounds items o k)
    (hk : p (kindAt items k) = true) (hbang : p (.symbol .bang) = false)
    (hopen : p (.symbol .lBracket) = false) (hclose : p (.symbol .rBracket) = false) :
    InBounds items o (k + 1) :=
  h.succ (TokenKind.ne_of_allowed hk hbang) (TokenKind.ne_of_allowed hk hopen)
    (TokenKind.ne_of_allowed hk hclose)

/-- The brackets behind `Integer` have no lengths in them. -/
theorem InBounds.not_isLength (h : InBounds items o k) (hstring : o ≠ .builtin .string)
    (hlist : o ≠ .symbol .gt) : ¬ IsLength items k := by
  rintro (hl | hl)
  · exact hstring (Option.some.inj (h.owner.symm.trans hl.owner))
  · exact hlist (Option.some.inj (h.owner.symm.trans hl.owner))

/-- A constraint has no lengths in it. -/
theorem not_isLength_of_not_inDatatype (h : inDatatype items k = false) : ¬ IsLength items k := by
  rintro (hl | hl)
  · simp [hl.datatype] at h
  · simp [hl.datatype] at h

end

end SchemaLang
