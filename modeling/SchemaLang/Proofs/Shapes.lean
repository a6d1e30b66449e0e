import SchemaLang.Grammar.Unit

/-!
# Rules of one shape

Some rules only differ in the readers, tests and causes they name. Here each shape is a rule that takes these
as arguments, and each of its cases is shown to be equal to it. So what holds of the shape, under conditions
on the arguments, is proved once and holds of all its cases.

* `literalValue` is a literal that is read from its text: `integerValue`, `lengthValue` and `floatValue`.
* `signedBound` is a bound whose number may have a sign: `integerBound` and `floatBound`.
* `further` is entries, each behind a comma: `furtherElements`, `furtherParents` and `furtherParams`.
* `relation` is a relation and what stands behind it: `association` and `composition`.
-/

set_option autoImplicit false

namespace SchemaLang.Rule

variable {α : Type}

/-! ## Literals -/

/-- The next item, if its text can be read; otherwise there is something to say of that text. -/
def literalValue (read? : String → Option α) (cause : String → Cause Extent) : Rule α := do
  let t ← peek
  match read? t.text with
  | some v =>
    let _ ← take
    return v
  | none =>
    report (cause t.text) (.single (← position))
    giveUp

theorem integerValue_eq (negative : Bool) :
    integerValue negative = literalValue (fun s => readInt? negative s.toList)
      fun s => .invalidInteger ((if negative then "-" else "") ++ s) := by
  refine bind_congr fun t => ?_
  cases h : readInt? negative t.text.toList <;> simp only [h]

theorem lengthValue_eq :
    lengthValue = literalValue (fun s => readNat? wordLimit s.toList) .invalidInteger := by
  refine bind_congr fun t => ?_
  cases h : readNat? wordLimit t.text.toList <;> simp only [h]

theorem floatValue_eq (negative : Bool) :
    floatValue negative =
      literalValue (fun s => (Decimal.read? negative s.toList).bind Binary64.ofDecimal?)
        fun s => .invalidFloat ((if negative then "-" else "") ++ s) := by
  refine bind_congr fun t => ?_
  cases h : (Decimal.read? negative t.text.toList).bind Binary64.ofDecimal? <;> simp only [h]

/-! ## Bounds -/

/-- A bound whose number is of some kinds, with a sign before it or without. -/
def signedBound (isValue : TokenKind → Bool) (value : Bool → Rule α) (missing wanted : Expected) :
    Rule (Bound α) := do
  let kind ← peekKind
  if kind = .symbol .underscore then
    let _ ← take
    return .unbounded
  else if isValue kind then
    return .value (← value false)
  else if isSign kind then
    let _ ← take
    if isValue (← peekKind) then
      return .value (← value (kind == .symbol .minus))
    else rejectBehind (.unexpected missing)
  else reject (.unexpected wanted)

theorem integerBound_eq :
    integerBound =
      signedBound (· == .integerLit) integerValue (.token .integerLit) .integerBound := by
  simp only [integerBound, signedBound, beq_iff_eq]

theorem floatBound_eq :
    floatBound = signedBound isNumber floatValue .number .numberBound := rfl

/-! ## Further entries -/

/-- Entries, each behind a comma. A comma before what ends them is the last one. -/
def further (ends : TokenKind → Prop) [DecidablePred ends] (entry : Rule α) : Nat → Rule (List α)
  | 0 => return []
  | n + 1 => do
    if (← peekKind) = .symbol .comma then
      let _ ← take
      if ends (← peekKind) then return []
      else
        let a ← entry
        return a :: (← further ends entry n)
    else return []

/-- A parameter. -/
def param : Rule (Name Extent) := do
  let p ← expectName (· == .varWord) (.token .varWord)
  return ⟨withoutDollars p.text, p.place⟩

theorem furtherElements_eq (expr : Within) (closer : Symbol) (n : Nat) :
    furtherElements expr closer n = further (· = .symbol closer) (expr .lowest) n := by
  induction n with
  | zero => rfl
  | succ n ih => rw [furtherElements, further, ih]

theorem furtherParents_eq (n : Nat) :
    furtherParents n = further (· = .symbol .lBrace) typeRef n := by
  induction n with
  | zero => rfl
  | succ n ih => rw [furtherParents, further, ih]

/-- Nothing ends parameters before a comma, so one has to be behind each comma. -/
theorem furtherParams_eq (n : Nat) : furtherParams n = further (fun _ => False) param n := by
  induction n with
  | zero => rfl
  | succ n ih =>
    rw [furtherParams, further, ih]
    refine bind_congr fun kind => ite_congr rfl (fun _ => bind_congr fun comma => ?_) fun _ => rfl
    funext items i
    simp only [bind, andThen, param, peekKind, if_false]
    rcases expectName (· == .varWord) (.token .varWord) items i with ⟨_ | p, j, ps⟩ <;> simp [pure]

/-! ## Relations -/

/-- A relation whose arrow is next, up to its reverse edge; `rest` is what stands behind, given the item at
which the relation starts and all that has been read of it. -/
def relation (rest : Nat → Option String → Name Extent → Multiplicity → TypeRef Extent →
    Option (ReverseEdge Extent) → Rule α) : Rule α := do
  let start ← position
  let doc ← nextDoc
  let _ ← take
  let name ← expectName isRelationName .relationName
  let m ← multiplicity
  let target ← typeRef
  let reverse ← reverseEdge
  rest start doc name m target reverse

theorem association_eq :
    association = relation fun start doc name m target reverse => do
      let body ← relationBody
      return ⟨doc, name, m, target, reverse, body, ← extentFrom start⟩ := rfl

theorem composition_eq :
    composition = relation fun start doc name m target reverse => do
      if (← peekKind) = .symbol .lBrace then rejectBehind fun _ => .bodyOnComposition
      else return ⟨doc, name, m, target, reverse, ← extentFrom start⟩ := rfl

end SchemaLang.Rule
