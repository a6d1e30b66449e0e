import SchemaLang.Grammar.Problem
import SchemaLang.Schema.Name

/-!
# Rules of the grammar

A rule reads items from a position on and replies with a value, the position to go on from, and the
problems it has met. A rule that cannot go on gives up: its reply has no value, and the position is
the one from which recovery starts. That is the first item a rule could not use if the rule had no
item of its own before it, and the last item it has read otherwise.

* `Reply` and `Rule` are replies and rules, with `pure` and `bind` as in any reader of text.
* `peek`, `take`, `report`, `giveUp`, `giveUpBehind` are the steps that all rules are made of.
* `expect`, `expectName` and `close` read one item or complain about what stands there.

Malformed stretches of text have been reported already, so no rule complains about them.

Main statements: `value_bind` and `next_bind` open a sequence of two rules.
-/

set_option autoImplicit false

namespace SchemaLang

structure Reply (α : Type) where
  value : Option α
  next : Nat
  problems : List (Problem Extent)

def Rule (α : Type) : Type := Items → Nat → Reply α

namespace Rule

variable {α β : Type}

/-- The second rule goes on where the first ends, if that has a value. -/
def andThen (r : Rule α) (f : α → Rule β) : Rule β := fun items i =>
  match r items i with
  | ⟨some a, j, ps⟩ =>
    let reply := f a items j
    ⟨reply.value, reply.next, ps ++ reply.problems⟩
  | ⟨none, j, ps⟩ => ⟨none, j, ps⟩

instance : Monad Rule where
  pure a := fun _ i => ⟨some a, i, []⟩
  bind := andThen

def peek : Rule Item := fun items i => ⟨some (itemAt items i), i, []⟩

def peekKind : Rule TokenKind := fun items i => ⟨some (kindAt items i), i, []⟩

/-- The kind of the item behind the next one. -/
def peekSecond : Rule TokenKind := fun items i => ⟨some (kindAt items (i + 1)), i, []⟩

/-- The position of the next item. -/
def position : Rule Nat := fun _ i => ⟨some i, i, []⟩

/-- The extent from item `first` to the last one read. -/
def extentFrom (first : Nat) : Rule Extent := fun _ i => ⟨some ⟨first, i - 1⟩, i, []⟩

def take : Rule Item := fun items i => ⟨some (itemAt items i), i + 1, []⟩

def report (cause : Cause Extent) (place : Extent) : Rule Unit := fun _ i =>
  ⟨some (), i, [⟨cause, place⟩]⟩

/-- Recovery starts at the next item. -/
def giveUp : Rule α := fun _ i => ⟨none, i, []⟩

/-- Recovery starts at the last item read. -/
def giveUpBehind : Rule α := fun _ i => ⟨none, i - 1, []⟩

/-- Reports the next item, unless it is malformed text. -/
def blame (cause : Found → Cause Extent) : Rule Unit := fun items i =>
  let t := itemAt items i
  ⟨some (), i, if t.kind = .invalid then [] else [⟨cause t.found, .single i⟩]⟩

def reject (cause : Found → Cause Extent) : Rule α := do
  blame cause
  giveUp

def rejectBehind (cause : Found → Cause Extent) : Rule α := do
  blame cause
  giveUpBehind

/-- The next item, which must be of one kind. -/
def expect (kind : TokenKind) : Rule Item := do
  if (← peekKind) = kind then take else rejectBehind (.unexpected (.token kind))

/-- The next item as a name. -/
def takeName : Rule (Name Extent) := do
  let i ← position
  let t ← take
  return ⟨t.text, .single i⟩

/-- A name of an allowed kind. -/
def expectName (allowed : TokenKind → Bool) (what : Expected) : Rule (Name Extent) := do
  if allowed (← peekKind) then takeName else rejectBehind (.unexpected what)

/-- The end of what item `opened` opens. -/
def close (closer : Symbol) (opened : Nat) (what : Enclosure) : Rule Unit := do
  if (← peekKind) = .symbol closer then
    let _ ← take
    return ()
  else if (← peekKind) = .endOfText then
    rejectBehind fun _ => .unclosed closer what (.single opened)
  else
    rejectBehind fun found => .notClosed closer found what (.single opened)

theorem value_bind (r : Rule α) (f : α → Rule β) (items : Items) (i : Nat) :
    ((r >>= f) items i).value =
      (r items i).value.bind fun a => (f a items (r items i).next).value := by
  show (andThen r f items i).value = _
  unfold andThen
  rcases r items i with ⟨_ | a, j, ps⟩ <;> rfl

theorem next_bind (r : Rule α) (f : α → Rule β) (items : Items) (i : Nat) :
    ((r >>= f) items i).next =
      match (r items i).value with
      | some a => (f a items (r items i).next).next
      | none => (r items i).next := by
  show (andThen r f items i).next = _
  unfold andThen
  rcases r items i with ⟨_ | a, j, ps⟩ <;> rfl

theorem problems_bind (r : Rule α) (f : α → Rule β) (items : Items) (i : Nat) :
    ((r >>= f) items i).problems =
      (r items i).problems ++
        match (r items i).value with
        | some a => (f a items (r items i).next).problems
        | none => [] := by
  show (andThen r f items i).problems = _
  unfold andThen
  rcases r items i with ⟨_ | a, j, ps⟩ <;> simp

end Rule

end SchemaLang
