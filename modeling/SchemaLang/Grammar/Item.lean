import SchemaLang.Token.Basic
import SchemaLang.Token.Value

/-!
# What the grammar sees of a token stream

Blanks and comments are hidden from the grammar. What they leave behind is in the items: the text
of the last comment before an item, if that is a block comment, and whether a line starts between
an item and the one before it.

* `Item` is a token without its place; `PlacedItem` keeps the place beside it.
* `placedItems` are the items of a token stream, the end of the text last.
* `itemAt` reads an item; behind the last one stands the end of the text.
* `Extent` is a range of items.
-/

set_option autoImplicit false

namespace SchemaLang

structure Item where
  kind : TokenKind
  text : String
  doc : Option String
  lineStart : Bool
deriving DecidableEq, Repr

structure PlacedItem where
  item : Item
  start : Nat
  stop : Nat
deriving DecidableEq, Repr

/-- The end of a text that no token marks. -/
def Item.atEnd (lineStart : Bool) : Item := ⟨.endOfText, "", none, lineStart⟩

/-- Whether a line starts in the text. -/
def hasNewline (s : String) : Bool := s.toList.contains '\n'

/-- The items of the rest of a stream. A comment replaces the one before it; only a block comment is
documentation. Lines start at the beginning and behind newlines. -/
def placedItemsFrom (doc : Option String) (lineStart : Bool) (stop : Nat) :
    List Token → List PlacedItem
  | [] => [⟨Item.atEnd lineStart, stop, stop⟩]
  | t :: ts =>
    match t.kind with
    | .docComment => placedItemsFrom (some (docText t.text)) (lineStart || hasNewline t.text) t.stop ts
    | .lineComment => placedItemsFrom none lineStart t.stop ts
    | .blank => placedItemsFrom doc (lineStart || hasNewline t.text) t.stop ts
    | .endOfText => [⟨⟨.endOfText, t.text, doc, lineStart⟩, t.start, t.stop⟩]
    | kind => ⟨⟨kind, t.text, doc, lineStart⟩, t.start, t.stop⟩ :: placedItemsFrom none false t.stop ts

def placedItems (stream : List Token) : List PlacedItem := placedItemsFrom none true 0 stream

abbrev Items := Array Item

def itemAt (items : Items) (i : Nat) : Item := items.getD i (Item.atEnd false)

def kindAt (items : Items) (i : Nat) : TokenKind := (itemAt items i).kind

theorem kindAt_of_size_le {items : Items} {i : Nat} (h : items.size ≤ i) :
    kindAt items i = .endOfText := by
  simp [kindAt, itemAt, Array.getD_eq_getD_getElem?, Array.getElem?_eq_none h, Item.atEnd]

theorem lt_size_of_kindAt_ne {items : Items} {i : Nat} (h : kindAt items i ≠ .endOfText) :
    i < items.size := by
  apply Classical.byContradiction
  intro hn
  exact h (kindAt_of_size_le (Nat.le_of_not_lt hn))

/-- What a test allows is of no kind that it refuses. -/
theorem TokenKind.ne_of_allowed {p : TokenKind → Bool} {k l : TokenKind} (h : p k = true)
    (hl : p l = false) : k ≠ l := by
  rintro rfl
  simp [hl] at h

/-- The items from `first` to `last`, both included. -/
structure Extent where
  first : Nat
  last : Nat
deriving DecidableEq, Repr

namespace Extent

def single (i : Nat) : Extent := ⟨i, i⟩

/-- The smallest extent over both. -/
def merge (a b : Extent) : Extent := ⟨min a.first b.first, max a.last b.last⟩

end Extent

end SchemaLang
