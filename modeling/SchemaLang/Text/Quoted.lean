import SchemaLang.Text.Extender
import SchemaLang.Text.Unprintable

/-!
# Quoted texts

A quoted text stands between double quotes and shows every character by something visible:

* `shown quotes c` writes one character; `quotes` are the quote marks that get a backslash.
* `quoted` writes a whole text, with a backslash before the double quote only.
* `shownAlone` writes one character on its own, with a backslash before either quote.

Controls with a letter of their own are `\0 \t \r \n`, a backslash is doubled, and an unprintable
character or one that would join its neighbour is `\u` with its code point in braces.
-/

set_option autoImplicit false

namespace SchemaLang.Text

def isPrintable (c : Char) : Bool :=
  if c.toNat < 0x7F then 0x20 ≤ c.toNat else !inRanges unprintableRanges c

/-- No character of the ASCII range joins the one before it. -/
def isExtender (c : Char) : Bool := 0x300 ≤ c.toNat && inRanges extenderRanges c

/-- `\u` and the code point in lower-case hexadecimal, in braces. -/
def codePointEscape (c : Char) : List Char :=
  '\\' :: 'u' :: '\x7b' :: (Nat.toDigits 16 c.toNat ++ ['\x7d'])

def shown (quotes : List Char) (c : Char) : List Char :=
  if c = '\x00' then ['\\', '0']
  else if c = '\t' then ['\\', 't']
  else if c = '\r' then ['\\', 'r']
  else if c = '\n' then ['\\', 'n']
  else if c = '\\' ∨ c ∈ quotes then ['\\', c]
  else if isExtender c || !isPrintable c then codePointEscape c
  else [c]

def quoted (s : String) : String :=
  String.ofList ('"' :: (s.toList.flatMap (shown ['"']) ++ ['"']))

def shownAlone (c : Char) : String := String.ofList (shown ['"', '\''] c)

/-- Plain printable characters stand for themselves. -/
theorem shown_of_plain {quotes : List Char} {c : Char} (hq : c ∉ quotes)
    (hb : c ≠ '\\') (he : isExtender c = false) (hp : isPrintable c = true) :
    shown quotes c = [c] := by
  have h0 : c ≠ '\x00' := by rintro rfl; simp [isPrintable] at hp
  have ht : c ≠ '\t' := by rintro rfl; simp [isPrintable] at hp
  have hr : c ≠ '\r' := by rintro rfl; simp [isPrintable] at hp
  have hn : c ≠ '\n' := by rintro rfl; simp [isPrintable] at hp
  simp [shown, h0, ht, hr, hn, hb, hq, he, hp]

end SchemaLang.Text
