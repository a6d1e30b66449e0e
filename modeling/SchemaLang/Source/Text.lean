import SchemaLang.Digest.Sha256
import SchemaLang.Source.Bisection
import SchemaLang.Source.Position
import SchemaLang.Text.Lines

/-!
# One source text and its places

A place of a text is the boundary before a code point or the end of the text.

* `byteOffsets` are the byte offsets of all places, in order of code points.
* `lineStarts` are the byte offsets at which lines start.
* `Source` keeps a name, a text and both tables; the tables are those of the text by construction.
  A text of ASCII characters needs no table of byte offsets.
* `Source.byteOf?`, `Source.positionAt?` and `Source.line?` answer from them.
-/

set_option autoImplicit false

namespace SchemaLang

/-- Where each code point of a text starts and where the last one ends, if the text starts at byte
`start`. -/
def byteOffsets (start : Nat) : List Char → List Nat
  | [] => [start]
  | c :: cs => start :: byteOffsets (start + c.utf8Size) cs

/-- A line starts at the first byte and behind every newline. -/
def lineStarts (bytes : List UInt8) : List Nat :=
  0 :: ((bytes.zipIdx.filter fun b => b.1 = 0x0A).map fun b => b.2 + 1)

def isAscii (text : String) : Bool := text.toList.all (·.toNat < 0x80)

def textBytes (text : String) : List UInt8 := text.toByteArray.data.toList

structure Source where
  name : String
  text : String
  /-- Nothing if the text is ASCII: its code points and bytes are counted alike. -/
  codePointBytes : Array Nat
  codePointCount : Nat
  lineStarts : Array Nat
  codePointBytes_eq : codePointBytes =
    if isAscii text then #[] else (byteOffsets 0 text.toList).toArray
  codePointCount_eq : codePointCount =
    if isAscii text then text.utf8ByteSize else codePointBytes.size - 1
  lineStarts_eq : lineStarts = (SchemaLang.lineStarts (textBytes text)).toArray

namespace Source

def ofText (name text : String) : Source :=
  let codePointBytes := if isAscii text then #[] else (byteOffsets 0 text.toList).toArray
  { name := name
    text := text
    codePointBytes := codePointBytes
    codePointCount := if isAscii text then text.utf8ByteSize else codePointBytes.size - 1
    lineStarts := (SchemaLang.lineStarts (textBytes text)).toArray
    codePointBytes_eq := rfl
    codePointCount_eq := rfl
    lineStarts_eq := rfl }

/-- The number of code points. -/
def size (s : Source) : Nat := s.text.length

/-- The byte offset of the place before code point `i`, or of the end of the text. -/
def byteOf? (s : Source) (i : Nat) : Option Nat :=
  if s.codePointCount < i then none
  else if s.codePointBytes.isEmpty then some i
  else s.codePointBytes[i]?

/-- The line, counted from zero, that a byte offset is in. -/
def lineOf (s : Source) (byte : Nat) : Nat :=
  match bisect s.lineStarts byte with
  | .found i => i
  | .missing i => i - 1

/-- The place at a byte offset, if there is one. -/
def positionAt? (s : Source) (byte : Nat) : Option Position :=
  if String.Pos.Raw.isValid s.text ⟨byte⟩ then
    let line := s.lineOf byte
    let lineStart := s.lineStarts.getD line 0
    some ⟨line + 1, (String.Pos.Raw.extract s.text ⟨lineStart⟩ ⟨byte⟩).length, byte⟩
  else none

/-- The text of a line, counted from one, without its end. The line behind a final newline is
empty. -/
def line? (s : Source) (line : Nat) : Option String :=
  if line = 0 then none
  else (Text.pieces s.text.toList)[line - 1]?.map fun l => String.ofList (Text.dropReturn l)

def digest (s : Source) : String := Digest.sha256Hex s.text

end Source

end SchemaLang
