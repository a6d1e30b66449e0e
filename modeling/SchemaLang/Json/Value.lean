import SchemaLang.Decimal.Shortest

/-!
# JSON values

* `Json` is a value; the members of an object keep their order.
* `Json.tagged` is an object whose first member says which kind of thing it is.
* `Json.pretty` writes a value with one member a line, each level indented by two spaces.

Main statement: `jsonChars_of_plain`, a text without quotes, backslashes and controls stands for
itself.
-/

set_option autoImplicit false

namespace SchemaLang

inductive Json where
  | null
  | boolean (b : Bool)
  | integer (n : Int)
  | float (x : Binary64)
  | string (s : String)
  | array (items : List Json)
  | object (members : List (String × Json))

namespace Json

/-- The value of a part that may be absent. -/
def ofOption {α : Type} (f : α → Json) : Option α → Json
  | none => null
  | some a => f a

def ofNat (n : Nat) : Json := integer n

def ofList {α : Type} (f : α → Json) (as : List α) : Json := array (as.map f)

def ofText : Option String → Json := ofOption string

def tagged (kind : String) (members : List (String × Json)) : Json :=
  object (("kind", string kind) :: members)

end Json

/-- Floats always have a point or an exponent. -/
def Json.floatLayout : FloatLayout := ⟨some (-4, 16), true, true, .even⟩

def hexDigit (n : Nat) : Char := Nat.digitChar (n % 16)

/-- One character between the quotes of a JSON string. -/
def jsonChar (c : Char) : List Char :=
  if c = '"' ∨ c = '\\' then ['\\', c]
  else if c = '\x08' then ['\\', 'b']
  else if c = '\x0c' then ['\\', 'f']
  else if c = '\n' then ['\\', 'n']
  else if c = '\r' then ['\\', 'r']
  else if c = '\t' then ['\\', 't']
  else if c.toNat < 0x20 then ['\\', 'u', '0', '0', hexDigit (c.toNat / 16), hexDigit c.toNat]
  else [c]

def jsonQuoted (s : String) : String := String.ofList ('"' :: (s.toList.flatMap jsonChar ++ ['"']))

/-- Parts between two brackets, one a line at the given depth; the brackets alone without parts. -/
def prettyBlock (openBracket closeBracket : String) (depth : Nat) (parts : List String) : String :=
  match parts with
  | [] => openBracket ++ closeBracket
  | _ =>
    let indent := String.ofList (List.replicate (2 * depth) ' ')
    openBracket ++ "\n" ++ ",\n".intercalate (parts.map fun p => indent ++ "  " ++ p) ++ "\n" ++
      indent ++ closeBracket

mutual

/-- The value as it stands at a depth. -/
def Json.prettyAt (depth : Nat) : Json → String
  | .null => "null"
  | .boolean b => toString b
  | .integer n => toString n
  | .float x => String.ofList (Json.floatLayout.write x)
  | .string s => jsonQuoted s
  | .array items => prettyBlock "[" "]" depth (Json.prettyItems (depth + 1) items)
  | .object members => prettyBlock "\x7b" "\x7d" depth (Json.prettyMembers (depth + 1) members)

def Json.prettyItems (depth : Nat) : List Json → List String
  | [] => []
  | v :: vs => v.prettyAt depth :: Json.prettyItems depth vs

def Json.prettyMembers (depth : Nat) : List (String × Json) → List String
  | [] => []
  | (key, v) :: rest =>
    (jsonQuoted key ++ ": " ++ v.prettyAt depth) :: Json.prettyMembers depth rest

end

def Json.pretty (v : Json) : String := v.prettyAt 0

theorem jsonChars_of_plain {cs : List Char}
    (h : ∀ c ∈ cs, c ≠ '"' ∧ c ≠ '\\' ∧ 0x20 ≤ c.toNat) : cs.flatMap jsonChar = cs := by
  induction cs with
  | nil => rfl
  | cons c cs ih =>
    obtain ⟨hq, hb, hc⟩ := h c (by simp)
    have hne : ∀ d : Char, d.toNat < 0x20 → c ≠ d := by rintro d hd rfl; omega
    have : jsonChar c = [c] := by
      simp [jsonChar, hq, hb, hne '\x08' (by decide), hne '\x0c' (by decide),
        hne '\n' (by decide), hne '\r' (by decide), hne '\t' (by decide), Nat.not_lt.2 hc]
    simp [this, ih fun d hd => h d (by simp [hd])]

end SchemaLang
