import SchemaLang.Decimal.Basic

/-!
# Escapes in string literals

A backslash and a letter stand for a control character, a quote or a backslash; `\u` with four
hexadecimal digits and `\x` with two stand for a code point.

* `decodeEscape` reads one escape behind its backslash.
* `unescape` decodes a whole body; an escape that means nothing is kept as it is and reported.
-/

set_option autoImplicit false

namespace SchemaLang

/-- The letters that stand for one character. -/
def simpleEscape? : Char → Option Char
  | 'b' => some '\x08'
  | 't' => some '\t'
  | 'n' => some '\n'
  | 'f' => some '\x0c'
  | 'r' => some '\r'
  | '0' => some '\x00'
  | '"' => some '"'
  | '\'' => some '\''
  | '\\' => some '\\'
  | _ => none

def isHexDigit (c : Char) : Bool :=
  c.isDigit || ('a' ≤ c && c ≤ 'f') || ('A' ≤ c && c ≤ 'F')

def hexDigitValue (c : Char) : Nat :=
  if c.isDigit then digitValue c
  else if 'a' ≤ c then c.toNat - 'a'.toNat + 10
  else c.toNat - 'A'.toNat + 10

def hexValue (cs : List Char) : Nat := cs.foldl (fun n c => 16 * n + hexDigitValue c) 0

/-- The character of a code point; surrogates have none. -/
def charOfNat? (n : Nat) : Option Char := if n.isValidChar then some (Char.ofNat n) else none

/-- An escape of the given number of hexadecimal digits, read behind its letter. The second
component counts the letter and the digits. -/
def hexEscape (digits : Nat) (cs : List Char) : Option Char × Nat :=
  let ds := (cs.take digits).takeWhile isHexDigit
  if ds.length < digits then (none, 1 + ds.length) else (charOfNat? (hexValue ds), 1 + digits)

/-- The character that an escape stands for and the number of characters it has behind the
backslash. -/
def decodeEscape : List Char → Option Char × Nat
  | [] => (none, 0)
  | k :: cs =>
    match simpleEscape? k with
    | some c => (some c, 1)
    | none =>
      if k = 'u' then hexEscape 4 cs
      else if k = 'x' then hexEscape 2 cs
      else (none, 1)

/-- An escape that means nothing, with its place in the body. -/
structure BadEscape where
  offset : Nat
  length : Nat
  sequence : String
deriving DecidableEq, Repr

structure Unescaped where
  value : List Char
  bad : List BadEscape
deriving DecidableEq, Repr

namespace Unescaped

def empty : Unescaped := ⟨[], []⟩

def prepend (cs : List Char) (u : Unescaped) : Unescaped := ⟨cs ++ u.value, u.bad⟩

def report (b : BadEscape) (u : Unescaped) : Unescaped := ⟨u.value, b :: u.bad⟩

end Unescaped

/-- Decodes from `offset` on, after passing over `skip` characters of an escape already read. -/
def unescapeFrom : Nat → Nat → List Char → Unescaped
  | _, _, [] => .empty
  | skip + 1, offset, _ :: cs => unescapeFrom skip (offset + 1) cs
  | 0, offset, c :: cs =>
    if c = '\\' then
      match decodeEscape cs with
      | (some d, n) => (unescapeFrom n (offset + 1) cs).prepend [d]
      | (none, n) =>
        let sequence := c :: cs.take n
        ((unescapeFrom n (offset + 1) cs).prepend sequence).report
          ⟨offset, n + 1, String.ofList sequence⟩
    else (unescapeFrom 0 (offset + 1) cs).prepend [c]

def unescape (body : List Char) : Unescaped := unescapeFrom 0 0 body

/-- Passing over characters is dropping them. -/
theorem unescapeFrom_skip (skip offset : Nat) (cs : List Char) (h : skip ≤ cs.length) :
    unescapeFrom skip offset cs = unescapeFrom 0 (offset + skip) (cs.drop skip) := by
  induction cs generalizing skip offset with
  | nil => cases skip <;> simp_all [unescapeFrom]
  | cons c cs ih =>
    cases skip with
    | zero => rfl
    | succ skip =>
      have h' : skip ≤ cs.length := by simpa using h
      rw [unescapeFrom, ih skip (offset + 1) h', List.drop_succ_cons]
      congr 1
      omega

/-- A body without a backslash stands for itself. -/
theorem unescape_of_plain {cs : List Char} (h : '\\' ∉ cs) : unescape cs = ⟨cs, []⟩ := by
  suffices ∀ offset, unescapeFrom 0 offset cs = ⟨cs, []⟩ from this 0
  induction cs with
  | nil => intro; rfl
  | cons c cs ih =>
    intro offset
    simp only [List.mem_cons, not_or] at h
    simp [unescapeFrom, Ne.symm h.1, ih h.2, Unescaped.prepend]

end SchemaLang
