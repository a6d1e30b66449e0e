import SchemaLang.Text.Blank
import SchemaLang.Token.Kind

/-!
# Aliases of imports

An alias is one word of the schema language that is no keyword.

* `checkAlias` says whether a text may be an alias, and why not.
* `derivedAlias` is the alias of an import that names none, made from the path of the import.

Main statement: `hasAliasShape_derivedAlias`, a derived alias always has the shape of a word.
-/

set_option autoImplicit false

namespace SchemaLang

inductive AliasError where
  | invalidShape (text : String)
  | reservedKeyword (text : String)
deriving DecidableEq, Repr

def AliasError.message : AliasError → String
  | .invalidShape s => s!"`{s}` is not a valid alias; aliases match [A-Za-z][A-Za-z0-9_]*"
  | .reservedKeyword s => s!"`{s}` is a reserved keyword and cannot be used as an alias"

/-- ASCII letters, digits and the underscore. -/
def isAliasPart (c : Char) : Bool := c.isAlphanum || c == '_'

/-- A letter and then letters, digits or underscores, all ASCII. -/
def hasAliasShape : List Char → Bool
  | [] => false
  | c :: cs => c.isAlpha && cs.all isAliasPart

def isReserved (s : String) : Bool := (keyword? s).isSome

def checkAlias (s : String) : Except AliasError Unit :=
  if !hasAliasShape s.toList then .error (.invalidShape s)
  else if isReserved s then .error (.reservedKeyword s)
  else .ok ()

/-- The name behind the last slash that has one behind it. -/
def lastSegment (path : List Char) : List Char :=
  let trimmed := Text.dropEndWhile (· == '/') path
  (trimmed.reverse.takeWhile (· != '/')).reverse

/-- The end of the names of schema files. -/
def schemaSuffix : List Char := ['.', 'y', 'a', 'm', 'm', 'm']

def withoutSuffix (cs : List Char) : List Char :=
  if schemaSuffix.isSuffixOf cs then cs.take (cs.length - schemaSuffix.length) else cs

/-- A word from any text: an underscore for every character that no word has, and the letter `n` in
front if no letter is there. -/
def toWord (cs : List Char) : List Char :=
  let cs := cs.map fun c => if isAliasPart c then c else '_'
  match cs with
  | [] => ['n']
  | c :: _ => if c.isAlpha then cs else 'n' :: cs

def derivedAlias (path : String) : String :=
  String.ofList (toWord (withoutSuffix (lastSegment path.toList)))

theorem all_isAliasPart_map (cs : List Char) :
    (cs.map fun c => if isAliasPart c then c else '_').all isAliasPart = true := by
  simp only [List.all_map, List.all_eq_true, Function.comp_apply]
  intro c _
  split
  · assumption
  · rfl

theorem hasAliasShape_toWord (cs : List Char) : hasAliasShape (toWord cs) = true := by
  have h := all_isAliasPart_map cs
  unfold toWord
  dsimp only
  split
  · rfl
  · rename_i c r hc
    rw [hc] at h ⊢
    split
    · rename_i ha
      simp only [List.all_cons, Bool.and_eq_true] at h
      simp [hasAliasShape, ha, h.2]
    · simpa [hasAliasShape] using h

/-- A derived alias can only fail by being a keyword. -/
theorem hasAliasShape_derivedAlias (path : String) :
    hasAliasShape (derivedAlias path).toList = true := by
  simp [derivedAlias, hasAliasShape_toWord]

end SchemaLang
