import SchemaLang.Grammar.Member

/-!
# Rules for schema units

* `header` is `schema "Name"`.
* `importDecl` is `import "path" as alias`; `AliasTable.check` compares its alias with those before.
* `declaration` is a type or a datatype.
* `unitBody` reads imports and declarations up to the end of the text.
* `readUnit` reads a whole unit from the items of a text.
-/

set_option autoImplicit false

namespace SchemaLang

/-- What a header says. -/
structure Header where
  name : String
  place : Option Extent
  doc : Option String
deriving Repr

namespace Rule

/-- The header at the start of a text. Whatever is missing in it, reading goes on behind it. -/
def header : Rule Header := do
  if (← peekKind) = .keyword .schemaWord then
    let start ← position
    let doc ← nextDoc
    let _ ← take
    if (← peekKind) = .stringLit then
      let t ← take
      return ⟨stringValue t.text, some (← extentFrom start), doc⟩
    else
      blame (.unexpected (.token .stringLit))
      return ⟨"", some (← extentFrom start), doc⟩
  else
    blame .missingHeader
    return ⟨"", none, none⟩

/-- The alias behind `as`. A keyword is reported and dropped. -/
def aliasName : Rule (Option (Name Extent)) := do
  let kind ← peekKind
  if kind.isWord then return some (← takeName)
  else if kind.isKeyword then
    let name ← takeName
    if (checkAlias name.text).toBool then return none
    else
      report (.invalidAlias name.text) name.place
      return none
  else reject (.unexpected .aliasName)

/-- An import whose keyword is next. -/
def importDecl : Rule (Import Extent) := do
  let start ← position
  let _ ← take
  let path ← expect .stringLit
  if (← peekKind) = .keyword .asWord then
    let _ ← take
    let name ← aliasName
    return ⟨stringValue path.text, name, ← extentFrom start⟩
  else return ⟨stringValue path.text, none, ← extentFrom start⟩

def typeModifier : Rule TypeModifier := do
  match ← peekKind with
  | .keyword .abstractWord =>
    let _ ← take
    let _ ← expect (.keyword .typeWord)
    return .abstract_
  | .keyword .partWord =>
    let _ ← take
    let _ ← expect (.keyword .typeWord)
    return .part
  | _ =>
    let _ ← take
    return .none

/-- The name of a declaration; keywords are reserved. -/
def declarationName : Rule (Name Extent) := do
  let t ← peek
  if t.kind.isKeyword then rejectBehind fun _ => .reservedName t.text
  else expectName isUpperWord .typeName

/-- Further parents, each behind a comma. A comma before the body ends them. -/
def furtherParents : Nat → Rule (List (TypeRef Extent))
  | 0 => return []
  | n + 1 => do
    if (← peekKind) = .symbol .comma then
      let _ ← take
      if (← peekKind) = .symbol .lBrace then return []
      else
        let r ← typeRef
        return r :: (← furtherParents n)
    else return []

/-- The parents behind `extends`, if that is next. -/
def parents : Rule (List (TypeRef Extent)) := do
  if (← peekKind) = .keyword .extendsWord then
    let _ ← take
    let r ← typeRef
    return r :: (← furtherParents (← remaining))
  else return []

/-- The datatype behind the sign of a datatype declaration. -/
def declaredDatatype : Rule (PlacedBuiltin Extent) := do
  match ← peekKind with
  | .builtin kind => builtin kind
  | _ => rejectBehind .expectedDatatype

/-- A declaration whose first word is next. -/
def declaration : Rule (Declaration Extent) := do
  let start ← position
  let first ← peek
  let modifier ← typeModifier
  let name ← declarationName
  match ← peekKind with
  | .symbol .assign =>
    if modifier ≠ .none then report (.modifierOnDatatype first.text) (.single start)
    let _ ← take
    let datatype ← declaredDatatype
    return .datatype ⟨first.doc, name, datatype, ← extentFrom start⟩
  | .keyword .extendsWord | .symbol .lBrace =>
    let ps ← parents
    let opened ← position
    let _ ← expect (.symbol .lBrace)
    let members ← typeBody name.text opened
    return .type ⟨first.doc, name, modifier, ps, members, ← extentFrom start⟩
  | _ => rejectBehind (.unexpected .declarationBody)

end Rule

/-- The aliases taken so far, with the place where each is first used. -/
structure AliasTable where
  entries : List (String × Extent)

namespace AliasTable

def empty : AliasTable := ⟨[]⟩

def find? (t : AliasTable) (name : String) : Option Extent := t.entries.lookup name

/-- The problems with the alias of an import, and the aliases taken after it. -/
def add (t : AliasTable) (i : Import Extent) : List (Problem Extent) × AliasTable :=
  let name := i.effectiveAlias
  if i.alias_.isNone && isReserved name then
    ([⟨.derivedAliasReserved i.path name, i.place⟩], t)
  else match t.find? name with
    | some first => ([⟨.duplicateAlias name first, i.aliasPlace⟩], t)
    | none => ([], ⟨(name, i.aliasPlace) :: t.entries⟩)

end AliasTable

/-- The imports and declarations of a unit, and the item at which reading them stopped. -/
structure UnitBody where
  imports : List (Import Extent)
  declarations : List (Declaration Extent)
  problems : List (Problem Extent)
  stop : Nat

namespace UnitBody

def empty (stop : Nat) : UnitBody := ⟨[], [], [], stop⟩

def addProblems (ps : List (Problem Extent)) (b : UnitBody) : UnitBody :=
  ⟨b.imports, b.declarations, ps ++ b.problems, b.stop⟩

def addImport (i : Import Extent) (b : UnitBody) : UnitBody :=
  ⟨i :: b.imports, b.declarations, b.problems, b.stop⟩

def addDeclaration (d : Declaration Extent) (b : UnitBody) : UnitBody :=
  ⟨b.imports, d :: b.declarations, b.problems, b.stop⟩

end UnitBody

/-- What an entry of a unit may be. -/
inductive Entry where
  | import_ (i : Import Extent)
  | declaration (d : Declaration Extent)

/-- An import or a declaration. Anything else is reported and gives up. -/
def Rule.entry : Rule Entry := do
  match ← peekKind with
  | .keyword .importWord => return .import_ (← importDecl)
  | .keyword .typeWord | .keyword .abstractWord | .keyword .partWord =>
    return .declaration (← declaration)
  | .keyword .datatypeWord => reject fun _ => .datatypeDeclaration
  | _ => reject .expectedDeclaration

/-- The entries from item `i` on. `aliases` are those taken so far, `declared` says whether a
declaration stands before. -/
def unitBody (items : Items) : Nat → AliasTable → Bool → Nat → UnitBody
  | 0, _, _, i => .empty i
  | n + 1, aliases, declared, i =>
    if kindAt items i = .endOfText then .empty i
    else match Rule.entry items i with
      | ⟨some (.import_ d), j, ps⟩ =>
        let late := if declared then [⟨.importAfterDeclaration d.path, d.place⟩] else []
        let (clash, aliases) := aliases.add d
        ((unitBody items n aliases declared j).addImport d).addProblems (ps ++ late ++ clash)
      | ⟨some (.declaration d), j, ps⟩ =>
        ((unitBody items n aliases true j).addDeclaration d).addProblems ps
      | ⟨none, j, ps⟩ =>
        (unitBody items n aliases declared (skip items .declaration i j)).addProblems ps

/-- All items but the end of the text; the end itself in an empty text. -/
def unitExtent (items : Items) : Extent :=
  if items.size ≤ 1 then .single (items.size - 1) else ⟨0, items.size - 2⟩

/-- The entries behind the header. -/
def wholeBody (items : Items) : UnitBody :=
  unitBody items items.size .empty false (Rule.header items 0).next

/-- The unit that the items hold, and all problems met. -/
def readUnit (items : Items) : SchemaUnit Extent × List (Problem Extent) :=
  let head := Rule.header items 0
  let h := head.value.getD ⟨"", none, none⟩
  let body := wholeBody items
  (⟨h.name, h.place, h.doc, body.imports, body.declarations, unitExtent items⟩,
    head.problems ++ body.problems)

end SchemaLang
