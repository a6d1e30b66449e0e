import SchemaLang.Json.Value
import SchemaLang.Schema.Unit

/-!
# Schema units as JSON

Every node becomes an object, with its place in the member `span`; how a place is written is given
as `f`. Where several kinds of node are possible, the member `kind` comes first and names the kind.

`SchemaUnit.toJson` is the whole unit.
-/

set_option autoImplicit false

namespace SchemaLang

variable {σ : Type} (f : σ → Json)

def Name.toJson (n : Name σ) : Json := .object [("text", .string n.text), ("span", f n.place)]

def TypeRef.members (r : TypeRef σ) : List (String × Json) :=
  [("qualifier", .ofOption (Name.toJson f) r.qualifier), ("name", r.name.toJson f),
   ("span", f r.place)]

def TypeRef.toJson (r : TypeRef σ) : Json := .object (r.members f)

def Bound.toJson {α : Type} (value : α → Json) : Bound α → Json
  | .unbounded => .tagged "Unbounded" []
  | .value v => .tagged "Value" [("value", value v)]

/-- The two ends of a range. -/
def rangeMembers {α : Type} (value : α → Json) (min max : Bound α) : List (String × Json) :=
  [("min", min.toJson value), ("max", max.toJson value)]

mutual

def Builtin.toJson (f : σ → Json) : Builtin σ → Json
  | .integer min max => .tagged "Integer" (rangeMembers .integer min max)
  | .float min max => .tagged "Float" (rangeMembers .float min max)
  | .boolean => .tagged "Boolean" []
  | .string min max => .tagged "String" (rangeMembers .ofNat min max)
  | .enum values => .tagged "Enum" [("values", .ofList .string values)]
  | .pattern regex flags => .tagged "Pattern" [("regex", .string regex), ("flags", .ofText flags)]
  | .timestamp format => .tagged "Timestamp" [("format", .ofText format)]
  | .vector dimensions => .tagged "Vector" [("dimensions", .ofNat dimensions)]
  | .date => .tagged "Date" []
  | .uuid => .tagged "Uuid" []
  | .list element min max =>
    .tagged "List" (("element", element.toJson f) :: rangeMembers .ofNat min max)

def DatatypeRef.toJson (f : σ → Json) : DatatypeRef σ → Json
  | .builtin type place => .tagged "Builtin" [("builtin", type.toJson f), ("span", f place)]
  | .named ref => .tagged "Alias" (ref.members f)

end

def PlacedBuiltin.toJson (b : PlacedBuiltin σ) : Json :=
  .object [("builtin", b.type.toJson f), ("span", f b.place)]

def Literal.toJson : Literal → Json
  | .integer v => .tagged "Integer" [("value", .integer v)]
  | .float v => .tagged "Float" [("value", .float v)]
  | .string v => .tagged "String" [("value", .string v)]
  | .boolean v => .tagged "Boolean" [("value", .boolean v)]
  | .regex s => .tagged "Regex" [("value", .string s)]
  | .nil => .tagged "Nil" []

mutual

def Expr.toJson (f : σ → Json) : Expr σ → Json
  | .literal v p => .tagged "Literal" [("value", v.toJson), ("span", f p)]
  | .list es p => .tagged "List" [("elements", .array (Expr.toJsons f es)), ("span", f p)]
  | .unary op e p =>
    .tagged "Unary" [("op", .string op.name), ("operand", e.toJson f), ("span", f p)]
  | .binary op l r p =>
    .tagged "Binary"
      [("op", .string op.name), ("left", l.toJson f), ("right", r.toJson f), ("span", f p)]
  | .member e n p =>
    .tagged "Member" [("object", e.toJson f), ("member", n.toJson f), ("span", f p)]
  | .index e es p =>
    .tagged "Index"
      [("object", e.toJson f), ("indices", .array (Expr.toJsons f es)), ("span", f p)]
  | .ternary c t e p =>
    .tagged "Ternary"
      [("condition", c.toJson f), ("then_branch", t.toJson f), ("else_branch", e.toJson f),
       ("span", f p)]
  | .pipeline s g args params body p =>
    .tagged "Pipeline"
      [("subject", s.toJson f), ("function", g.toJson f), ("args", Expr.argsToJson f args),
       ("params", .ofOption (.ofList (Name.toJson f)) params), ("body", Expr.bodyToJson f body),
       ("span", f p)]
  | .dollar n p => .tagged "Variable" [("name", .string n), ("span", f p)]
  | .property n p => .tagged "Name" [("name", .string n), ("span", f p)]
  | .relation n p => .tagged "RelationName" [("name", .string n), ("span", f p)]
  | .datatype k p => .tagged "DatatypeKeyword" [("keyword", .string k.name), ("span", f p)]

def Expr.toJsons (f : σ → Json) : List (Expr σ) → List Json
  | [] => []
  | e :: es => e.toJson f :: Expr.toJsons f es

def Expr.argsToJson (f : σ → Json) : Option (List (Expr σ)) → Json
  | none => .null
  | some es => .array (Expr.toJsons f es)

def Expr.bodyToJson (f : σ → Json) : Option (Expr σ) → Json
  | none => .null
  | some e => e.toJson f

end

def TypeModifier.name : TypeModifier → String
  | none => "None"
  | abstract_ => "Abstract"
  | part => "Part"

def PropertyModifier.name : PropertyModifier → String
  | none => "None"
  | primary => "Primary"
  | required => "Required"

def Multiplicity.name : Multiplicity → String
  | optionalOne => "OptionalOne"
  | requiredOne => "RequiredOne"
  | optionalMany => "OptionalMany"
  | requiredMany => "RequiredMany"

def Property.members (p : Property σ) : List (String × Json) :=
  [("doc", .ofText p.doc), ("name", p.name.toJson f), ("datatype", p.datatype.toJson f),
   ("modifier", .string p.modifier.name), ("span", f p.place)]

def Property.toJson (p : Property σ) : Json := .object (p.members f)

def ReverseEdge.toJson (r : ReverseEdge σ) : Json :=
  .object
    [("name", r.name.toJson f), ("multiplicity", .string r.multiplicity.name), ("span", f r.place)]

def RelationBody.toJson (b : RelationBody σ) : Json :=
  .object [("properties", .ofList (Property.toJson f) b.properties), ("span", f b.place)]

def Association.members (a : Association σ) : List (String × Json) :=
  [("doc", .ofText a.doc), ("name", a.name.toJson f),
   ("multiplicity", .string a.multiplicity.name), ("target", a.target.toJson f),
   ("reverse", .ofOption (ReverseEdge.toJson f) a.reverse),
   ("body", .ofOption (RelationBody.toJson f) a.body), ("span", f a.place)]

def Composition.members (c : Composition σ) : List (String × Json) :=
  [("doc", .ofText c.doc), ("name", c.name.toJson f),
   ("multiplicity", .string c.multiplicity.name), ("target", c.target.toJson f),
   ("reverse", .ofOption (ReverseEdge.toJson f) c.reverse), ("span", f c.place)]

def Invariant.members (i : Invariant σ) : List (String × Json) :=
  [("message", .string i.message), ("constraint", i.constraint.toJson f), ("span", f i.place)]

def Member.toJson : Member σ → Json
  | .property p => .tagged "Property" (p.members f)
  | .association a => .tagged "Association" (a.members f)
  | .composition c => .tagged "Composition" (c.members f)
  | .invariant i => .tagged "Invariant" (i.members f)

def Declaration.toJson : Declaration σ → Json
  | .type t =>
    .tagged "Type"
      [("doc", .ofText t.doc), ("name", t.name.toJson f), ("modifier", .string t.modifier.name),
       ("extends", .ofList (TypeRef.toJson f) t.parents),
       ("members", .ofList (Member.toJson f) t.members), ("span", f t.place)]
  | .datatype d =>
    .tagged "Datatype"
      [("doc", .ofText d.doc), ("name", d.name.toJson f), ("datatype", d.datatype.toJson f),
       ("span", f d.place)]

def Import.toJson (i : Import σ) : Json :=
  .object
    [("path", .string i.path), ("alias", .ofOption (Name.toJson f) i.alias_), ("span", f i.place)]

/-- `absent` stands for the place of a header that is not there. -/
def SchemaUnit.toJson (absent : σ) (u : SchemaUnit σ) : Json :=
  .object
    [("name", .string u.name), ("header_span", f (u.header.getD absent)), ("doc", .ofText u.doc),
     ("imports", .ofList (Import.toJson f) u.imports),
     ("declarations", .ofList (Declaration.toJson f) u.declarations), ("span", f u.place)]

end SchemaLang
