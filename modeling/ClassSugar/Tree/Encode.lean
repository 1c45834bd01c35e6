import ClassSugar.Json.Basic
import ClassSugar.Tree.Basic

/-!
# The tree as JSON

A record is an object with its fields in a fixed order, an alternative an object with one field that
names it, and an alternative without contents is its name alone. Spans and identifier lists are left
out.
-/

namespace ClassSugar

/-- Code kept as text: the text and its column. -/
def Verbatim.toJson (v : Verbatim) : Json :=
  .obj [("text", .str v.text), ("column", .nat v.column)]

/-- A type is its text. -/
def TypeName.toJson (t : TypeName) : Json :=
  .str t.text

/-- A statement as JSON. -/
def Statement.toJson : Statement → Json
  | .source code => .tagged "Source" code.toJson
  | .comment text => .tagged "Comment" text.toJson
  | .assign target value =>
    .tagged "Assign" (.obj [("target", .str target), ("value", .str value)])
  | .call callee args =>
    .tagged "Call" (.obj [("callee", .str callee), ("args", .strs args)])
  | .throwIf condition exception args =>
    .tagged "ThrowIf" (.obj [("condition", .str condition), ("exception", .str exception),
      ("args", .strs args)])
  | .ret value => .tagged "Return" value.toJson
  | .expr value => .tagged "Expr" value.toJson

/-- A block as JSON. -/
def Block.toJson (b : Block) : Json :=
  .obj [("stmts", .arr (b.stmts.map Statement.toJson))]

/-- The form of a null assertion as JSON. -/
def NullMarker.toJson : NullMarker → Json
  | .byAttribute => .str "Attribute"
  | .byMarks => .str "BangBang"

/-- A parameter as JSON. -/
def Parameter.toJson (p : Parameter) : Json :=
  .obj [
    ("attributes", .strs p.attributes),
    ("modifiers", .strs p.modifiers),
    ("ty", p.ty.toJson),
    ("name", .str p.name),
    ("default", .option .str p.defaultValue),
    ("null_assertion", .option NullMarker.toJson p.nullAssertion)]

/-- An accessor as JSON. -/
def Accessor.toJson (a : Accessor) : Json :=
  .obj [("modifiers", .strs a.modifiers), ("keyword", .str a.keyword)]

/-- The body of a property as JSON. -/
def PropertyBody.toJson : PropertyBody → Json
  | .auto accessors => .tagged "Auto" (.arr (accessors.map Accessor.toJson))
  | .expression value => .tagged "Expression" value.toJson
  | .raw code => .tagged "Raw" code.toJson

/-- A property as JSON. -/
def Property.toJson (p : Property) : Json :=
  .obj [
    ("attributes", .strs p.attributes),
    ("modifiers", .strs p.modifiers),
    ("ty", p.ty.toJson),
    ("name", .str p.name),
    ("body", p.body.toJson),
    ("initializer", .option Verbatim.toJson p.initializer)]

/-- A field as JSON. -/
def Field.toJson (f : Field) : Json :=
  .obj [
    ("attributes", .strs f.attributes),
    ("modifiers", .strs f.modifiers),
    ("ty", f.ty.toJson),
    ("name", .str f.name),
    ("initializer", .option Verbatim.toJson f.initializer)]

/-- A constructor as JSON. -/
def Constructor.toJson (c : Constructor) : Json :=
  .obj [
    ("attributes", .strs c.attributes),
    ("modifiers", .strs c.modifiers),
    ("name", .str c.name),
    ("params", .arr (c.params.map Parameter.toJson)),
    ("initializer", .option .str c.initializer),
    ("body", c.body.toJson)]

/-- The body of a method as JSON. -/
def MethodBody.toJson : MethodBody → Json
  | .block body => .tagged "Block" body.toJson
  | .expression value => .tagged "Expression" value.toJson
  | .absent => .str "None"

/-- A method as JSON. -/
def Method.toJson (m : Method) : Json :=
  .obj [
    ("attributes", .strs m.attributes),
    ("modifiers", .strs m.modifiers),
    ("return_type", m.returnType.toJson),
    ("name", .str m.name),
    ("type_params", .option .str m.typeParams),
    ("params", .arr (m.params.map Parameter.toJson)),
    ("constraints", .strs m.constraints),
    ("body", m.body.toJson)]

/-- The name of a form of declaration. -/
def Declaration.Kind.name : Declaration.Kind → String
  | .plain => "Class"
  | .record => "Record"
  | .data => "Data"

/-- An entry of a base list as JSON. -/
def BaseEntry.toJson (b : BaseEntry) : Json :=
  .obj [("name", .str b.name), ("args", .option .str b.args)]

mutual

/-- A declaration as JSON. -/
def Declaration.toJson : Declaration → Json
  | ⟨h, body⟩ =>
    .obj [
      ("attributes", .strs h.attributes),
      ("modifiers", .strs h.modifiers),
      ("kind", .str h.kind.name),
      ("singleton", .bool h.singleton),
      ("name", .str h.name),
      ("type_params", .option .str h.typeParams),
      ("params", .option (fun ps => .arr (ps.map Parameter.toJson)) h.params),
      ("ctor_access", .option .str h.constructorAccess),
      ("bases", .arr (h.bases.map BaseEntry.toJson)),
      ("constraints", .strs h.constraints),
      ("body", .arr (BodyItem.toJsons body)),
      ("source", h.source.toJson)]

/-- The items of a body as JSON. -/
def BodyItem.toJsons : List BodyItem → List Json
  | [] => []
  | item :: rest => item.toJson :: BodyItem.toJsons rest

/-- An item of a body as JSON. -/
def BodyItem.toJson : BodyItem → Json
  | .member m => .tagged "Member" m.toJson
  | .statement code => .tagged "Statement" code.toJson
  | .comment text => .tagged "Comment" text.toJson

/-- A member as JSON. -/
def Member.toJson : Member → Json
  | .field f => .tagged "Field" f.toJson
  | .property p => .tagged "Property" p.toJson
  | .constructor c => .tagged "Constructor" c.toJson
  | .method m => .tagged "Method" m.toJson
  | .type d => .tagged "Type" d.toJson
  | .raw code => .tagged "Raw" code.toJson

end

/-- A directive as JSON. -/
def Using.toJson (u : Using) : Json :=
  .obj [("global", .bool u.isGlobal), ("target", .str u.target)]

mutual

/-- An item of a file as JSON. -/
def Item.toJson : Item → Json
  | .directive u => .tagged "Using" u.toJson
  | .scope name fileScoped items =>
    .tagged "Namespace" (.obj [("name", .str name), ("file_scoped", .bool fileScoped),
      ("items", .arr (Item.toJsons items))])
  | .declaration d => .tagged "Declaration" d.toJson
  | .raw code => .tagged "Raw" code.toJson
  | .comment text => .tagged "Comment" text.toJson

/-- The items of a file as JSON. -/
def Item.toJsons : List Item → List Json
  | [] => []
  | item :: rest => item.toJson :: Item.toJsons rest

end

/-- A file as JSON. -/
def CompilationUnit.toJson (u : CompilationUnit) : Json :=
  .obj [("items", .arr (Item.toJsons u.items))]

end ClassSugar
