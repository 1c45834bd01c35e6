import ClassSugar.Text.Quoted
import ClassSugar.Tree.Basic

/-!
# The tree in outline

The outline of a tree shows everything that is in it, spans and identifiers included, one thing on a
line and four spaces for each level. A record is shown by name and fields, an alternative by its
name with its contents in parentheses, and a list in brackets. It is for people to read; programs
read the JSON form.
-/

namespace ClassSugar

/-- An outline of some value. -/
inductive Outline where
  /-- Something shown on the spot. -/
  | atom (text : String)
  | list (items : List Outline)
  | record (name : String) (fields : List (String × Outline))
  | wrapped (name : String) (content : Outline)
  deriving Inhabited

namespace Outline

/-- Lines between brackets, each of them one level further in and followed by a comma. -/
def enclosed (indent opening closing : String) (entries : List String) : String :=
  opening ++ String.join (entries.map fun entry => "\n    " ++ indent ++ entry ++ ",") ++
    "\n" ++ indent ++ closing

mutual

/-- The text of an outline at an indentation. -/
def renderAt (indent : String) : Outline → String
  | .atom text => text
  | .list [] => "[]"
  | .list (item :: rest) =>
    enclosed indent "[" "]"
      (renderAt ("    " ++ indent) item :: renderItems ("    " ++ indent) rest)
  | .record name fields =>
    enclosed indent (name ++ " \x7b") "\x7d" (renderFields ("    " ++ indent) fields)
  | .wrapped name content =>
    enclosed indent (name ++ "(") ")" [renderAt ("    " ++ indent) content]

/-- The texts of the items of a list. -/
def renderItems (indent : String) : List Outline → List String
  | [] => []
  | item :: rest => renderAt indent item :: renderItems indent rest

/-- The texts of the fields of a record. -/
def renderFields (indent : String) : List (String × Outline) → List String
  | [] => []
  | (name, value) :: rest => (name ++ ": " ++ renderAt indent value) :: renderFields indent rest

end

/-- The text of an outline. -/
def render (o : Outline) : String :=
  o.renderAt ""

/-! ### Simple values -/

/-- A text in quotes. -/
def str (s : String) : Outline :=
  .atom (Text.quoted s)

/-- Texts in quotes. -/
def strs (ss : List String) : Outline :=
  .list (ss.map str)

/-- A truth value. -/
def bool (b : Bool) : Outline :=
  .atom (if b then "true" else "false")

/-- A value that may be absent. -/
def option {α : Type} (outline : α → Outline) : Option α → Outline
  | some a => .wrapped "Some" (outline a)
  | none => .atom "None"

end Outline

/-! ### Trees -/

/-- A span in outline. -/
def Span.outline (s : Span) : Outline :=
  .atom s!"{s.lo}..{s.hi}"

/-- Code kept as text in outline. -/
def Verbatim.outline (v : Verbatim) : Outline :=
  .record "RawText" [
    ("text", .str v.text),
    ("span", v.span.outline),
    ("column", .atom (toString v.column)),
    ("idents", .strs v.idents)]

/-- A type in outline. -/
def TypeName.outline (t : TypeName) : Outline :=
  .record "TypeRef" [("text", .str t.text)]

/-- A statement in outline. -/
def Statement.outline : Statement → Outline
  | .source code => .wrapped "Source" code.outline
  | .comment text => .wrapped "Comment" text.outline
  | .assign target value => .record "Assign" [("target", .str target), ("value", .str value)]
  | .call callee args => .record "Call" [("callee", .str callee), ("args", .strs args)]
  | .throwIf condition exception args =>
    .record "ThrowIf" [
      ("condition", .str condition), ("exception", .str exception), ("args", .strs args)]
  | .ret value => .wrapped "Return" value.outline
  | .expr value => .wrapped "Expr" value.outline

/-- A block in outline. -/
def Block.outline (b : Block) : Outline :=
  .record "Block" [("stmts", .list (b.stmts.map Statement.outline))]

/-- The form of a null assertion in outline. -/
def NullMarker.outline : NullMarker → Outline
  | .byAttribute => .atom "Attribute"
  | .byMarks => .atom "BangBang"

/-- A parameter in outline. -/
def Parameter.outline (p : Parameter) : Outline :=
  .record "Parameter" [
    ("attributes", .strs p.attributes),
    ("modifiers", .strs p.modifiers),
    ("ty", p.ty.outline),
    ("name", .str p.name),
    ("default", .option .str p.defaultValue),
    ("null_assertion", .option NullMarker.outline p.nullAssertion),
    ("span", p.span.outline)]

/-- An accessor in outline. -/
def Accessor.outline (a : Accessor) : Outline :=
  .record "Accessor" [("modifiers", .strs a.modifiers), ("keyword", .str a.keyword)]

/-- The body of a property in outline. -/
def PropertyBody.outline : PropertyBody → Outline
  | .auto accessors => .wrapped "Auto" (.list (accessors.map Accessor.outline))
  | .expression value => .wrapped "Expression" value.outline
  | .raw code => .wrapped "Raw" code.outline

/-- A property in outline. -/
def Property.outline (p : Property) : Outline :=
  .record "Property" [
    ("attributes", .strs p.attributes),
    ("modifiers", .strs p.modifiers),
    ("ty", p.ty.outline),
    ("name", .str p.name),
    ("body", p.body.outline),
    ("initializer", .option Verbatim.outline p.initializer),
    ("span", p.span.outline)]

/-- A field in outline. -/
def Field.outline (f : Field) : Outline :=
  .record "Field" [
    ("attributes", .strs f.attributes),
    ("modifiers", .strs f.modifiers),
    ("ty", f.ty.outline),
    ("name", .str f.name),
    ("initializer", .option Verbatim.outline f.initializer),
    ("span", f.span.outline)]

/-- A constructor in outline. -/
def Constructor.outline (c : Constructor) : Outline :=
  .record "Constructor" [
    ("attributes", .strs c.attributes),
    ("modifiers", .strs c.modifiers),
    ("name", .str c.name),
    ("params", .list (c.params.map Parameter.outline)),
    ("initializer", .option .str c.initializer),
    ("body", c.body.outline),
    ("span", c.span.outline)]

/-- The body of a method in outline. -/
def MethodBody.outline : MethodBody → Outline
  | .block body => .wrapped "Block" body.outline
  | .expression value => .wrapped "Expression" value.outline
  | .absent => .atom "None"

/-- A method in outline. -/
def Method.outline (m : Method) : Outline :=
  .record "Method" [
    ("attributes", .strs m.attributes),
    ("modifiers", .strs m.modifiers),
    ("return_type", m.returnType.outline),
    ("name", .str m.name),
    ("type_params", .option .str m.typeParams),
    ("params", .list (m.params.map Parameter.outline)),
    ("constraints", .strs m.constraints),
    ("body", m.body.outline),
    ("span", m.span.outline)]

/-- The form of a declaration in outline. -/
def Declaration.Kind.outline : Declaration.Kind → Outline
  | .plain => .atom "Class"
  | .record => .atom "Record"
  | .data => .atom "Data"

/-- An entry of a base list in outline. -/
def BaseEntry.outline (b : BaseEntry) : Outline :=
  .record "BaseEntry" [("name", .str b.name), ("args", .option .str b.args)]

mutual

/-- A declaration in outline. -/
def Declaration.outline : Declaration → Outline
  | ⟨h, body⟩ =>
    .record "Declaration" [
      ("attributes", .strs h.attributes),
      ("modifiers", .strs h.modifiers),
      ("kind", h.kind.outline),
      ("singleton", .bool h.singleton),
      ("name", .str h.name),
      ("type_params", .option .str h.typeParams),
      ("params", .option (fun ps => .list (ps.map Parameter.outline)) h.params),
      ("ctor_access", .option .str h.constructorAccess),
      ("bases", .list (h.bases.map BaseEntry.outline)),
      ("constraints", .strs h.constraints),
      ("body", .list (BodyItem.outlines body)),
      ("source", h.source.outline),
      ("span", h.span.outline)]

/-- The items of a body in outline. -/
def BodyItem.outlines : List BodyItem → List Outline
  | [] => []
  | item :: rest => item.outline :: BodyItem.outlines rest

/-- An item of a body in outline. -/
def BodyItem.outline : BodyItem → Outline
  | .member m => .wrapped "Member" m.outline
  | .statement code => .wrapped "Statement" code.outline
  | .comment text => .wrapped "Comment" text.outline

/-- A member in outline. -/
def Member.outline : Member → Outline
  | .field f => .wrapped "Field" f.outline
  | .property p => .wrapped "Property" p.outline
  | .constructor c => .wrapped "Constructor" c.outline
  | .method m => .wrapped "Method" m.outline
  | .type d => .wrapped "Type" d.outline
  | .raw code => .wrapped "Raw" code.outline

end

/-- A directive in outline. -/
def Using.outline (u : Using) : Outline :=
  .record "Using" [("global", .bool u.isGlobal), ("target", .str u.target)]

mutual

/-- An item of a file in outline. -/
def Item.outline : Item → Outline
  | .directive u => .wrapped "Using" u.outline
  | .scope name fileScoped items =>
    .wrapped "Namespace" (.record "Namespace" [
      ("name", .str name),
      ("file_scoped", .bool fileScoped),
      ("items", .list (Item.outlines items))])
  | .declaration d => .wrapped "Declaration" d.outline
  | .raw code => .wrapped "Raw" code.outline
  | .comment text => .wrapped "Comment" text.outline

/-- The items of a file in outline. -/
def Item.outlines : List Item → List Outline
  | [] => []
  | item :: rest => item.outline :: Item.outlines rest

end

/-- A file in outline. -/
def CompilationUnit.outline (u : CompilationUnit) : Outline :=
  .record "CompilationUnit" [("items", .list (Item.outlines u.items))]

end ClassSugar
