import ClassSugar.Page.Basic
import ClassSugar.Tree.Query

/-!
# Writing trees

The layout of code is fixed: braces on lines of their own, one level of indentation inside them, an
empty line between members and between the items of a file. Directives that follow each other stay
together, and a comment stays with what follows it.

Only plain C# is written. A declaration that still uses an extension is refused with the first
extension construct found in it, before anything nested in it is looked at.
-/

namespace ClassSugar

/-! ### What is refused -/

/-- An extension construct in a declaration. -/
inductive Construct where
  | dataHeader
  | singletonMarker
  | primaryParameters
  | accessClause
  | baseArguments
  | nullMarker
  deriving DecidableEq, Repr, Inhabited

/-- The construct in words. -/
def Construct.describe : Construct → String
  | .dataHeader => "a data class header"
  | .singletonMarker => "the singleton marker"
  | .primaryParameters => "a primary parameter list"
  | .accessClause => "a constructor access clause"
  | .baseArguments => "base-class arguments in the header"
  | .nullMarker => "a null assertion marker"

/-- Why a tree cannot be written: a declaration uses an extension. -/
structure EmitError where
  declaration : String
  construct : Construct
  deriving DecidableEq, Repr, Inhabited

/-- The error in words. -/
def EmitError.message (e : EmitError) : String :=
  s!"declaration `{e.declaration}` still uses {e.construct.describe}; desugar it before emitting"

/-- The first extension construct in a declaration, those in nested types aside. -/
def Declaration.construct? (d : Declaration) : Option Construct :=
  if d.kind = .data then some .dataHeader
  else if d.singleton then some .singletonMarker
  else if d.params.isSome then some .primaryParameters
  else if d.constructorAccess.isSome then some .accessClause
  else if d.bases.any fun b => b.args.isSome then some .baseArguments
  else if (d.members.flatMap Member.params).any (·.nullAssertion.isSome) then some .nullMarker
  else none

/-! ### Parts -/

namespace Emit

/-- Modifiers and the word after them. -/
def withModifiers (modifiers : List String) (word : String) : String :=
  String.join (modifiers.map (· ++ " ")) ++ word

/-- A parameter as written in a list. -/
def param (p : Parameter) : String :=
  String.join (p.attributes.map fun a => "[" ++ a ++ "] ") ++ withModifiers p.modifiers p.ty.text ++
    " " ++ p.name ++ (p.defaultValue.elim "" (" = " ++ ·))

/-- A parameter list without its parentheses. -/
def params (ps : List Parameter) : String :=
  String.intercalate ", " (ps.map param)

/-- One row for each attribute. -/
def attributes (as : List String) : List Row :=
  as.map fun a => .line 0 ("[" ++ a ++ "]")

/-- One row for each `where` clause, one level in. -/
def constraints (cs : List String) : List Row :=
  cs.map fun c => .line 1 ("where " ++ c)

/-- Rows in braces. -/
def braced (rows : List Row) : List Row :=
  Row.text "\x7b" ++ Row.indented rows ++ Row.text "\x7d"

/-- A statement. -/
def statement : Statement → List Row
  | .source code => Row.verbatim "" code ""
  | .comment text => Row.verbatim "" text ""
  | .assign target value => Row.text (target ++ " = " ++ value ++ ";")
  | .call callee args => Row.text (callee ++ "(" ++ String.intercalate ", " args ++ ");")
  | .throwIf condition exception args =>
    Row.text ("if (" ++ condition ++ ") throw new " ++ exception ++ "(" ++
      String.intercalate ", " args ++ ");")
  | .ret value => Row.verbatim "return " value ";"
  | .expr value => Row.verbatim "" value ";"

/-- A block in braces. -/
def block (b : Block) : List Row :=
  braced (b.stmts.flatMap statement)

/-! ### Members -/

/-- A text with an initializer, or ended without one. -/
def initialized (before : String) (initializer : Option Verbatim) (ending : String) : List Row :=
  match initializer with
  | some value => Row.verbatim (before ++ " = ") value ";"
  | none => Row.text (before ++ ending)

/-- A field. -/
def field (f : Field) : List Row :=
  attributes f.attributes ++
    initialized (withModifiers f.modifiers f.ty.text ++ " " ++ f.name) f.initializer ";"

/-- An accessor of an automatic property. -/
def accessor (a : Accessor) : String :=
  withModifiers a.modifiers a.keyword ++ ";"

/-- A property. -/
def property (p : Property) : List Row :=
  let name := withModifiers p.modifiers p.ty.text ++ " " ++ p.name
  attributes p.attributes ++
    match p.body with
    | .auto accessors =>
      initialized
        (name ++ " \x7b " ++ String.intercalate " " (accessors.map accessor) ++ " \x7d")
        p.initializer ""
    | .expression value => Row.verbatim (name ++ " => ") value ";"
    | .raw code =>
      Row.text name ++
        Row.verbatim "" code (p.initializer.elim "" fun value => " = " ++ value.text ++ ";")

/-- A constructor. -/
def constructor (c : Constructor) : List Row :=
  attributes c.attributes ++
    Row.text (withModifiers c.modifiers c.name ++ "(" ++ params c.params ++ ")") ++
    (c.initializer.elim [] fun call => [.line 1 (": " ++ call)]) ++ block c.body

/-- The clauses of a method without a body, the last of which ends it. -/
def endedConstraints : List String → List Row
  | [] => []
  | [c] => [.line 1 ("where " ++ c ++ ";")]
  | c :: cs => .line 1 ("where " ++ c) :: endedConstraints cs

/-- A method. -/
def method (m : Method) : List Row :=
  let signature := withModifiers m.modifiers m.returnType.text ++ " " ++ m.name ++
    m.typeParams.getD "" ++ "(" ++ params m.params ++ ")"
  attributes m.attributes ++
    match m.body with
    | .block b => Row.text signature ++ constraints m.constraints ++ block b
    | .expression value =>
      if m.constraints.isEmpty then
        Row.verbatim (signature ++ " => ") value ";"
      else
        Row.text signature ++ constraints m.constraints ++
          Row.indented (Row.verbatim "=> " value ";")
    | .absent =>
      if m.constraints.isEmpty then
        Row.text (signature ++ ";")
      else
        Row.text signature ++ endedConstraints m.constraints

/-! ### Declarations -/

/-- The keyword of a declaration. -/
def keyword : Declaration.Kind → String
  | .record => "record"
  | .plain | .data => "class"

/-- The rows before the body of a declaration. -/
def header (d : Declaration) : List Row :=
  let bases := if d.bases.isEmpty then "" else
    " : " ++ String.intercalate ", " (d.bases.map BaseEntry.name)
  attributes d.attributes ++
    Row.text (withModifiers d.modifiers (keyword d.kind) ++ " " ++ d.selfType ++ bases) ++
    constraints d.constraints

/-- Whether a comment stays with what follows it. -/
def attaches : BodyItem → Bool
  | .comment _ => true
  | _ => false

mutual

/-- A declaration. -/
def declaration : Declaration → Except EmitError (List Row)
  | ⟨h, body⟩ =>
    match Declaration.construct? ⟨h, body⟩ with
    | some construct => .error ⟨h.name, construct⟩
    | none =>
      match bodyItems true body with
      | .error e => .error e
      | .ok rows => .ok (header ⟨h, body⟩ ++ braced rows)

/-- The items of a body. `attached` tells that nothing separates the first of them from what
precedes it. -/
def bodyItems (attached : Bool) : List BodyItem → Except EmitError (List Row)
  | [] => .ok []
  | item :: rest =>
    match bodyItem item with
    | .error e => .error e
    | .ok rows =>
      match bodyItems (attaches item) rest with
      | .error e => .error e
      | .ok more => .ok ((if attached then [] else [.gap]) ++ rows ++ more)

/-- An item of a body. -/
def bodyItem : BodyItem → Except EmitError (List Row)
  | .member m => member m
  | .statement code => .ok (Row.verbatim "" code "")
  | .comment text => .ok (Row.verbatim "" text "")

/-- A member. -/
def member : Member → Except EmitError (List Row)
  | .field f => .ok (field f)
  | .property p => .ok (property p)
  | .constructor c => .ok (constructor c)
  | .method m => .ok (method m)
  | .type d => declaration d
  | .raw code => .ok (Row.verbatim "" code "")

end

/-! ### Files -/

/-- Whether an empty line stands between two items. -/
def separated : Item → Item → Bool
  | .directive _, .directive _ => false
  | .comment _, _ => false
  | _, _ => true

/-- A `using` directive. -/
def directive (u : Using) : List Row :=
  Row.text ((if u.isGlobal then "global " else "") ++ "using " ++ u.target ++ ";")

mutual

/-- An item. -/
def item : Item → Except EmitError (List Row)
  | .directive u => .ok (directive u)
  | .declaration d => declaration d
  | .raw code => .ok (Row.verbatim "" code "")
  | .comment text => .ok (Row.verbatim "" text "")
  | .scope name fileScoped inner =>
    match items none inner with
    | .error e => .error e
    | .ok rows =>
      if fileScoped then
        let gap := if inner.isEmpty then [] else [.gap]
        .ok (Row.text ("namespace " ++ name ++ ";") ++ gap ++ rows)
      else
        .ok (Row.text ("namespace " ++ name) ++ braced rows)

/-- Items, the first of which follows `previous`. -/
def items (previous : Option Item) : List Item → Except EmitError (List Row)
  | [] => .ok []
  | next :: rest =>
    match item next with
    | .error e => .error e
    | .ok rows =>
      match items (some next) rest with
      | .error e => .error e
      | .ok more =>
        .ok ((if previous.any (separated · next) then [.gap] else []) ++ rows ++ more)

end

end Emit

/-- A source file as text. -/
def CompilationUnit.emit (layout : Layout) (u : CompilationUnit) : Except EmitError String :=
  (Emit.items none u.items).map (Row.render layout)

/-- Whether a source file is too long for a text, laid out. -/
def CompilationUnit.outgrows (layout : Layout) (u : CompilationUnit) : Bool :=
  match Emit.items none u.items with
  | .ok rows => Row.outgrows layout.indentWidth.toNat [] rows
  | .error _ => false

/-- A declaration as text. -/
def Declaration.emit (layout : Layout) (d : Declaration) : Except EmitError String :=
  (Emit.declaration d).map (Row.render layout)

end ClassSugar
