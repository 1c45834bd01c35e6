import ClassSugar.Tree.TypeName
import ClassSugar.Tree.Verbatim

/-!
# The tree of a source file

The tree describes class declarations in two grammars at once: plain C#, and C# with the extensions
that the library takes out. What an extension adds is visible in a declaration's header (the
`singleton` mark, the kind `data`, a parameter list, an access clause, arguments to a base class),
in its body (loose statements), and in the parameters of its members (null assertions).

A body is a list of items in source order. Everything that is not a class, and every member of no
special shape, is kept as text.
-/

namespace ClassSugar

/-! ### Statements -/

/-- A statement of a constructor or method body. Statements of the source are kept as text; the
others are those that desugaring writes. -/
inductive Statement where
  /-- A statement as written, with its end. -/
  | source (code : Verbatim)
  /-- A comment or directive on a line of its own. -/
  | comment (text : Verbatim)
  /-- `target = value;` -/
  | assign (target value : String)
  /-- `callee(args);` -/
  | call (callee : String) (args : List String)
  /-- `if (condition) throw new exception(args);` -/
  | throwIf (condition exception : String) (args : List String)
  /-- `return value;` -/
  | ret (value : Verbatim)
  /-- `value;` -/
  | expr (value : Verbatim)
  deriving DecidableEq, Inhabited

/-- A body in braces. -/
structure Block where
  stmts : List Statement
  deriving DecidableEq, Inhabited

/-! ### Parameters and members -/

/-- The two ways to assert that an argument is not null. -/
inductive NullMarker where
  /-- `[ThrowArgumentNullException]` -/
  | byAttribute
  /-- `name!!` -/
  | byMarks
  deriving DecidableEq, Inhabited

/-- A parameter of a constructor, a method or a declaration. -/
structure Parameter where
  /-- Its attributes, other than the null assertion. -/
  attributes : List String
  modifiers : List String
  ty : TypeName
  name : String
  defaultValue : Option String
  nullAssertion : Option NullMarker
  span : Span
  deriving DecidableEq, Inhabited

/-- An accessor of an automatic property, such as `private set;`. -/
structure Accessor where
  modifiers : List String
  keyword : String
  deriving DecidableEq, Inhabited

/-- The body of a property. -/
inductive PropertyBody where
  /-- Accessors without bodies. -/
  | auto (accessors : List Accessor)
  /-- `=> value;` -/
  | expression (value : Verbatim)
  /-- Accessors with bodies, as written. -/
  | raw (code : Verbatim)
  deriving DecidableEq, Inhabited

/-- A property. -/
structure Property where
  attributes : List String
  modifiers : List String
  ty : TypeName
  name : String
  body : PropertyBody
  initializer : Option Verbatim
  span : Span
  deriving DecidableEq, Inhabited

/-- A field. -/
structure Field where
  attributes : List String
  modifiers : List String
  ty : TypeName
  name : String
  initializer : Option Verbatim
  span : Span
  deriving DecidableEq, Inhabited

/-- A constructor. -/
structure Constructor where
  attributes : List String
  modifiers : List String
  name : String
  params : List Parameter
  /-- `base(...)` or `this(...)`. -/
  initializer : Option String
  body : Block
  span : Span
  deriving DecidableEq, Inhabited

/-- The body of a method. -/
inductive MethodBody where
  | block (body : Block)
  /-- `=> value;` -/
  | expression (value : Verbatim)
  /-- A bare semicolon. -/
  | absent
  deriving DecidableEq, Inhabited

/-- A method. -/
structure Method where
  attributes : List String
  modifiers : List String
  returnType : TypeName
  name : String
  /-- The type parameters with their angle brackets. -/
  typeParams : Option String
  params : List Parameter
  /-- The `where` clauses, without the keyword. -/
  constraints : List String
  body : MethodBody
  span : Span
  deriving DecidableEq, Inhabited

/-! ### Declarations -/

/-- The form in which a declaration is written. -/
inductive Declaration.Kind where
  /-- `class` -/
  | plain
  /-- `record` or `record class` -/
  | record
  /-- `data class` -/
  | data
  deriving DecidableEq, Inhabited

/-- An entry of a base list. A base class that is given arguments keeps their text. -/
structure BaseEntry where
  name : String
  args : Option String
  deriving DecidableEq, Inhabited

/-- What stands before the body of a declaration, and its source. -/
structure Header where
  attributes : List String
  modifiers : List String
  kind : Declaration.Kind
  /-- The declaration is marked `singleton`. -/
  singleton : Bool
  name : String
  /-- The type parameters with their angle brackets. -/
  typeParams : Option String
  /-- The primary parameter list. -/
  params : Option (List Parameter)
  /-- The accessibility from an access clause such as `: public()`. -/
  constructorAccess : Option String
  bases : List BaseEntry
  /-- The `where` clauses, without the keyword. -/
  constraints : List String
  /-- The declaration as written. -/
  source : Verbatim
  span : Span
  deriving DecidableEq, Inhabited

mutual

/-- A class declaration. -/
structure Declaration extends Header where
  body : List BodyItem

/-- An item of a class body. -/
inductive BodyItem where
  | member (member : Member)
  /-- A loose statement. -/
  | statement (code : Verbatim)
  | comment (text : Verbatim)

/-- A member of a class. -/
inductive Member where
  | field (field : Field)
  | property (property : Property)
  | constructor (constructor : Constructor)
  | method (method : Method)
  /-- A nested class. -/
  | type (declaration : Declaration)
  /-- A member kept as written: an event, an indexer, an operator, a nested interface. -/
  | raw (code : Verbatim)

end

instance : Inhabited Declaration where
  default := { toHeader := default, body := [] }

/-! ### Files -/

/-- A `using` directive. -/
structure Using where
  isGlobal : Bool
  /-- What stands between `using` and the semicolon. -/
  target : String
  deriving DecidableEq, Inhabited

/-- An item of a file or a namespace. -/
inductive Item where
  | directive (directive : Using)
  /-- A namespace; one without braces reaches to the end of the file. -/
  | scope (name : String) (fileScoped : Bool) (items : List Item)
  | declaration (declaration : Declaration)
  /-- A type or construct kept as written. -/
  | raw (code : Verbatim)
  | comment (text : Verbatim)

/-- A source file. -/
structure CompilationUnit where
  items : List Item

end ClassSugar
