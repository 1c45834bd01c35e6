import ClassSugar.Extension
import ClassSugar.Json.Record
import ClassSugar.Page.Basic

/-!
# Options

What a caller chooses: which extensions are understood, whether types without `?` admit `null`, how
an assertion that an argument is not null is spelled out, and how the result is laid out. All of it
can be read from JSON, where everything has a default.
-/

namespace ClassSugar

/-! ### The style of a guard -/

/-- How it is checked that an argument is not null. -/
inductive NullGuardStyle where
  /-- By a call that throws. -/
  | throwIfNull
  /-- By a condition and a `throw`. -/
  | ifThrow
  deriving DecidableEq, Repr, Inhabited

namespace NullGuardStyle

/-- The styles. -/
def all : List NullGuardStyle :=
  [.throwIfNull, .ifThrow]

/-- The name of a style. -/
def name : NullGuardStyle → String
  | .throwIfNull => "throw-if-null"
  | .ifThrow => "if-throw"

/-- The style with a name. -/
def ofName? (s : String) : Option NullGuardStyle :=
  all.find? fun style => style.name == s

end NullGuardStyle

/-- A text that names no style. -/
structure UnknownGuardStyle where
  text : String
  deriving DecidableEq, Repr, Inhabited

/-- The error in words. -/
def UnknownGuardStyle.message (e : UnknownGuardStyle) : String :=
  s!"unknown null guard style `{e.text}` (expected `throw-if-null` or `if-throw`)"

/-- The style that a text names. -/
def NullGuardStyle.parse (s : String) : Except UnknownGuardStyle NullGuardStyle :=
  match ofName? s with
  | some style => .ok style
  | none => .error ⟨s⟩

/-! ### Options and configuration -/

/-- How declarations are desugared. -/
structure Options where
  extensions : Extensions := {}
  /-- Only types written with `?` admit `null`. -/
  nullableContext : Bool := false
  nullGuard : NullGuardStyle := .throwIfNull
  deriving DecidableEq, Repr, Inhabited

/-- How declarations are desugared and how the result is laid out. -/
structure Config where
  options : Options := {}
  layout : Layout := {}
  deriving DecidableEq, Repr, Inhabited

/-! ### From JSON -/

/-- The switches that a record describes. -/
def Extensions.ofJson? (j : Json) : Option Extensions := do
  let [shorthand, initializer, singleton, assertion] ← j.record?
    ["property_shorthand", "unnamed_initializer", "singleton", "null_assertion"] | none
  return {
    propertyShorthand := ← Json.orDefault true Json.bool? shorthand
    unnamedInitializer := ← Json.orDefault true Json.bool? initializer
    singleton := ← Json.orDefault true Json.bool? singleton
    nullAssertion := ← Json.orDefault true Json.bool? assertion }

/-- The style that a word names. -/
def NullGuardStyle.ofJson? (j : Json) : Option NullGuardStyle :=
  j.word?.bind ofName?

/-- The options that a record describes. -/
def Options.ofJson? (j : Json) : Option Options := do
  let [extensions, nullable, guard] ← j.record? ["syntax", "nullable_context", "null_guard"] | none
  return {
    extensions := ← Json.orDefault {} Extensions.ofJson? extensions
    nullableContext := ← Json.orDefault false Json.bool? nullable
    nullGuard := ← Json.orDefault .throwIfNull NullGuardStyle.ofJson? guard }

/-- The name of a line end. -/
def LineEnd.name : LineEnd → String
  | .lf => "lf"
  | .crlf => "crlf"

/-- The line end that a word names. -/
def LineEnd.ofJson? (j : Json) : Option LineEnd :=
  j.word?.bind fun s => [LineEnd.lf, .crlf].find? fun e => e.name == s

/-- The layout that a record describes. -/
def Layout.ofJson? (j : Json) : Option Layout := do
  let [width, lineEnd] ← j.record? ["indent_width", "newline"] | none
  return {
    indentWidth := ← Json.orDefault 4 Json.size? width
    lineEnd := ← Json.orDefault .lf LineEnd.ofJson? lineEnd }

/-- The configuration that a record describes. -/
def Config.ofJson? (j : Json) : Option Config := do
  let [options, layout] ← j.record? ["desugar", "emit"] | none
  return {
    options := ← Json.orDefault {} Options.ofJson? options
    layout := ← Json.orDefault {} Layout.ofJson? layout }

/-! ### To JSON -/

/-- The switches of the extensions as JSON. -/
def Extensions.toJson (e : Extensions) : Json :=
  .obj [
    ("property_shorthand", .bool e.propertyShorthand),
    ("unnamed_initializer", .bool e.unnamedInitializer),
    ("singleton", .bool e.singleton),
    ("null_assertion", .bool e.nullAssertion)]

/-- The options as JSON. -/
def Options.toJson (o : Options) : Json :=
  .obj [
    ("syntax", o.extensions.toJson),
    ("nullable_context", .bool o.nullableContext),
    ("null_guard", .str o.nullGuard.name)]

/-- The layout as JSON. -/
def Layout.toJson (l : Layout) : Json :=
  .obj [("indent_width", .nat l.indentWidth.toNat), ("newline", .str l.lineEnd.name)]

end ClassSugar
