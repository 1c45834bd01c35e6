import ClassSugar.Source.Place

/-!
# Diagnostics

What the library has to say about a declaration, with a code. The code decides how serious it is: a
lint is a warning and the declaration is desugared all the same, everything else is an error and the
declaration stays as written.
-/

namespace ClassSugar

/-- How serious a diagnostic is. -/
inductive Severity where
  | warning
  | error
  deriving DecidableEq, Repr, Inhabited

/-- The word for a severity. -/
def Severity.name : Severity → String
  | .warning => "warning"
  | .error => "error"

/-- The broad classes of diagnostics. -/
inductive Category where
  /-- A likely mistake. -/
  | lint
  /-- An extension is used in a shape that it does not support. -/
  | structuralViolation
  /-- An extension is used on something that it cannot apply to. -/
  | semanticMismatch
  /-- A fault of the library and not of its input. -/
  | engineDefect
  /-- The source cannot be read. -/
  | syntaxError
  deriving DecidableEq, Repr, Inhabited

/-- The name of a category. -/
def Category.name : Category → String
  | .lint => "Lint"
  | .structuralViolation => "StructuralViolation"
  | .semanticMismatch => "SemanticMismatch"
  | .engineDefect => "EngineDefect"
  | .syntaxError => "Syntax"

/-- What a diagnostic is about. -/
inductive Diagnostic.Code where
  /-- A loose statement stands after a member. -/
  | misplacedInitializer
  /-- A loose statement reads a property that is not assigned yet. -/
  | initializerReadsProperty
  /-- A singleton takes constructor parameters. -/
  | singletonParameters
  /-- The constructor of a singleton is not private. -/
  | singletonAccessibility
  /-- A singleton has several constructors. -/
  | singletonConstructorCount
  /-- A singleton declares the name of its accessor. -/
  | singletonMemberConflict
  /-- A shorthand property has the name of a declared member. -/
  | shorthandConflict
  /-- The type of an asserted parameter cannot be null. -/
  | nullAssertionInadmissible
  /-- A method with an asserted parameter has no body. -/
  | nullAssertionWithoutBody
  /-- An asserted parameter is an output. -/
  | nullAssertionOnOutput
  /-- A feature has no rule. -/
  | unorderedFeature
  /-- The source cannot be read. -/
  | syntaxError
  deriving DecidableEq, Repr, Inhabited

namespace Diagnostic.Code

/-- The codes in increasing order. -/
def all : List Code :=
  [.misplacedInitializer, .initializerReadsProperty, .singletonParameters, .singletonAccessibility,
   .singletonConstructorCount, .singletonMemberConflict, .shorthandConflict,
   .nullAssertionInadmissible, .nullAssertionWithoutBody, .nullAssertionOnOutput,
   .unorderedFeature, .syntaxError]

/-- The code as it is shown. -/
def text : Code → String
  | .misplacedInitializer => "SS0001"
  | .initializerReadsProperty => "SS0002"
  | .singletonParameters => "SS0101"
  | .singletonAccessibility => "SS0102"
  | .singletonConstructorCount => "SS0103"
  | .singletonMemberConflict => "SS0104"
  | .shorthandConflict => "SS0105"
  | .nullAssertionInadmissible => "SS0201"
  | .nullAssertionWithoutBody => "SS0202"
  | .nullAssertionOnOutput => "SS0203"
  | .unorderedFeature => "SS0900"
  | .syntaxError => "SS1000"

/-- The name of what the code stands for. -/
def name : Code → String
  | .misplacedInitializer => "MisplacedInitializer"
  | .initializerReadsProperty => "InitializerReadsProperty"
  | .singletonParameters => "SingletonParameters"
  | .singletonAccessibility => "SingletonAccessibility"
  | .singletonConstructorCount => "SingletonConstructorCount"
  | .singletonMemberConflict => "SingletonMemberConflict"
  | .shorthandConflict => "ShorthandConflict"
  | .nullAssertionInadmissible => "NullAssertionInadmissible"
  | .nullAssertionWithoutBody => "NullAssertionWithoutBody"
  | .nullAssertionOnOutput => "NullAssertionOnOutput"
  | .unorderedFeature => "UnorderedFeature"
  | .syntaxError => "Syntax"

/-- The code that is shown like this. -/
def ofText? (s : String) : Option Code :=
  all.find? fun c => c.text == s

/-- The category of a code. -/
def category : Code → Category
  | .misplacedInitializer | .initializerReadsProperty => .lint
  | .singletonParameters | .singletonAccessibility | .singletonConstructorCount
  | .singletonMemberConflict | .shorthandConflict | .nullAssertionWithoutBody =>
    .structuralViolation
  | .nullAssertionInadmissible | .nullAssertionOnOutput => .semanticMismatch
  | .unorderedFeature => .engineDefect
  | .syntaxError => .syntaxError

/-- How serious a diagnostic with this code is: only lints are warnings. -/
def severity (c : Code) : Severity :=
  match c.category with
  | .lint => .warning
  | _ => .error

end Diagnostic.Code

/-- Something to say about a declaration. -/
structure Diagnostic where
  span : Span
  code : Diagnostic.Code
  message : String
  /-- The declaration that it is about. -/
  declaration : Option String
  deriving DecidableEq, Repr, Inhabited

namespace Diagnostic

/-- How serious the diagnostic is. -/
def severity (d : Diagnostic) : Severity :=
  d.code.severity

/-- Whether the diagnostic is an error. -/
def isError (d : Diagnostic) : Bool :=
  d.severity == .error

/-- The diagnostic on one line. -/
def describe (d : Diagnostic) : String :=
  d.severity.name ++ "[" ++ d.code.text ++ "]: " ++ d.message

end Diagnostic

end ClassSugar
