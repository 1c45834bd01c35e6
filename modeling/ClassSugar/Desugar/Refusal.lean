import ClassSugar.Diagnostic
import ClassSugar.Extension

/-!
# Why a declaration is left as written

An extension may be used in a way that has no counterpart in plain C#. The declaration then keeps
its text, and the first such use in it is reported. A refusal records its cause and where it was
found; code, category and wording follow from the cause.
-/

namespace ClassSugar

/-- What stands in the way of desugaring a declaration. -/
inductive Refusal.Cause where
  /-- A capitalized parameter has the name of a declared member. -/
  | shorthandConflict (param : String)
  /-- The header of a singleton lists parameters. -/
  | singletonParameters (declaration : String)
  /-- The header of a singleton asks for a constructor that is not private. -/
  | singletonAccess (declaration access : String)
  /-- A singleton has more than one constructor. -/
  | singletonConstructors (declaration : String) (count : Nat)
  /-- The constructor of a singleton has parameters. -/
  | constructorParameters (declaration : String)
  /-- The constructor of a singleton is not private. -/
  | constructorAccess (declaration : String)
  /-- A singleton declares the name of its accessor. -/
  | singletonInstance (declaration : String)
  /-- An output parameter is asserted not to be null. -/
  | assertionOnOutput (param : String)
  /-- A parameter is asserted not to be null whose type does not admit `null`. -/
  | assertionInadmissible (param type : String)
  /-- A method without a body asserts that a parameter is not null. -/
  | assertionWithoutBody (param method : String)
  /-- A feature is used for which there is no rule. -/
  | missingRule (feature : Feature)
  deriving DecidableEq, Repr, Inhabited

namespace Refusal.Cause

/-- The code under which a cause is reported. -/
def code : Cause → Diagnostic.Code
  | .shorthandConflict _ => .shorthandConflict
  | .singletonParameters _ => .singletonParameters
  | .singletonAccess .. => .singletonAccessibility
  | .singletonConstructors .. => .singletonConstructorCount
  | .constructorParameters _ => .singletonParameters
  | .constructorAccess _ => .singletonAccessibility
  | .singletonInstance _ => .singletonMemberConflict
  | .assertionOnOutput _ => .nullAssertionOnOutput
  | .assertionInadmissible .. => .nullAssertionInadmissible
  | .assertionWithoutBody .. => .nullAssertionWithoutBody
  | .missingRule _ => .unorderedFeature

/-- The cause in words. -/
def message : Cause → String
  | .shorthandConflict param => s!"`{param}` is both a shorthand parameter and a declared member"
  | .singletonParameters name => s!"singleton `{name}` cannot take constructor parameters"
  | .singletonAccess name access =>
    s!"the constructor of singleton `{name}` must be private, not `{access}`"
  | .singletonConstructors name count =>
    s!"singleton `{name}` declares {count} constructors; it may have at most one"
  | .constructorParameters name =>
    s!"the constructor of singleton `{name}` cannot take parameters"
  | .constructorAccess name => s!"the constructor of singleton `{name}` must be private"
  | .singletonInstance name =>
    s!"singleton `{name}` already declares a member named `Instance`"
  | .assertionOnOutput param =>
    s!"`{param}` is an `out` parameter and has no value on entry to check for null"
  | .assertionInadmissible param type =>
    s!"`{param}` has type `{type}`, which cannot be null; the null assertion could never fire"
  | .assertionWithoutBody param method =>
    s!"null assertion on `{param}` needs a body to hold the guard, but `{method}` has none"
  | .missingRule feature => s!"feature `{feature.name}` has no rewrite rule"

end Refusal.Cause

/-- Why and where a declaration cannot be desugared. -/
structure Refusal where
  cause : Refusal.Cause
  span : Span
  deriving DecidableEq, Repr, Inhabited

namespace Refusal

/-- The refusal in words. -/
def message (r : Refusal) : String :=
  r.cause.message

/-- The refusal as a diagnostic about a declaration. -/
def toDiagnostic (r : Refusal) (declaration : String) : Diagnostic :=
  ⟨r.span, r.cause.code, r.message, some declaration⟩

/-- A refusal is an error. -/
theorem isError_toDiagnostic (r : Refusal) (declaration : String) :
    (r.toDiagnostic declaration).isError = true := by
  obtain ⟨cause, span⟩ := r
  cases cause <;> rfl

end Refusal

end ClassSugar
