import ClassSugar.Desugar.Naming
import ClassSugar.Desugar.Recognition

/-!
# What a rule may look at

A rule sees the declaration, what was recognized in it, the options, and whether the file imports
the namespace `System`. From these follow the names of the constructor parameters, the spelling of
types of `System`, and the constructors through which every instance is made.
-/

namespace ClassSugar

/-- What a rule may look at. -/
structure Context where
  declaration : Declaration
  recognition : Recognition
  options : Options
  /-- Types of `System` need no qualification. -/
  importsSystem : Bool

namespace Context

/-- The primary parameters as the constructor spells them. -/
def paramNames (c : Context) : List String :=
  c.declaration.constructorParamNames c.recognition.shorthand

/-- A type of the namespace `System`. -/
def system (c : Context) (name : String) : String :=
  if c.importsSystem then name else "System." ++ name

/-- The constructors of which every construction runs exactly one: the implied one, or those that
do not call another constructor of the class, or a new one if there is none. -/
def constructionTargets (c : Context) : List Target :=
  if c.declaration.hasPrimaryConstructor then [.constructor]
  else
    match c.declaration.instanceConstructors.filter fun (_, k) => !k.chainsToThis with
    | [] => [.constructor]
    | targets => targets.map fun (i, _) => .member i

/-- The names of the parameters of a constructor or method. -/
def namesOf (c : Context) : Target → List String
  | .constructor => c.paramNames
  | .member position =>
    match c.declaration.body[position]? with
    | some (.member m) => m.params.map Parameter.name
    | _ => []

/-- The statement that checks that an argument is not null. -/
def nullGuard (c : Context) (name : String) : Statement :=
  let exception := c.system "ArgumentNullException"
  let nameOf := "nameof(" ++ name ++ ")"
  match c.options.nullGuard with
  | .throwIfNull => .call (exception ++ ".ThrowIfNull") [name, nameOf]
  | .ifThrow => .throwIf (name ++ " is null") exception [nameOf]

end Context

end ClassSugar
