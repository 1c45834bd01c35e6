import ClassSugar.Desugar.Context
import ClassSugar.Desugar.Plan
import ClassSugar.Desugar.Renaming

/-!
# Rules

For each feature there is one rule, which fills the slots of the feature in a plan. A plan is made
by a list of rules: those whose features were recognized are applied in order, and a feature without
a rule is refused.
-/

namespace ClassSugar

namespace Context

/-! ### Singletons -/

/-- The type of the field that holds the instance of a singleton. -/
def lazyType (c : Context) : String :=
  c.system "Lazy" ++ "<" ++ c.declaration.selfType ++ ">"

/-- The field that holds the instance of a singleton. -/
def holder (c : Context) : Field where
  attributes := []
  modifiers := ["private", "static", "readonly"]
  ty := ⟨c.lazyType⟩
  name := c.declaration.holderName
  initializer := some (.made
    ("new " ++ c.lazyType ++ "(() => new " ++ c.declaration.selfType ++ "(), true)"))
  span := .nowhere

/-- The property through which the instance of a singleton is reached. -/
def accessor (c : Context) : Property where
  attributes := []
  modifiers := ["public", "static"]
  ty := ⟨c.declaration.selfType⟩
  name := Declaration.instanceName
  body := .expression (.made (c.declaration.holderName ++ ".Value"))
  initializer := none
  span := .nowhere

/-- The statement that checks that a singleton is constructed once. -/
def singletonGuard (c : Context) : Statement :=
  .throwIf (c.declaration.holderName ++ ".IsValueCreated") (c.system "InvalidOperationException")
    ["\"Singleton classes can only have one instance.\""]

/-! ### Null assertions and the unnamed initializer -/

/-- The checks for the asserted parameters of one body. -/
def nullGuards (c : Context) (site : NullSite) : List Statement :=
  let names := c.namesOf site.owner
  site.params.map fun i => c.nullGuard (names.getD i "")

/-- An item of the unnamed initializer as a statement. -/
def initializerStatement? : BodyItem → Option Statement
  | .statement code => some (.source code)
  | .comment text => some (.comment text)
  | .member _ => none

/-- The statements of the unnamed initializer. -/
def initializerStatements (c : Context) : List Statement :=
  (c.declaration.body.take c.recognition.initializerEnd).filterMap initializerStatement?

/-! ### Shorthand properties -/

/-- The second accessor of a property that a parameter declares: a record's is set only during
construction. -/
def setter (c : Context) : Accessor :=
  ⟨[], match c.declaration.kind with
    | .record => "init"
    | .plain | .data => "set"⟩

/-- The property that a parameter declares. -/
def shorthandProperty (c : Context) (p : Parameter) : Property where
  attributes := []
  modifiers := ["public"]
  ty := p.ty
  name := p.name
  body := .auto [⟨[], "get"⟩, c.setter]
  initializer := none
  span := p.span

/-- The primary parameters that declare properties, with their names in the constructor. -/
def shorthandParams (c : Context) : List (Parameter × String) :=
  let names := c.paramNames
  c.recognition.shorthand.filterMap fun i =>
    c.declaration.primaryParams[i]?.map fun p => (p, names.getD i "")

/-! ### The implied constructor -/

/-- The accessibility of a new constructor. -/
def defaultAccess (c : Context) : String :=
  if c.recognition.features.singletonMarker then "private" else "public"

/-- The primary parameters that have another name in the constructor, with that name. -/
def renamedParams (c : Context) : List (String × String) :=
  ((c.declaration.primaryParams.map Parameter.name).zip c.paramNames).filter fun (old, new) =>
    old != new

/-- Code of the header as it reads in the constructor. -/
def renamed (c : Context) (text : String) : String :=
  c.renamedParams.foldl (fun text (old, new) => Renaming.apply (Renaming.single old new) text) text

/-- The call of the base constructor: the last base with arguments decides. -/
def baseCall (c : Context) : Option String :=
  (c.declaration.bases.filterMap BaseEntry.args).getLast?.map fun args =>
    "base(" ++ c.renamed args ++ ")"

/-- The name and the initializer of a member that is initialized for each instance. -/
def instanceInitializer? : Member → Option (String × Verbatim)
  | .field f => initialized? f.modifiers f.name f.initializer
  | .property p => initialized? p.modifiers p.name p.initializer
  | _ => none
where
  /-- A member that is not shared by all instances, and its initializer. -/
  initialized? (modifiers : List String) (name : String) (initializer : Option Verbatim) :
      Option (String × Verbatim) :=
    if modifiers.any fun m => m == "static" || m == "const" then none
    else initializer.map (name, ·)

/-- The name and the initializer of a member whose initializer reads a primary parameter. -/
def movedInitializer? (c : Context) (item : BodyItem) : Option (String × Verbatim) :=
  (item.member?.bind instanceInitializer?).filter fun (_, value) =>
    c.declaration.primaryParams.any fun p => value.mentions p.name

/-- The members whose initializers move into the constructor: position, name and initializer. -/
def movedMembers (c : Context) : List (Nat × String × Verbatim) :=
  c.declaration.body.zipIdx.filterMap fun (item, i) => (c.movedInitializer? item).map (i, ·)

/-- The assignment that a moved initializer becomes. The member is named through `this` if one of
the constructor parameters `params` has its name. -/
def movedAssignment (params : List String) (name : String) (value : Verbatim) : Statement :=
  let target := if params.contains name then "this." ++ name else name
  .source { value with text := target ++ " = " ++ value.text ++ ";" }

/-- The assignments that the moved initializers become. -/
def movedAssignments (c : Context) : List Statement :=
  let params := c.paramNames
  c.movedMembers.map fun (_, name, value) => movedAssignment params name value

end Context

/-- Whether a statement of the source mentions a name. -/
def Statement.mentions (name : String) : Statement → Bool
  | .source code => code.mentions name
  | .ret value => value.mentions name
  | .expr value => value.mentions name
  | _ => false

/-- Whether the code of a member reads a name of the declaration. Constructors and nested types do
not see primary parameters. -/
def Member.reads (name : String) : Member → Bool
  | .field f => f.initializer.any (·.mentions name)
  | .property p =>
    p.initializer.any (·.mentions name) ||
      match p.body with
      | .auto _ => false
      | .expression value => value.mentions name
      | .raw code => code.mentions name
  | .method m =>
    match m.body with
    | .block body => body.stmts.any (Statement.mentions name)
    | .expression value => value.mentions name
    | .absent => false
  | .raw code => code.mentions name
  | .constructor _ => false
  | .type _ => false

namespace Context

/-- The members whose initializers do not move into the constructor. -/
def stayingMembers (c : Context) : List Member :=
  (c.declaration.body.filter fun item => (c.movedInitializer? item).isNone).filterMap
    BodyItem.member?

/-- The primary parameters that have to be kept in fields, with their names in the constructor:
those that a member still reads once the moved initializers are gone. -/
def captured (c : Context) : List (Parameter × String) :=
  let names := c.paramNames
  let readers := c.stayingMembers
  c.declaration.primaryParams.zipIdx.filterMap fun (p, i) =>
    if !c.recognition.shorthand.contains i && !c.declaration.declaresMember p.name &&
        readers.any (Member.reads p.name) then
      some (p, names.getD i "")
    else
      none

/-- The field that keeps a parameter. -/
def captureField (p : Parameter) : Field where
  attributes := []
  modifiers := ["private", "readonly"]
  ty := p.ty
  name := p.name
  initializer := none
  span := p.span

/-- What takes the place of a header that implies a constructor. -/
def primaryPlan (c : Context) : PrimaryPlan :=
  let captured := c.captured
  { access := c.declaration.constructorAccess.getD c.defaultAccess
    baseCall := c.baseCall
    bases := c.declaration.bases.map fun b => { b with args := none }
    captures := captured.map fun (p, _) => captureField p
    captureAssignments := captured.map fun (p, name) => .assign ("this." ++ p.name) name
    moved := c.movedMembers.map Prod.fst
    movedAssignments := c.movedAssignments }

/-! ### Making a plan -/

/-- The rule of a feature. -/
def applyRule (c : Context) (p : Plan) : Feature → Plan
  | .singletonMarker => { p with
      holder := some c.holder
      accessor := some c.accessor
      singletonGuards := c.constructionTargets.map fun t => (t, c.singletonGuard) }
  | .nullAssertion => { p with
      nullGuards := c.recognition.nullChecks.map fun site => (site.owner, c.nullGuards site)
      stripNullMarkers := true }
  | .unnamedInitializer => { p with
      initializer := c.constructionTargets.map fun t => (t, c.initializerStatements)
      consumed := c.recognition.initializerEnd }
  | .propertyShorthand =>
    let params := c.shorthandParams
    { p with
      properties := p.properties ++ params.map fun (p, _) => c.shorthandProperty p
      propertyAssignments := p.propertyAssignments ++
        params.map fun (p, name) => .assign p.name name }
  | .primaryConstructor => { p with primary := some c.primaryPlan }

/-- The first recognized feature for which there is no rule. -/
def missingRule? (c : Context) (rules : List Feature) : Option Feature :=
  c.recognition.features.toList.find? fun f => !rules.contains f

/-- The plan that rules make. -/
def plan (c : Context) (rules : List Feature) : Except Refusal Plan :=
  match c.missingRule? rules with
  | some f => .error ⟨.missingRule f, c.declaration.span⟩
  | none => .ok ((rules.filter c.recognition.features.contains).foldl c.applyRule {})

end Context

end ClassSugar
