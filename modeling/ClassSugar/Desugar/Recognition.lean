import ClassSugar.Desugar.Refusal
import ClassSugar.Options
import ClassSugar.Tree.Query

/-!
# Which extensions a declaration uses

Recognition looks at one declaration, nested types aside, and answers with the features it uses and
the places where it uses them: the parameters that declare properties, the loose statements that
open the body, and the parameters asserted not to be null. It refuses a declaration for the first
reason it finds, in a fixed order: a conflict of a shorthand property, a fault of a singleton, a
fault of a null assertion. Likely mistakes in the loose statements are reported, and do not refuse.

An extension that is switched off is not seen at all.
-/

namespace ClassSugar

/-! ### Places -/

/-- A body that receives statements. -/
inductive Target where
  /-- The constructor that the header implies, or a new one without parameters. -/
  | constructor
  /-- The constructor or method at a position of the body. -/
  | member (index : Nat)
  deriving DecidableEq, Repr, Inhabited

/-- The parameters of one constructor or method that are asserted not to be null. -/
structure NullSite where
  owner : Target
  /-- Their positions in the parameter list, increasing. -/
  params : List Nat
  deriving DecidableEq, Repr, Inhabited

/-- What is recognized in a declaration. -/
structure Recognition where
  features : FeatureSet
  /-- The positions of the primary parameters that declare properties, increasing. -/
  shorthand : List Nat
  /-- The number of leading body items that belong to the unnamed initializer. -/
  initializerEnd : Nat
  nullChecks : List NullSite
  diagnostics : List Diagnostic
  deriving DecidableEq, Repr, Inhabited

namespace Declaration

/-! ### Shorthand properties -/

/-- The positions of the primary parameters that are written like properties. -/
def capitalizedParams (d : Declaration) : List Nat :=
  d.primaryParams.zipIdx.filterMap fun (p, i) => if p.isCapitalized then some i else none

/-- The primary parameters at given positions. -/
def paramsAt (d : Declaration) (positions : List Nat) : List Parameter :=
  positions.filterMap (d.primaryParams[·]?)

/-- The first shorthand property that has the name of a declared member. -/
def shorthandFault? (d : Declaration) (shorthand : List Nat) : Option Refusal :=
  ((d.paramsAt shorthand).find? fun p => d.declaresMember p.name).map fun p =>
    ⟨.shorthandConflict p.name, p.span⟩

/-! ### The unnamed initializer -/

/-- The number of leading body items up to the last loose statement before every member. -/
def initializerLength (d : Declaration) : Nat :=
  ((d.body.take d.firstMemberIndex).reverse.dropWhile fun item => !item.isStatement).length

/-- The loose statements among some items of a body. -/
def looseStatements (items : List BodyItem) : List Verbatim :=
  items.filterMap fun item =>
    match item with
    | .statement code => some code
    | _ => none

/-- A loose statement of the initializer reads a property that gets its value only later. -/
def readsPropertyLint (d : Declaration) (code : Verbatim) (property : String) : Diagnostic where
  span := code.span
  code := .initializerReadsProperty
  message :=
    let parameter := Identifier.camelCase property
    s!"initializer reads `{property}` before the property is assigned; " ++
      s!"use `{parameter}` to read the parameter"
  declaration := some d.name

/-- A loose statement stands after a member. -/
def misplacedLint (d : Declaration) (code : Verbatim) : Diagnostic where
  span := code.span
  code := .misplacedInitializer
  message := "statement after the first member is not part of the unnamed initializer; " ++
    "move it above every member"
  declaration := some d.name

/-- Likely mistakes in the loose statements. -/
def initializerLints (d : Declaration) (shorthand : List Nat) (initializerEnd : Nat) :
    List Diagnostic :=
  let properties := (d.paramsAt shorthand).map Parameter.name
  (looseStatements (d.body.take initializerEnd)).flatMap (fun code =>
      (properties.filter code.mentions).map (d.readsPropertyLint code)) ++
    (looseStatements (d.body.drop d.firstMemberIndex)).map d.misplacedLint

/-! ### Singletons -/

/-- What is wrong with the constructor of a singleton. -/
def constructorFault? (d : Declaration) (c : Constructor) : Option Refusal :=
  match c.params with
  | p :: _ => some ⟨.constructorParameters d.name, p.span⟩
  | [] => if c.isPrivate then none else some ⟨.constructorAccess d.name, c.span⟩

/-- What is wrong with the constructors of a singleton: it may have one, and that one is private and
takes no parameters. A constructor implied by the header counts. -/
def constructorsFault? (d : Declaration) : Option Refusal :=
  let constructors := d.instanceConstructors.map Prod.snd
  let count := constructors.length + (if d.hasPrimaryConstructor then 1 else 0)
  if 1 < count then
    some ⟨.singletonConstructors d.name count, (constructors.getLast?.map (·.span)).getD d.span⟩
  else
    constructors.head?.bind d.constructorFault?

/-- What is wrong with the header of a singleton. -/
def singletonHeaderFault? (d : Declaration) : Option Refusal :=
  match d.primaryParams, d.constructorAccess with
  | p :: _, _ => some ⟨.singletonParameters d.name, p.span⟩
  | [], some access =>
    if access = "private" then none else some ⟨.singletonAccess d.name access, d.span⟩
  | [], none => none

/-- The name of the property through which the instance of a singleton is reached. -/
def instanceName : String :=
  "Instance"

/-- What is wrong with a singleton. -/
def singletonFault? (d : Declaration) : Option Refusal :=
  d.singletonHeaderFault? <|> d.constructorsFault? <|>
    if d.declaresMember instanceName then some ⟨.singletonInstance d.name, d.span⟩ else none

end Declaration

/-! ### Null assertions -/

/-- What is wrong with the null assertion on a parameter, if there is one. -/
def Parameter.assertionFault? (nullableContext : Bool) (p : Parameter) : Option Refusal :=
  if p.nullAssertion.isNone then none
  else if p.modifiers.contains "out" then some ⟨.assertionOnOutput p.name, p.span⟩
  else if !p.ty.admitsAbsent nullableContext then
    some ⟨.assertionInadmissible p.name p.ty.text, p.span⟩
  else none

/-- The positions of the parameters that are asserted not to be null. -/
def Parameter.asserted (params : List Parameter) : List Nat :=
  params.zipIdx.filterMap fun (p, i) => if p.nullAssertion.isSome then some i else none

/-- What is wrong with the null assertions on the parameters of a member. -/
def Member.assertionFault? (nullableContext : Bool) (m : Member) : Option Refusal :=
  m.params.findSome? (Parameter.assertionFault? nullableContext) <|>
    match m with
    | .method m =>
      if m.body = .absent then
        (m.params.find? (·.nullAssertion.isSome)).map fun p =>
          ⟨.assertionWithoutBody p.name m.name, p.span⟩
      else
        none
    | _ => none

namespace Declaration

/-- What is wrong with the null assertions of a declaration: those of the header come first, then
those of each member. -/
def assertionFault? (d : Declaration) (nullableContext : Bool) : Option Refusal :=
  d.primaryParams.findSome? (Parameter.assertionFault? nullableContext) <|>
    d.members.findSome? (Member.assertionFault? nullableContext)

/-- The bodies with parameters, in order: the implied constructor and the members. -/
def paramOwners (d : Declaration) : List (Target × List Parameter) :=
  (.constructor, d.primaryParams) ::
    d.body.zipIdx.filterMap fun (item, i) => item.member?.map fun m => (.member i, m.params)

/-- The bodies with parameters that are asserted not to be null. -/
def nullSites (d : Declaration) : List NullSite :=
  d.paramOwners.filterMap fun (owner, params) =>
    let asserted := Parameter.asserted params
    if asserted.isEmpty then none else some ⟨owner, asserted⟩

/-! ### Recognition -/

/-- The first reason to refuse a declaration. -/
def fault? (d : Declaration) (o : Options) : Option Refusal :=
  let extensions := o.extensions
  (if extensions.propertyShorthand then d.shorthandFault? d.capitalizedParams else none) <|>
    (if extensions.singleton && d.singleton then d.singletonFault? else none) <|>
    (if extensions.nullAssertion then d.assertionFault? o.nullableContext else none)

/-- The features of a declaration and the places where it uses them. -/
def recognition (d : Declaration) (o : Options) : Recognition :=
  let extensions := o.extensions
  let shorthand := if extensions.propertyShorthand then d.capitalizedParams else []
  let initializerEnd := if extensions.unnamedInitializer then d.initializerLength else 0
  let nullChecks := if extensions.nullAssertion then d.nullSites else []
  { features := {
      singletonMarker := extensions.singleton && d.singleton
      nullAssertion := !nullChecks.isEmpty
      unnamedInitializer := decide (0 < initializerEnd)
      propertyShorthand := !shorthand.isEmpty
      primaryConstructor := d.hasPrimaryConstructor }
    shorthand
    initializerEnd
    nullChecks
    diagnostics :=
      if extensions.unnamedInitializer then d.initializerLints shorthand initializerEnd else [] }

/-- The features of a declaration and the places where it uses them, or the first reason to refuse
it. -/
def recognize (d : Declaration) (o : Options) : Except Refusal Recognition :=
  match d.fault? o with
  | some refusal => .error refusal
  | none => .ok (d.recognition o)

end Declaration

end ClassSugar
