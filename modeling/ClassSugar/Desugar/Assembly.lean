import ClassSugar.Desugar.Rule

/-!
# Carrying out a plan

A plan is carried out in one step, which alone decides the order of what it says.

* The body has the holder of a singleton, the captured parameters, the shorthand properties, the new
  constructor, what the body had before, and the accessor of a singleton.
* The new constructor has the statements that open it, the assignments of properties, the moved
  initializers and the captures.
* The header loses everything that belongs to an extension.
-/

namespace ClassSugar

namespace Plan

/-- A parameter without its null assertion, if assertions are taken out. -/
def stripped (p : Plan) (param : Parameter) : Parameter :=
  if p.stripNullMarkers then { param with nullAssertion := none } else param

/-! ### The new constructor -/

/-- The parameters of the new constructor. -/
def constructorParams (p : Plan) (c : Context) : List Parameter :=
  (c.declaration.primaryParams.zip c.paramNames).map fun (param, name) =>
    { p.stripped param with name }

/-- The statements of the new constructor. -/
def constructorBody (p : Plan) : List Statement :=
  p.opening .constructor ++ p.propertyAssignments ++
    match p.primary with
    | some primary => primary.movedAssignments ++ primary.captureAssignments
    | none => []

/-- Whether a constructor is added: the header implies one, or there are statements that no other
constructor takes. -/
def addsConstructor (p : Plan) : Bool :=
  p.primary.isSome || !(p.opening .constructor).isEmpty

/-- The new constructor. -/
def newConstructor (p : Plan) (c : Context) : Constructor where
  attributes := []
  modifiers := Text.words ((p.primary.map PrimaryPlan.access).getD c.defaultAccess)
  name := c.declaration.name
  params := p.constructorParams c
  initializer := p.primary.bind PrimaryPlan.baseCall
  body := ⟨p.constructorBody⟩
  span := .nowhere

/-! ### Members -/

/-- A method body that starts with the checks of arguments. An expression body becomes a block. -/
def guardedBody (p : Plan) (position : Nat) (m : Method) : MethodBody :=
  match p.nullGuards.lookup (.member position) with
  | none => m.body
  | some guards =>
    match m.body with
    | .block body => .block ⟨guards ++ body.stmts⟩
    | .expression value =>
      .block ⟨guards ++ [if m.returnsNothing then .expr value else .ret value]⟩
    | .absent => .absent

/-- A member of the body as the plan leaves it. For a nested type, `nested` takes its place. -/
def patchMember (p : Plan) (position : Nat) (nested : Option Member) (m : Member) : Member :=
  match m with
  | .type _ => nested.getD m
  | .constructor c => .constructor { c with
      params := c.params.map p.stripped
      body := ⟨p.opening (.member position) ++ c.body.stmts⟩ }
  | .method m => .method { m with
      params := m.params.map p.stripped
      body := p.guardedBody position m }
  | .field f => if p.isMoved position then .field { f with initializer := none } else m
  | .property q => if p.isMoved position then .property { q with initializer := none } else m
  | .raw _ => m

/-- An item of the body as the plan leaves it. -/
def patchItem (p : Plan) (position : Nat) (nested : Option Member) : BodyItem → BodyItem
  | .member m => .member (p.patchMember position nested m)
  | .statement code => .statement code
  | .comment text => .comment text

/-- What remains of the body. `nested` has, for each of its items, what takes the place of a nested
type. -/
def remainingBody (p : Plan) (body : List BodyItem) (nested : List (Option Member)) :
    List BodyItem :=
  (body.zipIdx.drop p.consumed).map fun (item, i) => p.patchItem i (nested.getD i none) item

/-! ### The declaration -/

/-- The body of the declaration. -/
def assembleBody (p : Plan) (c : Context) (nested : List (Option Member)) : List BodyItem :=
  p.holder.toList.map (fun f => .member (.field f)) ++
    ((p.primary.map PrimaryPlan.captures).getD []).map (fun f => .member (.field f)) ++
    p.properties.map (fun q => .member (.property q)) ++
    (if p.addsConstructor then [.member (.constructor (p.newConstructor c))] else []) ++
    p.remainingBody c.declaration.body nested ++
    p.accessor.toList.map (fun q => .member (.property q))

/-- The declaration as the plan leaves it. `nested` has, for each item of its body, what takes the
place of a nested type. -/
def assemble (p : Plan) (c : Context) (nested : List (Option Member)) : Declaration where
  toHeader := { c.declaration.toHeader with
    kind := c.declaration.loweredKind
    singleton := false
    params := none
    constructorAccess := none
    bases := (p.primary.map PrimaryPlan.bases).getD c.declaration.bases }
  body := p.assembleBody c nested

end Plan

end ClassSugar
