import ClassSugar.Grammar.Parameter
import ClassSugar.Grammar.Statement

/-!
# Reading members

A member is a constructor, a method, a property or a field; anything else that is no nested class is
kept as written. `member` commits to nothing: where it fails, or finds a member of another shape,
the caller takes the tokens again as they stand.

Before that, a body item has to be told apart from a loose statement (`isStatementStart`) and from a
nested class (`isDeclarationStart`). Both are decided by looking ahead.
-/

namespace ClassSugar.Grammar

open Reader

/-! ### Words -/

/-- The modifiers of members. None of them can start a statement. -/
def memberModifiers : List String :=
  ["public", "private", "protected", "internal", "static", "readonly", "const", "virtual",
   "override", "abstract", "sealed", "async", "extern", "unsafe", "volatile", "partial",
   "required", "file"]

/-- The first words of members kept as written. -/
def rawMemberWords : List String :=
  ["event", "delegate", "enum", "interface", "struct", "implicit", "explicit"]

/-- Words that start a statement wherever they stand in a class body. -/
def statementWords : List String :=
  ["if", "for", "foreach", "while", "do", "switch", "throw", "return", "var", "try", "lock",
   "yield", "await", "checked", "unchecked", "goto", "break", "continue", "base", "this",
   "using", "fixed", "typeof", "nameof", "default", "new"]

/-- The modifiers of class declarations. -/
def declarationModifiers : List String :=
  ["public", "private", "protected", "internal", "abstract", "sealed", "static", "partial",
   "unsafe", "new", "file"]

/-- The words for accessibility. -/
def accessWords : List String :=
  ["public", "private", "protected", "internal"]

/-! ### What starts here -/

/-- The tokens after the bracket groups at the start, if all of these are closed. -/
def afterAttributes? (ts : List Token) : Option (List Token) :=
  if Lookahead.atPunct "[" ts then
    match Lookahead.skipGroup ts with
    | some group => afterAttributes? group.rest
    | none => none
  else
    some ts
termination_by ts.length
decreasing_by exact group.shorter

/-- Whether modifiers and then the keyword of a class declaration start here. -/
def startsDeclarationWords (ext : Extensions) : List Token → Bool
  | [] => false
  | t :: r =>
    match t.ident? with
    | none => false
    | some word =>
      if word == "class" then true
      else if word == "record" then !Lookahead.atWord "struct" r
      else if word == "data" then Lookahead.atWord "class" r
      else if (word == "singleton" && ext.singleton) || declarationModifiers.contains word then
        startsDeclarationWords ext r
      else false

/-- Whether a class declaration starts here, in either grammar. -/
def isDeclarationStart (ext : Extensions) (ts : List Token) : Bool :=
  match afterAttributes? ts with
  | some r => startsDeclarationWords ext r
  | none => false

/-- Whether a type and then the name of a member start here. -/
def startsSignature (ts : List Token) : Bool :=
  match Lookahead.typeRest ts with
  | some type =>
    Lookahead.startsWith (fun t => t.ident?.any fun w => w != "is" && w != "as") type.rest
  | none => false

/-- Whether a constructor, and not a call, follows the parameter list that starts here. -/
def startsConstructor (ts : List Token) : Bool :=
  match Lookahead.skipGroup ts with
  | some group =>
    Lookahead.atPunct "\x7b" group.rest || Lookahead.atPunct ":" group.rest ||
      Lookahead.atPunct "=>" group.rest
  | none => false

/-- Whether the item of a class body that starts here is a loose statement. -/
def isStatementStart (ext : Extensions) (className : String) (ts : List Token) : Bool :=
  match ts with
  | [] => true
  | t :: r =>
    match t.ident? with
    | none => !t.isPunct "[" && !t.isPunct "~" && !startsSignature ts
    | some word =>
      if memberModifiers.contains word || rawMemberWords.contains word then
        false
      else if word == "new" then
        -- `new` hides an inherited member only if another modifier follows.
        !Lookahead.startsWith (fun u => u.ident?.any memberModifiers.contains) r
      else if statementWords.contains word then
        true
      else if isDeclarationStart ext ts then
        false
      else if word == className && Lookahead.atPunct "(" r then
        !startsConstructor r
      else
        !startsSignature ts

/-! ### Parts of members -/

/-- The number of modifiers of a member ahead. `new` counts if another word follows. -/
def modifierCount : List Token → Nat
  | [] => 0
  | t :: r =>
    match t.ident? with
    | some word =>
      if memberModifiers.contains word || (word == "new" && Lookahead.atIdent r) then
        modifierCount r + 1
      else
        0
    | none => 0

/-- An expression up to its semicolon, which is taken too. -/
def expression : Reader Verbatim := do
  let ts ← takeUntil false (·.isPunct ";")
  if ts.isEmpty then
    expected .expression
  else
    skip
    return Verbatim.ofTokens ts

/-- The accessors between the braces of a property, if none has a body or a comment before it.
`modifiers` are those of the next accessor, as far as they are read. -/
def accessors? (modifiers : List String) : List Token → Option (List Accessor)
  | [] => if modifiers.isEmpty then some [] else none
  | t :: r =>
    if t.ident?.any accessWords.contains then
      accessors? (modifiers ++ [t.text]) r
    else
      match r with
      | [] => none
      | u :: r =>
        if t.ident?.any ["get", "set", "init"].contains && u.isPunct ";" && t.leading.isEmpty then
          (accessors? [] r).map (⟨modifiers, t.text⟩ :: ·)
        else
          none

/-- The body of a property that a group in braces is. -/
def propertyBodyOf (group : List Token) : PropertyBody :=
  match accessors? [] (group.drop 1).dropLast, group.getLast? with
  | some (a :: as), some closing =>
    if closing.leading.isEmpty then .auto (a :: as) else .raw (Verbatim.ofTokens group)
  | _, _ => .raw (Verbatim.ofTokens group)

/-- The body of a property in braces. -/
def propertyBody : Reader PropertyBody := do
  match ← takeGroup? with
  | some group => return propertyBodyOf group
  | none => expected (.text "\x7d")

/-- The call of another constructor in front of a constructor's body, if there is one. -/
def constructorCall : Reader (Option String) := do
  if ← eatPunct ":" then
    let keyword ← expectIdent
    if keyword != "base" && keyword != "this" then
      expected .baseOrThis
    else if ← atPunct "(" then
      match ← takeGroup? with
      | some group => return some (keyword ++ "(" ++ Token.spell (group.drop 1).dropLast ++ ")")
      | none => expected (.text "(")
    else
      expected (.text "(")
  else
    return none

/-- The body of a method. -/
def methodBody : Reader MethodBody := do
  if ← atPunct "\x7b" then
    return .block (← block)
  else if ← eatPunct "=>" then
    return .expression (← expression)
  else
    expectPunct ";"
    return .absent

/-- The initializer of a field, up to its semicolon. -/
def fieldInitializer : Reader (Option Verbatim) := do
  if ← eatPunct "=" then
    return some (← expression)
  else
    expectPunct ";"
    return none

/-- One more part of a name after a dot, if one is ahead. -/
def namePart : Reader (List Token × Bool) := do
  let ts ← ahead
  if Lookahead.atPunct "." ts && Lookahead.atIdent (ts.drop 1) then
    return (← take 2, true)
  else
    return ([], false)

/-- The name of a member, with the interface that it belongs to. -/
def memberName : Reader String := do
  let start ← position
  let _ ← expectIdent
  let _ ← rounds namePart
  return Token.join (← since start)

/-! ### Members -/

/-- What precedes the proper part of a member. -/
structure MemberStart where
  /-- Where the member starts. -/
  position : Nat
  attributes : List String
  modifiers : List String

/-- A constructor, from its name on; none if it has no body. -/
def constructor (ext : Extensions) (start : MemberStart) : Reader (Option Member) := do
  let name ← expectIdent
  let params ← parameters ext
  let initializer ← constructorCall
  let build := fun (body : Block) => do
    return some (.constructor {
      attributes := start.attributes
      modifiers := start.modifiers
      name := name
      params := params
      initializer := initializer
      body := body
      span := Token.spanOf (← since start.position) })
  if ← atPunct "\x7b" then
    build (← block)
  else if ← eatPunct "=>" then
    build ⟨[.expr (← expression)]⟩
  else
    return none

/-- A method, from its type parameters on. -/
def method (ext : Extensions) (start : MemberStart) (returnType : TypeName) (name : String) :
    Reader Member := do
  let types ← typeParams
  let params ← parameters ext
  let clauses ← constraints fun t => t.isPunct "\x7b" || t.isPunct "=>" || t.isPunct ";"
  let body ← methodBody
  return .method {
    attributes := start.attributes
    modifiers := start.modifiers
    returnType := returnType
    name := name
    typeParams := types
    params := params
    constraints := clauses
    body := body
    span := Token.spanOf (← since start.position) }

/-- A property with a body, from that body on. -/
def property (start : MemberStart) (ty : TypeName) (name : String) (body : PropertyBody)
    (initializer : Option Verbatim) : Reader Member := do
  return .property {
    attributes := start.attributes
    modifiers := start.modifiers
    ty := ty
    name := name
    body := body
    initializer := initializer
    span := Token.spanOf (← since start.position) }

/-- A member after its type and name: what follows decides what it is. -/
def typedMember (ext : Extensions) (start : MemberStart) (ty : TypeName) (name : String) :
    Reader Member := do
  let ts ← ahead
  if Lookahead.atPunct "(" ts || Lookahead.atPunct "<" ts then
    method ext start ty name
  else if Lookahead.atPunct "\x7b" ts then
    let body ← propertyBody
    let initializer ← if ← eatPunct "=" then some <$> expression else pure none
    property start ty name body initializer
  else if ← eatPunct "=>" then
    property start ty name (.expression (← expression)) none
  else
    let initializer ← fieldInitializer
    return .field {
      attributes := start.attributes
      modifiers := start.modifiers
      ty := ty
      name := name
      initializer := initializer
      span := Token.spanOf (← since start.position) }

/-- A member; none if it has another shape. -/
def member (ext : Extensions) (className : String) : Reader (Option Member) := do
  let position ← position
  let attributes ← attributes
  let modifiers := (← take (modifierCount (← ahead))).map Token.text
  let start : MemberStart := ⟨position, attributes, modifiers⟩
  let ts ← ahead
  if Lookahead.atPunct "~" ts ||
      Lookahead.startsWith (fun t => t.ident?.any rawMemberWords.contains) ts then
    return none
  else if Lookahead.atWord className ts && Lookahead.atPunct "(" (ts.drop 1) then
    constructor ext start
  else
    let ty ← typeName
    let ts ← ahead
    if Lookahead.atWord "operator" ts || Lookahead.atWord "this" ts then
      return none
    else
      let name ← memberName
      some <$> typedMember ext start ty name

end ClassSugar.Grammar
