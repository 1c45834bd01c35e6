import ClassSugar.Grammar.Member

/-!
# Reading class declarations

A declaration is a header and a body. Its body may hold further declarations, so the reader is tied
back to itself through `Reader.nested`.
-/

namespace ClassSugar.Grammar

open Reader

/-! ### The base list -/

/-- An entry of the list after the colon of a header. -/
inductive HeaderEntry where
  /-- An access clause such as `public()`. -/
  | access (words : String)
  /-- A base type. -/
  | base (entry : BaseEntry)

/-- Splits an entry that ends with arguments into what stands before their opening parenthesis, that
parenthesis, and the arguments. -/
def splitArguments : List Token → Option (List Token × Token × List Token)
  | [] => none
  | t :: r =>
    if t.isPunct "(" && (Lookahead.skipGroup (t :: r)).any (·.rest.isEmpty) then
      some ([], t, r.dropLast)
    else
      (splitArguments r).map fun (before, opening, args) => (t :: before, opening, args)

/-- Whether tokens are words for accessibility, and at least one. -/
def isAccessClause (ts : List Token) : Bool :=
  !ts.isEmpty && ts.all fun t => t.ident?.any accessWords.contains

/-- The entry that the tokens up to the next comma are. -/
def headerEntryOf (ts : List Token) : Except SyntaxError HeaderEntry :=
  let arguments := if (ts.getLast?.any (·.isPunct ")")) then splitArguments ts else none
  match arguments with
  | none => .ok (.base ⟨Token.join ts, none⟩)
  | some (before, _, args) =>
    if isAccessClause before then
      if args.isEmpty then
        .ok (.access (Token.join before))
      else
        .error ⟨.accessArguments, Token.spanOf (ts.drop before.length)⟩
    else
      .ok (.base ⟨Token.join before, some (Token.spell args)⟩)

/-- One entry of the list after the colon, and whether another follows. -/
def headerEntry : Reader (List HeaderEntry × Bool) := do
  let ts ← takeUntil true fun t =>
    t.isPunct "," || t.isPunct "\x7b" || t.isPunct ";" || t.isIdent "where"
  if ts.isEmpty then
    expected .baseType
  else
    match headerEntryOf ts with
    | .error e => throw e
    | .ok entry =>
      let more ← eatPunct ","
      return ([entry], more)

/-- The entries after the colon of a header, if there is a colon. -/
def headerEntries : Reader (List HeaderEntry) := do
  if ← eatPunct ":" then rounds headerEntry else return []

/-! ### The body -/

/-- An item of a class body, with a reader for nested declarations. -/
def bodyItem (ext : Extensions) (nestedType : Reader Declaration) (className : String) :
    Reader BodyItem := do
  let ts ← ahead
  if isStatementStart ext className ts then
    return .statement (← statement)
  else if isDeclarationStart ext ts then
    return .member (.type (← nestedType))
  else
    match ← attempt (member ext className) with
    | some m => return .member m
    | none => return .member (.raw (← rawItem))

/-- One round of a class body: comments, and then its end, an empty item or an item. -/
def bodyRound (ext : Extensions) (nestedType : Reader Declaration) (className : String) :
    Reader (List BodyItem × Bool) := do
  let comments := (← takeComments).map BodyItem.comment
  if ← atPunct "\x7d" then
    return (comments, false)
  else if ← atEnd then
    expected (.text "\x7d")
  else if ← eatPunct ";" then
    return (comments, true)
  else
    let item ← bodyItem ext nestedType className
    return (comments ++ [item], true)

/-- A semicolon, or a class body in braces with or without a semicolon after it. -/
def classBody (ext : Extensions) (nestedType : Reader Declaration) (className : String) :
    Reader (List BodyItem) := do
  if ← eatPunct ";" then
    return []
  else
    expectPunct "\x7b"
    let body ← rounds (bodyRound ext nestedType className)
    expectPunct "\x7d"
    let _ ← eatPunct ";"
    return body

/-! ### The declaration -/

/-- The keyword of a declaration. -/
def declarationKind : Reader Declaration.Kind := do
  let word ← expectIdent
  if word == "class" then
    return .plain
  else if word == "record" then
    let _ ← eatWord "class"
    return .record
  else
    expectWord "class"
    return .data

/-- A declaration, with a reader for those nested in it. -/
def declarationWith (ext : Extensions) (nestedType : Reader Declaration) : Reader Declaration := do
  let start ← position
  let attributes ← attributes
  let words ← takeWords fun w => !(["class", "record", "data"].contains w)
  let kind ← declarationKind
  let name ← expectIdent
  let types ← typeParams
  let params ← if ← atPunct "(" then some <$> parameters ext else pure none
  let entries ← headerEntries
  let clauses ← constraints fun t => t.isPunct "\x7b" || t.isPunct ";"
  let body ← classBody ext nestedType name
  let source := Verbatim.ofTokens (← since start)
  return {
    attributes := attributes
    modifiers := words.filter (· != "singleton")
    kind := kind
    singleton := words.contains "singleton"
    name := name
    typeParams := types
    params := params
    constructorAccess := (entries.filterMap fun
      | .access words => some words
      | .base _ => none).getLast?
    bases := entries.filterMap fun
      | .base entry => some entry
      | .access _ => none
    constraints := clauses
    body := body
    source := source
    span := source.span }

/-- A class declaration, in either grammar. -/
def declaration (ext : Extensions) : Reader Declaration :=
  nested (fun self _ => declarationWith ext (self ())) ()

end ClassSugar.Grammar
