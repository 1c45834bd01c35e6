import ClassSugar.Extension
import ClassSugar.Grammar.Reader
import ClassSugar.Tree.Basic

/-!
# Reading attributes, types and parameters

The parts that headers and members share. A null assertion is read off a parameter in both of its
forms, the attribute and the two exclamation marks; with the extension switched off the attribute is
one like any other and the marks are no part of a parameter.
-/

namespace ClassSugar.Grammar

open Reader

/-! ### Attributes -/

/-- One attribute of a section, and whether another follows. -/
def attributeEntry : Reader (List String × Bool) := do
  let ts ← takeUntil false fun t => t.isPunct "," || t.isPunct "]"
  let texts := if ts.isEmpty then [] else [Token.spell ts]
  if ← eatPunct "]" then
    return (texts, false)
  else
    skip
    return (texts, true)

/-- One section of attributes, if one is ahead. -/
def attributeSection : Reader (List String × Bool) := do
  if ← eatPunct "[" then
    return (← rounds attributeEntry, true)
  else
    return ([], false)

/-- The attributes ahead, one text for each. -/
def attributes : Reader (List String) :=
  rounds attributeSection

/-- The names of the attribute that asserts a parameter not to be null. -/
def nullAssertionNames : List String :=
  ["ThrowArgumentNullException", "ThrowArgumentNullExceptionAttribute"]

/-- The name of an attribute without its arguments and qualifiers. -/
def attributeName (text : String) : String :=
  let head := Text.trim (text.toList.takeWhile (· != '('))
  String.ofList (Text.trim ((head.reverse.takeWhile (· != '.')).reverse))

/-- Whether an attribute asserts a parameter not to be null. -/
def isNullAssertion (text : String) : Bool :=
  nullAssertionNames.contains (attributeName text)

/-! ### Types -/

/-- A type. -/
def typeName : Reader TypeName := do
  match Lookahead.typeRest (← ahead) with
  | some rest => return ⟨Token.join (← take rest.read.length)⟩
  | none => expected .type

/-- The type parameters of a declaration or method, if it has any. -/
def typeParams : Reader (Option String) := do
  if ← atPunct "<" then
    let opening ← take 1
    let inner ← takeUntil true (·.isPunct ">")
    let closing ← take 1
    return some (Token.join (opening ++ inner ++ closing))
  else
    return none

/-- One `where` clause, if one is ahead. -/
def constraint (stop : Token → Bool) : Reader (List String × Bool) := do
  if ← eatWord "where" then
    let ts ← takeUntil true fun t => t.isIdent "where" || stop t
    return ([Token.join ts], true)
  else
    return ([], false)

/-- The `where` clauses ahead, up to a token that passes the test. -/
def constraints (stop : Token → Bool) : Reader (List String) :=
  rounds (constraint stop)

/-! ### Parameters -/

/-- The modifiers of a parameter. -/
def paramModifiers : List String :=
  ["ref", "out", "in", "params", "this", "scoped", "readonly"]

/-- Takes the two exclamation marks after a parameter, if they are understood and ahead. -/
def eatMarks (ext : Extensions) : Reader Bool := do
  let ts ← ahead
  if ext.nullAssertion && Lookahead.atPunct "!" ts && Lookahead.atPunct "!" (ts.drop 1) then
    let _ ← take 2
    return true
  else
    return false

/-- The default value of a parameter, if it has one. -/
def defaultValue : Reader (Option String) := do
  if ← eatPunct "=" then
    let ts ← takeUntil false fun t => t.isPunct "," || t.isPunct ")"
    return some (Token.spell ts)
  else
    return none

/-- One parameter. -/
def parameter (ext : Extensions) : Reader Parameter := do
  let start ← position
  let all ← attributes
  let isMarker := fun text => ext.nullAssertion && isNullAssertion text
  let modifiers ← takeWords paramModifiers.contains
  let ty ← typeName
  let name ← expectIdent
  let marked ← eatMarks ext
  let default ← defaultValue
  return {
    attributes := all.filter fun text => !isMarker text
    modifiers := modifiers
    ty := ty
    name := name
    defaultValue := default
    nullAssertion :=
      if marked then some .byMarks else if all.any isMarker then some .byAttribute else none
    span := Token.spanOf (← since start) }

/-- One parameter of a list, and whether another follows. -/
def parameterRound (ext : Extensions) : Reader (List Parameter × Bool) := do
  let p ← parameter ext
  if ← eatPunct ")" then
    return ([p], false)
  else
    expectPunct ","
    return ([p], true)

/-- A list of parameters in parentheses. -/
def parameters (ext : Extensions) : Reader (List Parameter) := do
  expectPunct "("
  if ← eatPunct ")" then
    return []
  else
    rounds (parameterRound ext)

end ClassSugar.Grammar
