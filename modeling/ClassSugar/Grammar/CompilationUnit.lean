import ClassSugar.Grammar.Declaration
import ClassSugar.Grammar.Slice
import ClassSugar.Token.Lexer
import ClassSugar.Token.Stream

/-!
# Reading source files

A file is a sequence of directives, namespaces, class declarations and constructs kept as written,
with the comments between them. `CompilationUnit.parse` is the whole way from a text to its tree, with
positions that have no bound. `CompilationUnit.parseAt` goes the same way with positions in machine
words and cuts the code that it keeps out of the text by them.
-/

namespace ClassSugar

namespace Grammar

open Reader

/-- Whether a `using` directive starts here, and not a statement that disposes of something. -/
def isUsingStart (ts : List Token) : Bool :=
  let ts := if Lookahead.atWord "global" ts then ts.drop 1 else ts
  Lookahead.atWord "using" ts &&
    !Lookahead.atPunct "(" (ts.drop 1) && !Lookahead.atWord "var" (ts.drop 1)

/-- Whether an attribute with a target, such as `[assembly: ...]`, starts here. It stands alone. -/
def isTargetedAttribute (ts : List Token) : Bool :=
  Lookahead.atPunct "[" ts && Lookahead.atIdent (ts.drop 1) && Lookahead.atPunct ":" (ts.drop 2)

/-- A `using` directive. -/
def usingDirective : Reader Using := do
  let isGlobal ← eatWord "global"
  skip
  let ts ← takeUntil false (·.isPunct ";")
  skip
  return ⟨isGlobal, Token.join ts⟩

/-- A namespace, with a reader for its items that is told whether a brace ends them. -/
def namespaceWith (items : Bool → Reader (List Item)) : Reader Item := do
  skip
  let name := Token.join (← takeUntil false fun t => t.isPunct "\x7b" || t.isPunct ";")
  if ← eatPunct ";" then
    return .scope name true (← items false)
  else
    expectPunct "\x7b"
    let inner ← items true
    expectPunct "\x7d"
    return .scope name false inner

/-- An item, with a reader for the items of a namespace. -/
def item (ext : Extensions) (items : Bool → Reader (List Item)) : Reader Item := do
  let ts ← ahead
  if isUsingStart ts then
    return .directive (← usingDirective)
  else if Lookahead.atWord "namespace" ts then
    namespaceWith items
  else if isTargetedAttribute ts then
    match ← takeGroup? with
    | some group => return .raw (Verbatim.ofTokens group)
    | none => expected (.text "]")
  else if isDeclarationStart ext ts then
    return .declaration (← declaration ext)
  else
    return .raw (← rawItem)

/-- One round of a list of items: comments, and then its end or an item. -/
def itemsRound (ext : Extensions) (items : Bool → Reader (List Item)) (inBraces : Bool) :
    Reader (List Item × Bool) := do
  let comments := (← takeComments).map Item.comment
  if ← atEnd then
    if inBraces then expected (.text "\x7d") else return (comments, false)
  else if inBraces && (← atPunct "\x7d") then
    return (comments, false)
  else
    let found ← item ext items
    return (comments ++ [found], true)

/-- Items up to the end of the file, or up to the brace that ends a namespace. -/
def items (ext : Extensions) : Bool → Reader (List Item) :=
  nested fun self inBraces => rounds (itemsRound ext self inBraces)

end Grammar

/-- The tree of a text whose first byte has offset `base`. -/
def CompilationUnit.parse (ext : Extensions) (source : String) (base : Nat) :
    Except ParseError CompilationUnit :=
  match Token.tokenize source base with
  | .error e => .error (.token e)
  | .ok ts =>
    match Grammar.items ext false (Cursor.ofTokens ts) with
    | .ok items _ => .ok ⟨items⟩
    | .error e _ => .error (.grammar e)

/-- Why a text has no tree. -/
inductive ParseFailure where
  | error (e : ParseError)
  /-- Positions have gone over the largest word, and code is asked for where there is none. -/
  | overflow

/-- The tree of a text whose first byte has position `base`, where positions are words. -/
def CompilationUnit.parseAt (ext : Extensions) (source : String) (base : UInt32) :
    Except ParseFailure CompilationUnit :=
  match Token.lex source base with
  | .error (.error e) => .error (.error (.token e))
  | .error .overflow => .error .overflow
  | .ok ts =>
    match Grammar.items ext false (Cursor.ofTokens ts) with
    | .error e _ => .error (.error (.grammar e))
    | .ok items _ =>
      match CompilationUnit.slice? source base.toNat ⟨items⟩ with
      | none => .error .overflow
      | some u => .ok u

/-- The items of a tree are read from the tokens of the text. -/
theorem CompilationUnit.exists_items_of_parse {ext : Extensions} {source : String} {base : Nat}
    {u : CompilationUnit} (h : CompilationUnit.parse ext source base = .ok u) :
    ∃ ts c, Token.tokenize source base = .ok ts ∧
      Grammar.items ext false (Cursor.ofTokens ts) = .ok u.items c := by
  unfold CompilationUnit.parse at h
  split at h
  · cases h
  · split at h <;> cases h
    exact ⟨_, _, ‹_›, ‹_›⟩

end ClassSugar
