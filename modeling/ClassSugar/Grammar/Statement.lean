import ClassSugar.Grammar.Reader
import ClassSugar.Tree.Basic

/-!
# Reading statements

Statements are kept as written; reading one is finding where it ends. A block is read statement by
statement, with the comments between them.
-/

namespace ClassSugar.Grammar

open Reader

/-- One statement. A conditional, a loop and a guarded block are taken whole, with all their
branches. -/
def statement : Reader Verbatim := do
  let ts ← ahead
  match Lookahead.statementLength (Lookahead.atWord "do" ts) 0 ts with
  | .ok n => return Verbatim.ofTokens (← take n)
  | .error .atEnd => failAt .unterminatedStatement (← get).last.span
  | .error (.atBracket t) => failAt (.unexpected t.text) t.span

/-- One round of a block: comments, and then its end, an empty statement or a statement. -/
def blockRound : Reader (List Statement × Bool) := do
  let comments := (← takeComments).map Statement.comment
  if ← eatPunct "\x7d" then
    return (comments, false)
  else if ← atEnd then
    expected (.text "\x7d")
  else if ← eatPunct ";" then
    return (comments, true)
  else
    let code ← statement
    return (comments ++ [.source code], true)

/-- A block in braces. Comments before its opening brace become its first statements. -/
def block : Reader Block := do
  let comments := (← takeComments).map Statement.comment
  expectPunct "\x7b"
  let stmts ← rounds blockRound
  return ⟨comments ++ stmts⟩

/-- Something kept as written, up to a semicolon or the end of a group in braces. -/
def rawItem : Reader Verbatim := do
  match Lookahead.rawRest (← ahead) with
  | .ok rest => return Verbatim.ofTokens (← take rest.read.length)
  | .error .atEnd => failAt .unexpectedEnd (← get).last.span
  | .error (.atBrace t) => failAt (.unexpected t.text) t.span
  | .error (.unclosed t) => failAt .unclosedBracket t.span

end ClassSugar.Grammar
