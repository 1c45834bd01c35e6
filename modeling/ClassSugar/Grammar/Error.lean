import ClassSugar.Token.Basic
import ClassSugar.Token.Error

/-!
# What can be wrong with the tokens of a source

Every error has a span: of the token at which reading stopped, or of the bracket that is not closed.
`SyntaxError.message` is the only place where errors are put into words.
-/

namespace ClassSugar

/-- What a reader was looking for. -/
inductive Expected where
  /-- An operator, bracket or keyword. -/
  | text (s : String)
  | identifier
  | baseType
  | type
  | expression
  /-- The keyword of a constructor initializer. -/
  | baseOrThis
  deriving DecidableEq, Repr, Inhabited

/-- What was expected, in words. -/
def Expected.describe : Expected → String
  | .text s => s!"`{s}`"
  | .identifier => "an identifier"
  | .baseType => "a base type"
  | .type => "a type"
  | .expression => "an expression"
  | .baseOrThis => "`base` or `this`"

/-- Why tokens do not form a source file. -/
inductive SyntaxError.Cause where
  /-- Something else was expected than this token, or than the end of the file. -/
  | expected (what : Expected) (found : Option String)
  /-- The file ends inside a construct. -/
  | unexpectedEnd
  /-- A bracket closes nothing. -/
  | unbalanced (bracket : String)
  /-- A bracket stands where none can close. -/
  | unexpected (bracket : String)
  /-- A bracket is never closed. -/
  | unclosedBracket
  /-- The file ends inside a statement. -/
  | unterminatedStatement
  /-- An access clause such as `: public()` has arguments. -/
  | accessArguments
  /-- A repeated reading took no token; no reader of the grammar repeats that way. -/
  | stalled
  deriving DecidableEq, Repr, Inhabited

/-- Why and where tokens do not form a source file. -/
structure SyntaxError where
  cause : SyntaxError.Cause
  span : Span
  deriving DecidableEq, Repr, Inhabited

namespace SyntaxError

/-- The cause of an error in words. -/
def Cause.message : Cause → String
  | .expected what (some text) => s!"expected {what.describe}, found `{text}`"
  | .expected what none => s!"expected {what.describe}, found end of file"
  | .unexpectedEnd => "unexpected end of file"
  | .unbalanced bracket => s!"unbalanced `{bracket}`"
  | .unexpected bracket => s!"unexpected `{bracket}`"
  | .unclosedBracket => "unclosed bracket"
  | .unterminatedStatement => "unterminated statement"
  | .accessArguments => "a constructor access clause takes no arguments"
  | .stalled => "reading makes no progress"

/-- The error in words. -/
def message (e : SyntaxError) : String :=
  e.cause.message

end SyntaxError

/-- Why a text is no source file. -/
inductive ParseError where
  /-- It has no tokens. -/
  | token (e : Token.Error)
  /-- Its tokens do not form a source file. -/
  | grammar (e : SyntaxError)
  deriving DecidableEq, Repr, Inhabited

namespace ParseError

/-- Where the error is. -/
def span : ParseError → Span
  | .token e => e.span
  | .grammar e => e.span

/-- The error in words. -/
def message : ParseError → String
  | .token e => e.message
  | .grammar e => e.message

end ParseError

end ClassSugar
