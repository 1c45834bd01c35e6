import ClassSugar.Source.Place

/-!
# What can be wrong with the characters of a source

Reading tokens fails for two reasons only: something that has to be closed is not, or a character
starts no token. Each error has a span and a line; for something left open both belong to the place
where it was opened.
-/

namespace ClassSugar

/-- What a source can leave open. -/
inductive Token.Unclosed where
  | blockComment
  | characterLiteral
  | stringLiteral
  | stringInterpolation
  deriving DecidableEq, Repr, Inhabited

/-- The name of what was left open. -/
def Token.Unclosed.name : Token.Unclosed → String
  | .blockComment => "block comment"
  | .characterLiteral => "character literal"
  | .stringLiteral => "string literal"
  | .stringInterpolation => "string interpolation"

/-- Why a source has no tokens. -/
inductive Token.Error where
  /-- Something is opened and never closed. -/
  | unterminated (what : Token.Unclosed) (span : Span) (line : Nat)
  /-- A character starts no token. -/
  | unexpectedChar (c : Char) (span : Span) (line : Nat)
  deriving DecidableEq, Repr, Inhabited

namespace Token.Error

/-- Where the error is. -/
def span : Token.Error → Span
  | .unterminated _ span _ => span
  | .unexpectedChar _ span _ => span

/-- The error in words. -/
def message : Token.Error → String
  | .unterminated what _ line => s!"unterminated {what.name} starting at line {line}"
  | .unexpectedChar c _ line => s!"unexpected character `{c}` at line {line}"

end Token.Error

end ClassSugar
