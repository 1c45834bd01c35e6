import ClassSugar.Source.Place

/-!
# Tokens

A source is read as a sequence of tokens. Comments and preprocessor directives are not tokens: each
rides on the token that follows it, so that whoever reads the tokens decides where it belongs. The
sequence ends with one end-of-file token, which carries what trails the last real token.

A token also keeps its *gap*, the whole text between the token before it and itself, blanks and
comments included. Gaps and texts together spell the source, so any run of tokens can be written out
as it stood (`Token.spell`).
-/

namespace ClassSugar

/-- The kinds of tokens. -/
inductive Token.Kind where
  /-- An identifier or keyword, with a leading `@` when it is written verbatim. -/
  | ident
  /-- A numeric literal. -/
  | number
  /-- A string literal of any form, marks and quotes included. -/
  | str
  /-- A character literal. -/
  | char
  /-- An operator or a bracket. -/
  | punct
  /-- The end of the source. -/
  | eof
  deriving DecidableEq, Repr, Inhabited

/-- A comment or a preprocessor directive. -/
structure Comment where
  /-- Its text; a comment that runs to the end of a line has no blanks at its end. -/
  text : String
  /-- Where it stands, with the blanks at its end. -/
  span : Span
  /-- Its visual column. -/
  column : Nat
  deriving DecidableEq, Repr, Inhabited

/-- A token and where it stands. -/
structure Token where
  kind : Token.Kind
  /-- The text of the token, empty for the end of the source. -/
  text : String
  span : Span
  line : Nat
  column : Nat
  /-- The comments and directives between the previous token and this one. -/
  leading : List Comment
  /-- The text between the previous token and this one. -/
  gap : String
  deriving DecidableEq, Repr, Inhabited

namespace Token

/-- Whether the token is this operator or bracket. -/
def isPunct (t : Token) (text : String) : Bool :=
  t.kind == .punct && t.text == text

/-- Whether the token is this identifier or keyword. -/
def isIdent (t : Token) (word : String) : Bool :=
  t.kind == .ident && t.text == word

/-- The identifier or keyword that the token is. -/
def ident? (t : Token) : Option String :=
  if t.kind = .ident then some t.text else none

/-- Whether the token ends the source. -/
def isEof (t : Token) : Bool :=
  t.kind == .eof

/-- Whether the token has to be kept apart from a neighbouring word. -/
def isWord (t : Token) : Bool :=
  match t.kind with
  | .ident | .number | .str | .char => true
  | .punct | .eof => false

/-- A run of tokens as it stands in the source, without what precedes the first of them. -/
def spell : List Token → String
  | [] => ""
  | t :: ts => t.text ++ String.join (ts.map fun u => u.gap ++ u.text)

end Token

end ClassSugar
