import ClassSugar.Text.Letter
import ClassSugar.Token.Basic
import ClassSugar.Tree.Verbatim

/-!
# Runs of tokens as text

A run of tokens enters the tree in one of two ways. Code is *spelled*: it keeps every character
between its tokens, and goes with the identifiers that occur in it (`Verbatim.ofTokens`). Types,
names and constraints are *joined*: their tokens are written with normal spacing, so that two
spellings of a type give one text (`Token.join`).

Identifiers also occur in the holes of interpolated strings. `holeWords` finds them by counting
braces, without reading the literals inside a hole.
-/

namespace ClassSugar

open ClassSugar.Text

namespace Token

/-! ### Joining -/

/-- The operators written with a space on both sides. -/
def spacedOperators : List String :=
  ["=", "=>", ":", "==", "!=", "&&", "||", "??"]

/-- Whether the token is an operator written with spaces. -/
def isSpaced (t : Token) : Bool :=
  t.kind == .punct && spacedOperators.contains t.text

/-- Whether a word after the token is kept apart from it. -/
def closesBeforeWord (t : Token) : Bool :=
  t.isPunct "?" || t.isPunct "]" || t.isPunct ">" || t.isPunct ")"

/-- Whether two neighbouring tokens are written with a space between them. -/
def needsSpace (previous current : Token) : Bool :=
  previous.isPunct "," || (previous.isWord && current.isWord) ||
    (previous.closesBeforeWord && current.isWord) || previous.isSpaced || current.isSpaced

/-- The tokens after `previous`, each with the space before it. -/
def joinAfter (previous : Token) : List Token → String
  | [] => ""
  | t :: ts => (if needsSpace previous t then " " else "") ++ t.text ++ joinAfter t ts

/-- Tokens written with normal spacing. -/
def join : List Token → String
  | [] => ""
  | t :: ts => t.text ++ joinAfter t ts

/-! ### Identifiers -/

/-- The word that just ended, unless it is empty or starts with a digit. -/
def endedWord (reversed : List Char) : List String :=
  match reversed.reverse with
  | [] => []
  | c :: r => if c.isDigit then [] else [String.ofList (c :: r)]

/-- The words in the holes of an interpolated string, with `depth` braces open and the reversed
start of a word already read. Outside of holes two braces stand for one and open nothing. A word
that runs to the end of the text is none. -/
def holeWords (depth : Nat) (word : List Char) : List Char → List String
  | [] => []
  | c :: r =>
    if depth ≠ 0 ∧ isWordChar c then
      holeWords depth (c :: word) r
    else if c = '{' then
      match depth, r with
      | 0, '{' :: r => endedWord word ++ holeWords 0 [] r
      | depth, r => endedWord word ++ holeWords (depth + 1) [] r
    else if c = '}' then
      endedWord word ++ holeWords (depth - 1) [] r
    else
      endedWord word ++ holeWords depth [] r

/-- Whether a string literal is interpolated, judged by its marks. -/
def isInterpolated (literal : String) : Bool :=
  (literal.toList.dropWhile (· == '@')).head? == some '$'

/-- The identifiers that a token mentions: itself, or those in its holes. -/
def idents (t : Token) : List String :=
  match t.kind with
  | .ident => [t.text]
  | .str => if isInterpolated t.text then holeWords 0 [] t.text.toList else []
  | _ => []

/-! ### Spelling -/

/-- The span from the first token of a run to its last. -/
def spanOf (ts : List Token) : Span :=
  match ts.head?, ts.getLast? with
  | some first, some last => ⟨first.span.lo, last.span.hi⟩
  | _, _ => .nowhere

end Token

/-- A run of tokens kept as it was written. -/
def Verbatim.ofTokens (ts : List Token) : Verbatim where
  text := Token.spell ts
  span := Token.spanOf ts
  column := (ts.head?.map Token.column).getD 0
  idents := ts.flatMap Token.idents

/-- A comment kept as it was written. -/
def Verbatim.ofComment (c : Comment) : Verbatim :=
  ⟨c.text, c.span, c.column, []⟩

end ClassSugar
