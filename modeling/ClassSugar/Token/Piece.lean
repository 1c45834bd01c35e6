import ClassSugar.Text.Blank
import ClassSugar.Text.Letter
import ClassSugar.Token.Basic
import ClassSugar.Token.Literal

/-!
# Cutting a source into pieces

Before anything has a position, a source is cut into *pieces*: runs of blanks, comments and
directives, and tokens. The pieces spell the source, nothing is dropped and nothing is added
(`spell_pieces`); positions are computed from them afterwards.

The only memory between pieces is whether a directive may start here. That is so at the start of the
source and after a newline, and it ends with the next token; comments do not end it, and a token
that holds a newline starts it again.
-/

namespace ClassSugar.Token

open ClassSugar.Text

/-- What a piece of a source is. -/
inductive Piece.Kind where
  /-- A run of blanks. -/
  | blank
  /-- A comment or directive that runs to the end of its line. -/
  | line
  /-- A comment between `/*` and `*/`. -/
  | block
  /-- A token. -/
  | token (kind : Token.Kind)
  deriving DecidableEq, Repr

/-- A piece of a source. -/
structure Piece where
  kind : Piece.Kind
  text : List Char
  deriving DecidableEq, Repr

/-- Why a source cannot be cut into pieces, told by suffixes of the source. -/
inductive Fault where
  /-- Something is left open. -/
  | unclosed (left : Open)
  /-- The character starts no piece. -/
  | stray (c : Char) (rest : List Char)

/-- The operators and brackets; a longer one stands before its own beginnings. No operator longer
than one character starts with `>`, so that nested type arguments close one at a time. -/
def puncts : List String :=
  ["??=", "=>", "==", "!=", "<=", "&&", "||", "??", "?.", "++", "--", "+=", "-=", "*=", "/=",
   "%=", "&=", "|=", "^=", "::", "->", "(", ")", "[", "]", "\x7b", "\x7d", ";", ",", ".", ":",
   "?", "=", "<", ">", "+", "-", "*", "/", "%", "!", "~", "&", "|", "^"]

/-- The operator or bracket at the start of a text. -/
def punct? (cs : List Char) : Option String :=
  puncts.find? fun p => p.toList.isPrefixOf cs

/-- Whether the text starts with a decimal digit. -/
def startsWithDigit : List Char → Bool
  | c :: _ => c.isDigit
  | [] => false

/-- Whether the text starts with the start of a word. -/
def startsWithWord : List Char → Bool
  | c :: _ => isWordStart c
  | [] => false

/-- Whether a character goes on with a numeric literal, where `r` follows it: an ASCII letter or
digit, an underscore, or a point before a digit. -/
def isNumberPart (c : Char) (r : List Char) : Bool :=
  c.isAlphanum || c == '_' || (c == '.' && startsWithDigit r)

/-- The rest after the characters of a numeric literal of which the first was read. -/
def numberRest (c : Char) : (r : List Char) → Cut (c :: r)
  | [] => .one c []
  | d :: r => if isNumberPart d r then (numberRest d r).cons c else .one c (d :: r)

/-- The rest after a block comment whose opening was read. -/
def blockRest (start : List Char) : (cs : List Char) → Except Open (Cut cs)
  | [] => .error ⟨.blockComment, start, []⟩
  | '*' :: '/' :: r => .ok ((Cut.one '/' r).cons '*')
  | c :: r => (blockRest start r).map (·.cons c)

namespace Piece

/-- A comment or directive up to the end of its line. -/
def untilNewline (c : Char) (r : List Char) : Cut (c :: r) :=
  Cut.run (· != '\n') c r

/-- The comment that starts here, if one does. -/
def comment? (lineStart : Bool) (c : Char) (r : List Char) :
    Option (Except Open (Piece.Kind × Cut (c :: r))) :=
  match c, r with
  | '/', '/' :: r => some (.ok (.line, untilNewline '/' ('/' :: r)))
  | '/', '*' :: r =>
    some ((blockRest ('/' :: '*' :: r) r).map fun t => (.block, (t.cons '*').cons '/'))
  | '#', r => if lineStart then some (.ok (.line, untilNewline '#' r)) else none
  | _, _ => none

/-- The token that starts here, if no blank and no comment does. -/
def token (c : Char) (r : List Char) : Except Fault (Token.Kind × Cut (c :: r)) :=
  match Opening.of? (c :: r) with
  | some o =>
    match o.close with
    | .ok t => .ok (.str, t)
    | .error left => .error (.unclosed left)
  | none =>
    if c = '\'' then
      match charRest (c :: r) r with
      | .ok t => .ok (.char, t.cons c)
      | .error left => .error (.unclosed left)
    else if c.isDigit || (c == '.' && startsWithDigit r) then
      .ok (.number, numberRest c r)
    else if isWordStart c || (c == '@' && startsWithWord r) then
      .ok (.ident, Cut.run isWordChar c r)
    else
      match punct? (c :: r) with
      | some p => .ok (.punct, Cut.drop c r p.length)
      | none => .error (.stray c r)

/-- The piece that starts here. -/
def next (lineStart : Bool) (c : Char) (r : List Char) :
    Except Fault (Piece.Kind × Cut (c :: r)) :=
  if isBlank c then
    .ok (.blank, Cut.run isBlank c r)
  else
    match comment? lineStart c r with
    | some (.ok found) => .ok found
    | some (.error left) => .error (.unclosed left)
    | none => (token c r).map fun (kind, t) => (.token kind, t)

/-- Whether the piece is a token. -/
def isToken (p : Piece) : Bool :=
  match p.kind with
  | .token _ => true
  | _ => false

/-- Whether a directive may start after a piece. -/
def lineStartAfter (lineStart : Bool) (p : Piece) : Bool :=
  p.text.contains '\n' || (lineStart && !p.isToken)

end Piece

/-- The pieces of a text. `lineStart` tells whether a directive may start at its beginning. -/
def pieces (lineStart : Bool) (cs : List Char) : Except Fault (List Piece) :=
  match cs with
  | [] => .ok []
  | c :: r =>
    match Piece.next lineStart c r with
    | .error e => .error e
    | .ok (kind, t) =>
      (pieces (Piece.lineStartAfter lineStart ⟨kind, t.read⟩) t.rest).map (⟨kind, t.read⟩ :: ·)
termination_by cs.length
decreasing_by exact t.shorter

/-- How a text is cut whose first piece is `p`. -/
theorem exists_next_of_pieces {lineStart : Bool} {cs : List Char} {p : Piece} {ps : List Piece}
    (h : pieces lineStart cs = .ok (p :: ps)) :
    ∃ c r, ∃ t : Cut (c :: r), cs = c :: r ∧ Piece.next lineStart c r = .ok (p.kind, t) ∧
      t.read = p.text ∧ pieces (Piece.lineStartAfter lineStart p) t.rest = .ok ps := by
  unfold pieces at h
  split at h
  · cases h
  · rename_i c r
    split at h
    · cases h
    · rename_i kind t hnext
      cases hrest : pieces (Piece.lineStartAfter lineStart ⟨kind, t.read⟩) t.rest with
      | error fault => rw [hrest] at h; cases h
      | ok qs =>
        rw [hrest] at h
        cases h
        exact ⟨c, r, t, rfl, hnext, rfl, hrest⟩

/-- **The pieces of a text spell it.** -/
theorem spell_pieces {lineStart : Bool} {cs : List Char} {ps : List Piece}
    (h : pieces lineStart cs = .ok ps) : ps.flatMap Piece.text = cs := by
  induction ps generalizing lineStart cs with
  | nil =>
    unfold pieces at h
    split at h
    · rfl
    · split at h
      · cases h
      · cases hrest : pieces _ _ <;> rw [hrest] at h <;> cases h
  | cons p ps ih =>
    obtain ⟨c, r, t, rfl, -, hread, hrest⟩ := exists_next_of_pieces h
    rw [List.flatMap_cons, ← hread, ih hrest, t.read_append_rest]

end ClassSugar.Token
