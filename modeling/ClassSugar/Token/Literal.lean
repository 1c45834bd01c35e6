import ClassSugar.Text.Cut
import ClassSugar.Token.Error

/-!
# Character and string literals

Literals are the hard part of reading tokens: a string literal has marks before its quotes (`@` for
verbatim text, `$` for interpolated text), its quotes may form a fence of three or more, and an
interpolated string has holes that hold code, with literals of their own. The scanners here take the
text at the start of a literal and leave the rest after it.

They know nothing of offsets and lines. A literal that is left open is reported by two suffixes of
the source, the text from which it was opened and the text at which the scanner gave up
(`Open.start`, `Open.stop`); whoever knows the whole source turns them into positions.

The three scanners `Opening.close`, `quotedRest` and `holeRest` call each other, each time on a
shorter text or, from a hole into the literal that starts right there, on the same text once.
-/

namespace ClassSugar.Token

open ClassSugar.Text

/-- Something left open: what it is, the text from where it was opened, and the text from where the
scanner gave up. -/
structure Open where
  what : Unclosed
  start : List Char
  stop : List Char

/-! ### Character literals -/

/-- The rest after a character literal whose opening quote was read. A backslash takes the next
character with it; a newline leaves the literal open. -/
def charRest (start : List Char) : (cs : List Char) → Except Open (Cut cs)
  | [] => .error ⟨.characterLiteral, start, []⟩
  | ['\\'] => .error ⟨.characterLiteral, start, []⟩
  | '\\' :: c :: r => (charRest start r).map fun t => (t.cons c).cons '\\'
  | '\'' :: r => .ok (Cut.one '\'' r)
  | '\n' :: r => .error ⟨.characterLiteral, start, r⟩
  | c :: r => (charRest start r).map (·.cons c)

/-! ### The opening of a string literal -/

/-- The marks that may stand before the quotes of a string literal. -/
def isMark (c : Char) : Bool :=
  c == '@' || c == '$'

/-- The opening of a string literal: its marks, how many quotes stand there, and what follows. -/
structure Opening (cs : List Char) where
  /-- There is an `@` among the marks. -/
  verbatim : Bool
  /-- There is a `$` among the marks. -/
  interpolated : Bool
  /-- The number of quotes; from three on they are the fence of a raw literal. -/
  quotes : Nat
  /-- The text after the opening: after the fence of a raw literal, else after one quote. -/
  body : Cut cs

/-- Whether marks can open a string literal: an `@` is one of the first three. -/
def marksOpen (marks : List Char) : Bool :=
  (marks.drop 3).all (· == '$')

/-- The opening of a string literal, if the text starts with one. -/
def Opening.of? (cs : List Char) : Option (Opening cs) :=
  match h : cs.dropWhile isMark with
  | '"' :: r =>
    let marks := cs.takeWhile isMark
    let quotes := 1 + (r.takeWhile (· == '"')).length
    if marksOpen marks then
      some {
        verbatim := marks.contains '@'
        interpolated := marks.contains '$'
        quotes := quotes
        body := (Cut.drop '"' r (if 3 ≤ quotes then quotes else 1)).append marks
          (h ▸ List.takeWhile_append_dropWhile) }
    else
      none
  | _ => none

/-! ### The rest after a string literal -/

/-- The rest after a raw literal whose opening fence was read: the next run of as many quotes closes
it. -/
def rawRest (start : List Char) (quotes : Nat) : (cs : List Char) → Except Open (Cut cs)
  | [] => .error ⟨.stringLiteral, start, []⟩
  | c :: r =>
    if (List.replicate quotes '"').isPrefixOf (c :: r) then
      .ok (Cut.drop c r quotes)
    else
      (rawRest start quotes r).map (·.cons c)

mutual

/-- The rest after the string literal that an opening opens. -/
def Opening.close {cs : List Char} (o : Opening cs) : Except Open (Cut cs) :=
  if 3 ≤ o.quotes then
    (rawRest cs o.quotes o.body.rest).map o.body.into
  else
    (quotedRest cs o.verbatim o.interpolated o.body.rest).map o.body.into
termination_by 2 * cs.length
decreasing_by
  have := o.body.shorter
  omega

/-- The rest after a literal whose opening quote was read. In verbatim text a quote is written twice
and a backslash is plain; elsewhere a backslash takes the next character with it and a newline
leaves the literal open. In interpolated text a single brace opens a hole. -/
def quotedRest (start : List Char) (verbatim interpolated : Bool) (cs : List Char) :
    Except Open (Cut cs) :=
  match cs with
  | [] => .error ⟨.stringLiteral, start, []⟩
  | c :: r =>
    if c = '\n' ∧ ¬verbatim then
      .error ⟨.stringLiteral, start, c :: r⟩
    else if c = '\\' ∧ ¬verbatim then
      match r with
      | [] => .error ⟨.stringLiteral, start, []⟩
      | d :: r' => (quotedRest start verbatim interpolated r').map fun t => (t.cons d).cons c
    else if c = '"' then
      match r with
      | '"' :: r' =>
        if verbatim then
          (quotedRest start verbatim interpolated r').map fun t => (t.cons '"').cons c
        else
          .ok (Cut.one c ('"' :: r'))
      | r => .ok (Cut.one c r)
    else if c = '{' ∧ interpolated then
      match r with
      | '{' :: r' => (quotedRest start verbatim interpolated r').map fun t => (t.cons '{').cons c
      | r =>
        match holeRest start 0 r with
        | .error e => .error e
        | .ok hole =>
          (quotedRest start verbatim interpolated hole.rest).map fun t => (hole.into t).cons c
    else
      (quotedRest start verbatim interpolated r).map (·.cons c)
termination_by 2 * cs.length
decreasing_by
  all_goals try have := hole.shorter
  all_goals simp only [List.length_cons] at *
  all_goals omega

/-- The rest after a hole of an interpolated literal, with `depth` braces open inside it. Literals
in the hole are stepped over, so that their braces and quotes do not count. -/
def holeRest (start : List Char) (depth : Nat) (cs : List Char) : Except Open (Cut cs) :=
  match Opening.of? cs with
  | some o =>
    match o.close with
    | .error e => .error e
    | .ok literal => (holeRest start depth literal.rest).map literal.into
  | none =>
    match cs with
    | [] => .error ⟨.stringInterpolation, start, []⟩
    | '{' :: r => (holeRest start (depth + 1) r).map (·.cons '{')
    | '}' :: r =>
      match depth with
      | 0 => .ok (Cut.one '}' r)
      | depth + 1 => (holeRest start depth r).map (·.cons '}')
    | '\'' :: r =>
      match charRest ('\'' :: r) r with
      | .error e => .error e
      | .ok literal => (holeRest start depth literal.rest).map fun t => (literal.into t).cons '\''
    | c :: r => (holeRest start depth r).map (·.cons c)
termination_by 2 * cs.length + 1
decreasing_by
  · omega
  · have := literal.shorter
    omega
  · simp only [List.length_cons]
    omega
  · simp only [List.length_cons]
    omega
  · have := literal.shorter
    simp only [List.length_cons]
    omega
  · simp only [List.length_cons]
    omega

end

end ClassSugar.Token
