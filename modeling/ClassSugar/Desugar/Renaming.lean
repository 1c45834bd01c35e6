import ClassSugar.Text.Blank
import ClassSugar.Text.Letter

/-!
# Renaming identifiers in code

`Renaming.apply f text` replaces every word of a piece of code by its image under `f`. A word is a
longest run of letters, numerals, `_` and `@`. A word after a dot names a member of something else
and stays. So does the text of string and character literals, with one exception: the holes of an
interpolated string are code.

A literal ends at its closing quote. In an ordinary literal a backslash takes the character after it
along; in one marked `@` a doubled quote stands for one quote. A brace opens a hole only in a
literal marked `$`, and a doubled brace opens none.

The scanner keeps the text that it has written, reversed: from it one can tell whether a word
follows a dot, and how a string is marked.
-/

namespace ClassSugar.Renaming

open ClassSugar.Text

/-- The characters of a word. -/
def isWordPart (c : Char) : Bool :=
  isWordChar c || c == '@'

/-- How a string is marked in front of its opening quote. -/
structure Marks where
  /-- `$`: braces open holes. -/
  interpolated : Bool
  /-- `@`: a backslash is only a backslash. -/
  verbatim : Bool
  deriving DecidableEq, Repr, Inhabited

/-- The marks at the end of a reversed text: at most two of them count. -/
def Marks.ofReversed (written : List Char) : Marks :=
  let marks := (written.take 2).takeWhile fun c => c == '$' || c == '@'
  ⟨marks.contains '$', marks.contains '@'⟩

/-- Whether a reversed text ends with a dot, blanks aside. -/
def endsWithDot (written : List Char) : Bool :=
  (written.dropWhile isBlank).head? == some '.'

/-! ### Holes -/

/-- A hole of an interpolated string. -/
structure Hole where
  code : List Char
  /-- The brace that closes it was found. -/
  closed : Bool
  /-- What follows the closing brace. -/
  rest : List Char
  deriving DecidableEq, Repr, Inhabited

/-- The hole with a character before it. -/
def Hole.cons (c : Char) (h : Hole) : Hole :=
  { h with code := c :: h.code }

mutual

/-- The hole whose opening brace was read. Braces inside it come in pairs, `depth` of which are
open; a quote starts a literal, in which braces do not count. -/
def hole (depth : Nat) : List Char → Hole
  | [] => ⟨[], false, []⟩
  | c :: r =>
    if c = '"' ∨ c = '\'' then (quoted depth c r).cons c
    else if c = '\x7b' then (hole (depth + 1) r).cons c
    else if c = '\x7d' then
      match depth with
      | 0 => ⟨[], true, r⟩
      | depth + 1 => (hole depth r).cons c
    else (hole depth r).cons c

/-- The hole inside a literal of which the opening quote was read. -/
def quoted (depth : Nat) (quote : Char) : List Char → Hole
  | [] => ⟨[], false, []⟩
  | c :: r =>
    if c = '\\' then
      match r with
      | e :: r => ((quoted depth quote r).cons e).cons c
      | [] => ⟨[c], false, []⟩
    else if c = quote then (hole depth r).cons c
    else (quoted depth quote r).cons c

end

mutual

/-- A hole and what follows it are no longer than the text. -/
theorem length_hole (depth : Nat) (cs : List Char) :
    (hole depth cs).code.length + (hole depth cs).rest.length ≤ cs.length := by
  match cs with
  | [] => simp [hole]
  | c :: r =>
    have hquoted := length_quoted depth c r
    have hdeeper := length_hole (depth + 1) r
    have hsame := length_hole depth r
    unfold hole
    split
    · simp only [Hole.cons, List.length_cons]
      omega
    split
    · simp only [Hole.cons, List.length_cons]
      omega
    split
    · match depth with
      | 0 => simp
      | depth + 1 =>
        have houter := length_hole depth r
        simp only [Hole.cons, List.length_cons]
        omega
    · simp only [Hole.cons, List.length_cons]
      omega

/-- The rest of a hole and what follows it are no longer than the text. -/
theorem length_quoted (depth : Nat) (quote : Char) (cs : List Char) :
    (quoted depth quote cs).code.length + (quoted depth quote cs).rest.length ≤ cs.length := by
  match cs with
  | [] => simp [quoted]
  | c :: r =>
    have hout := length_hole depth r
    have hin := length_quoted depth quote r
    unfold quoted
    split
    · match r with
      | [] => simp
      | e :: r =>
        have hescaped := length_quoted depth quote r
        simp only [Hole.cons, List.length_cons]
        omega
    split <;> simp only [Hole.cons, List.length_cons] <;> omega

end

/-! ### The scanner -/

mutual

/-- Renames in code; the result is reversed, with what was already written at its end. -/
def code (f : List Char → List Char) (written : List Char) : List Char → List Char
  | [] => written
  | c :: r =>
    if c = '"' then literal f c (Marks.ofReversed written) (c :: written) r
    else if c = '\'' then literal f c ⟨false, false⟩ (c :: written) r
    else if isWordPart c then
      let word := c :: r.takeWhile isWordPart
      let image := if endsWithDot written then word else f word
      code f (image.reverse ++ written) (r.dropWhile isWordPart)
    else
      code f (c :: written) r
termination_by cs => cs.length
decreasing_by
  all_goals simp only [List.length_cons]
  all_goals first
    | omega
    | exact Nat.lt_succ_of_le (List.dropWhile_suffix _).length_le

/-- Renames in a literal of which the opening quote was read, and in the code after it. -/
def literal (f : List Char → List Char) (quote : Char) (marks : Marks) (written : List Char) :
    List Char → List Char
  | [] => written
  | c :: r =>
    if marks.interpolated ∧ c = '\x7b' then
      match r with
      | '\x7b' :: r => literal f quote marks ('\x7b' :: '\x7b' :: written) r
      | r =>
        have _ := length_hole 0 r
        let inner := hole 0 r
        let close := if inner.closed then ['\x7d'] else []
        literal f quote marks (close ++ (code f [] inner.code ++ '\x7b' :: written)) inner.rest
    else if c = '\\' ∧ ¬marks.verbatim then
      match r with
      | e :: r => literal f quote marks (e :: c :: written) r
      | [] => c :: written
    else if c = quote then
      match r with
      | e :: r =>
        if marks.verbatim ∧ e = quote then literal f quote marks (e :: c :: written) r
        else code f (c :: written) (e :: r)
      | [] => c :: written
    else
      literal f quote marks (c :: written) r
termination_by cs => cs.length
decreasing_by
  all_goals simp only [List.length_cons]
  all_goals omega

end

/-- The code with its words replaced. -/
def apply (f : List Char → List Char) (text : String) : String :=
  String.ofList (code f [] text.toList).reverse

/-- The replacement of one word. -/
def single (old new : String) (word : List Char) : List Char :=
  if word = old.toList then new.toList else word

end ClassSugar.Renaming
