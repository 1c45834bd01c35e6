/-!
# Lines of a text

A line ends with a newline, which does not belong to it, and neither does one carriage return before
that newline. A newline at the very end of a text starts no further line, so an empty text has no
line at all.
-/

namespace ClassSugar.Text

/-- A reversed line without the carriage return at its end. -/
def dropReturn : List Char → List Char
  | '\r' :: r => r
  | line => line

/-- The lines of a text, the reversed start of the first of which was already read. -/
def linesAfter (reversed : List Char) : List Char → List (List Char)
  | [] => if reversed.isEmpty then [] else [reversed.reverse]
  | c :: r =>
    if c = '\n' then
      (dropReturn reversed).reverse :: linesAfter [] r
    else
      linesAfter (c :: reversed) r

/-- The lines of a text. -/
def lines (cs : List Char) : List (List Char) :=
  linesAfter [] cs

end ClassSugar.Text
