import ClassSugar.Source.Place

/-!
# Locations for a reader

A reader is told a place by file, line and column. Lines and columns count from one. A line ends
after a newline or after a carriage return that no newline follows; a line end at the very end of a
source starts no further line. Columns are counted in UTF-16 units, so that a character outside the
basic plane takes two.

A byte order mark at the start of a source belongs to no line, and a source that has nothing else
has no lines: there the line is zero. Code that stands nowhere in a source has line and column zero.
-/

namespace ClassSugar

/-- A line and a column. -/
structure Location where
  line : Nat
  column : Nat
  deriving DecidableEq, Repr, Inhabited

namespace Location

/-- The UTF-16 units of a character. -/
def units (c : Char) : Nat :=
  if c.toNat < 0x10000 then 1 else 2

/-- Whether a line ends with a character that is followed by `rest`. -/
def endsLine (c : Char) (rest : List Char) : Bool :=
  c == '\n' || (c == '\r' && rest.head? != some '\n')

/-- The location after a character that stands at `p` and is followed by `rest`. -/
def step (p : Location) (c : Char) (rest : List Char) : Location :=
  if endsLine c rest && !rest.isEmpty then ⟨p.line + 1, 1⟩ else ⟨p.line, p.column + units c⟩

/-- The location `bytes` after the start of a text that starts at `p`. -/
def advance (p : Location) (bytes : Nat) : List Char → Location
  | [] => p
  | c :: rest => if bytes = 0 then p else advance (p.step c rest) (bytes - c.utf8Size) rest

/-- The offset of the first character of a source that is located. -/
def base : Nat :=
  1

/-- The text of a source that lines are made of. -/
def lined (source : String) : List Char :=
  match source.toList with
  | c :: rest => if c.toNat = 0xFEFF then rest else c :: rest
  | [] => []

/-- The location of the first character of a text. -/
def first (text : List Char) : Location :=
  ⟨if text.isEmpty then 0 else 1, 1⟩

/-- The location of a span in a source. -/
def ofSpan (source : String) (span : Span) : Location :=
  if span = .nowhere then ⟨0, 0⟩
  else advance (first (lined source)) (span.lo - base) (lined source)

end Location

end ClassSugar
