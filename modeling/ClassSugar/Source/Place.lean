/-!
# Places in a source

A source is a sequence of characters. Where a character stands is told in three ways at once: by
the number of bytes of UTF-8 before it, counted from a *base* chosen by the caller; by its line,
counted from one and ended by a newline only; and by its visual column, counted from zero, where a
tab is four columns wide wherever it stands.

`Place.advance` moves a place over a piece of text, so the laws of places are laws of a fold. Numbers
have no bound here. The program keeps positions in words of 32 bits: the ends of a span are taken
modulo 2 ^ 32 and put in order (`Span.ofWords`), and a source in which a line or a column outgrows a
word (`Place.fitsAll`) is not read at all.
-/

namespace ClassSugar

/-- A half-open range of byte offsets. -/
structure Span where
  /-- The offset of the first byte. -/
  lo : Nat
  /-- The offset after the last byte. -/
  hi : Nat
  deriving DecidableEq, Repr, Inhabited

namespace Span

/-- The span of code that stands nowhere in a source. -/
def nowhere : Span :=
  ⟨0, 0⟩

/-- The span between two positions, the smaller of which comes first. -/
def ofWords (a b : UInt32) : Span :=
  if a ≤ b then ⟨a.toNat, b.toNat⟩ else ⟨b.toNat, a.toNat⟩

end Span

/-- Where a character stands in a source. -/
structure Place where
  /-- Bytes before it, plus the base. -/
  offset : Nat
  /-- Its line, from one. -/
  line : Nat
  /-- Its visual column, from zero. -/
  column : Nat
  deriving DecidableEq, Repr, Inhabited

namespace Place

/-- The columns that a tab takes. -/
def tabWidth : Nat :=
  4

/-- The place of the first character of a source. -/
def start (base : Nat) : Place :=
  ⟨base, 1, 0⟩

/-- The place after a character that stands at `p`. -/
def step (p : Place) (c : Char) : Place where
  offset := p.offset + c.utf8Size
  line := if c = '\n' then p.line + 1 else p.line
  column := if c = '\n' then 0 else if c = '\t' then p.column + tabWidth else p.column + 1

/-- The place after a text that starts at `p`. -/
def advance (p : Place) (cs : List Char) : Place :=
  cs.foldl step p

/-- Whether line and column are numbers of 32 bits. -/
def fits (p : Place) : Bool :=
  p.line < UInt32.size && p.column < UInt32.size

/-- Whether they are so at `p` and everywhere in a text that starts at `p`. -/
def fitsAll (p : Place) : List Char → Bool
  | [] => p.fits
  | c :: r => p.fits && (p.step c).fitsAll r

@[simp] theorem advance_nil (p : Place) : p.advance [] = p := rfl

@[simp] theorem advance_cons (p : Place) (c : Char) (cs : List Char) :
    p.advance (c :: cs) = (p.step c).advance cs := rfl

@[simp] theorem advance_append (p : Place) (cs ds : List Char) :
    p.advance (cs ++ ds) = (p.advance cs).advance ds := by
  simp [advance]

end Place

end ClassSugar
