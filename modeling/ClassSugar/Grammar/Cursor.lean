import ClassSugar.Grammar.Error

/-!
# A cursor over tokens

A cursor stands between the tokens already taken and those ahead; behind the last of these stands
the end of the file, which is never taken. Moving the cursor back gives tokens back (`rewind`), and
`since` lists the tokens taken from a position on.

Comments ride on the token they precede. Taking them (`takeComments`) removes them from the token
for good, also when the cursor moves back over it.
-/

namespace ClassSugar

/-- A position in a sequence of tokens. -/
structure Cursor where
  /-- The tokens taken, the last one first. -/
  behind : List Token
  /-- The tokens ahead. -/
  ahead : List Token
  /-- The end of the file. -/
  last : Token
  deriving Inhabited

namespace Cursor

/-- The cursor before the first of the tokens of a source, the last of which is the end of the
file. -/
def ofTokens (ts : List Token) : Cursor :=
  ⟨[], ts.dropLast, ts.getLast?.getD default⟩

/-- The number of tokens taken. -/
def position (c : Cursor) : Nat :=
  c.behind.length

/-- The token ahead, which is the end of the file if there is no other. -/
def current (c : Cursor) : Token :=
  c.ahead.headD c.last

/-- Takes the next `n` tokens. -/
def advance (n : Nat) (c : Cursor) : Cursor :=
  ⟨(c.ahead.take n).reverse ++ c.behind, c.ahead.drop n, c.last⟩

/-- Moves back to an earlier position. -/
def rewind (position : Nat) (c : Cursor) : Cursor :=
  let n := c.behind.length - position
  ⟨c.behind.drop n, (c.behind.take n).reverse ++ c.ahead, c.last⟩

/-- The tokens taken from an earlier position on. -/
def since (position : Nat) (c : Cursor) : List Token :=
  (c.behind.take (c.behind.length - position)).reverse

/-- The cursor with the comments removed from the token ahead. -/
def dropComments (c : Cursor) : Cursor :=
  match c.ahead with
  | t :: ts => { c with ahead := { t with leading := [] } :: ts }
  | [] => { c with last := { c.last with leading := [] } }

@[simp] theorem ahead_advance (n : Nat) (c : Cursor) : (c.advance n).ahead = c.ahead.drop n := rfl

@[simp] theorem length_ahead_dropComments (c : Cursor) :
    c.dropComments.ahead.length = c.ahead.length := by
  unfold dropComments
  split <;> simp_all

end Cursor

end ClassSugar
