import ClassSugar.Source.Place
import ClassSugar.Tree.Identifier

/-!
# Code kept as it was written

Most of a source is not analysed: statements, expressions and members of no special shape are kept
as text. With the text goes the column at which it started, so that its later lines can be indented
anew, and the identifiers that occur in it, so that it can be asked which names it mentions.
-/

namespace ClassSugar

/-- A piece of code kept as text. -/
structure Verbatim where
  text : String
  /-- Where it stands in the source. -/
  span : Span
  /-- The visual column of its first character. -/
  column : Nat
  /-- The identifiers in it, in source order. -/
  idents : List String
  deriving DecidableEq, Inhabited

namespace Verbatim

/-- Text that stands in no source. -/
def made (text : String) : Verbatim :=
  ⟨text, .nowhere, 0, []⟩

/-- Whether a name occurs as an identifier. -/
def mentions (v : Verbatim) (name : String) : Bool :=
  v.idents.any (Identifier.same · name)

end Verbatim

end ClassSugar
