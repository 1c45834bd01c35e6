import ClassSugar.Desugar.Outcome
import ClassSugar.Grammar.CompilationUnit
import ClassSugar.Page.Emit
import ClassSugar.Source.Location

/-!
# Source files

A source file is a name and a text. Reading, desugaring and writing it are put together here, and
what is reported about it is given the location in the file.
-/

namespace ClassSugar

/-- A source with the name of its file. -/
structure SourceFile where
  name : String
  text : String
  deriving DecidableEq, Repr, Inhabited

namespace SourceFile

/-- Where a span lies in the file. -/
def locate (f : SourceFile) (span : Span) : Location :=
  .ofSpan f.text span

/-- Where a span lies, in words. -/
def describe (f : SourceFile) (span : Span) : String :=
  let place := f.locate span
  s!"{f.name}:{place.line}:{place.column}"

/-- The tree of the file. -/
def parse (f : SourceFile) (extensions : Extensions) : Except ParseError CompilationUnit :=
  CompilationUnit.parse extensions f.text Location.base

/-- Why the file has no tree, in words. -/
def parseFailure (f : SourceFile) (e : ParseError) : String :=
  "failed to parse " ++ f.describe e.span ++ ": " ++ e.message

/-- The file in plain C#: the outcome of desugaring, and its text. -/
def desugar (f : SourceFile) (config : Config) :
    Except ParseError (Outcome (Except EmitError String)) :=
  (f.parse config.options.extensions).map fun unit =>
    (unit.desugar config.options).map (CompilationUnit.emit config.layout)

end SourceFile

end ClassSugar
