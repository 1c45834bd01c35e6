import ClassSugar.Command.Arguments
import ClassSugar.Command.Directory
import ClassSugar.Json.Printer
import ClassSugar.SourceFile

/-!
# What is reported about a file

For each file there are diagnostics and a text: the file in plain C#, or a line for each declaration
that tells which features it uses. Both are written for people or as lines of JSON. A person is told
the same thing about the same place only once.

A file that cannot be read, parsed or written gets an error in place of both. So does one whose text
would be longer than a text can be: whoever works on it panics, and nothing is left but that.
-/

namespace ClassSugar.Command

/-! ### Diagnostics -/

/-- A message about a place in a file, for people. -/
def humanMessage (f : SourceFile) (severity : Severity) (message : String)
    (span : Span) : String :=
  severity.name ++ ": " ++ message ++ "\n --> " ++ f.describe span ++ "\n"

/-- A diagnostic for people. -/
def humanDiagnostic (f : SourceFile) (d : Diagnostic) : String :=
  humanMessage f d.severity ("[" ++ d.code.text ++ "] " ++ d.message) d.span ++
    d.declaration.elim "" fun name => "  = note: in declaration `" ++ name ++ "`\n"

/-- A diagnostic as a JSON value. -/
def jsonDiagnostic (f : SourceFile) (d : Diagnostic) : Json :=
  let place := f.locate d.span
  .obj [
    ("file", .str f.name),
    ("line", .nat place.line),
    ("column", .nat place.column),
    ("severity", .str d.severity.name),
    ("code", .str d.code.text),
    ("message", .str d.message),
    ("declaration", .option .str d.declaration)]

/-- The diagnostics about a file. -/
def renderDiagnostics (format : DiagnosticFormat) (f : SourceFile) (ds : List Diagnostic) :
    String :=
  match format with
  | .human => String.join (ds.eraseDups.map (humanDiagnostic f))
  | .json => String.join (ds.map fun d => (jsonDiagnostic f d).compact ++ "\n")

/-! ### Declarations -/

/-- The features of a declaration, for people. -/
def humanReport (f : SourceFile) (r : DeclarationReport) : String :=
  let features := if r.features.isEmpty then "baseline" else r.features.describe
  let status := if r.desugared then "" else " (left unchanged)"
  f.describe r.span ++ ": " ++ r.name ++ ": " ++ features ++ status ++ "\n"

/-- The features of a declaration as a JSON value. -/
def jsonReport (f : SourceFile) (r : DeclarationReport) : Json :=
  .obj [
    ("declaration", .obj [
      ("features", .strs (r.features.toList.map Feature.name)),
      ("name", .str r.name),
      ("rewritten", .bool r.desugared)]),
    ("file", .str f.name),
    ("line", .nat (f.locate r.span).line)]

/-- The features of the declarations of a file. -/
def renderReports (format : DiagnosticFormat) (f : SourceFile) (rs : List DeclarationReport) :
    String :=
  match format with
  | .human => String.join (rs.map (humanReport f))
  | .json => String.join (rs.map fun r => (jsonReport f r).compact ++ "\n")

/-! ### Files -/

/-- Why there is nothing to report about a file. -/
inductive FileError where
  | unreadable (path : String) (cause : ReadError)
  | unparsable (file : SourceFile) (cause : ParseError)
  | unwritable (path : String) (cause : EmitError)
  /-- The worker on the file panicked. -/
  | panicked

namespace FileError

/-- What went wrong, without the cause. -/
def summary : FileError → String
  | .unreadable path _ => "failed to read " ++ path
  | .unparsable file cause => file.parseFailure cause
  | .unwritable path _ => "failed to emit " ++ path
  | .panicked => "worker thread panicked"

/-- What went wrong. -/
def message : FileError → String
  | .unreadable path cause => "failed to read " ++ path ++ ": " ++ cause.message
  | .unparsable file cause => file.parseFailure cause
  | .unwritable path cause => "failed to emit " ++ path ++ ": " ++ cause.message
  | .panicked => "worker thread panicked"

/-- Where a file cannot be parsed, and why. -/
def notice : FileError → String
  | .unparsable file cause => humanMessage file .error cause.message cause.span
  | _ => ""

end FileError

/-- What is written about a file. -/
structure FileReport where
  /-- For the standard output, or the output file. -/
  text : String
  /-- For the error output. -/
  diagnostics : String
  hasErrors : Bool
  deriving DecidableEq, Repr, Inhabited

/-- Reads a file. -/
def load (read : String → Except ReadError String) (path : String) :
    Except FileError SourceFile :=
  match read path with
  | .error e => .error (.unreadable path e)
  | .ok text => .ok ⟨path, text⟩

/-- Reads and parses a file. -/
def loadTree (read : String → Except ReadError String) (extensions : Extensions)
    (path : String) : Except FileError (SourceFile × CompilationUnit) :=
  match load read path with
  | .error e => .error e
  | .ok file =>
    match file.parse extensions with
    | .error e => .error (.unparsable file e)
    | .ok unit => .ok (file, unit)

/-- The file in plain C#. -/
def desugarFile (read : String → Except ReadError String) (config : Config)
    (format : DiagnosticFormat) (path : String) : Except FileError FileReport :=
  match loadTree read config.options.extensions path with
  | .error e => .error e
  | .ok (file, unit) =>
    let outcome := unit.desugar config.options
    if outcome.result.outgrows config.layout then
      .error .panicked
    else
      match outcome.result.emit config.layout with
      | .error e => .error (.unwritable path e)
      | .ok text =>
        .ok ⟨text, renderDiagnostics format file outcome.diagnostics, outcome.hasErrors⟩

/-- The features of the declarations of a file. -/
def checkFile (read : String → Except ReadError String) (config : Config)
    (format : DiagnosticFormat) (path : String) : Except FileError FileReport :=
  match loadTree read config.options.extensions path with
  | .error e => .error e
  | .ok (file, unit) =>
    let outcome := unit.desugar config.options
    .ok ⟨renderReports format file outcome.reports,
      renderDiagnostics format file outcome.diagnostics, outcome.hasErrors⟩

end ClassSugar.Command
