import ClassSugar.Command.Report
import ClassSugar.Json.Reader
import ClassSugar.Tree.Encode
import ClassSugar.Tree.Outline

/-!
# Running a command

What a command does is worked out before any of it is done: from the arguments and the files, a list
of effects and an exit code. All files are read before the first effect. Effects are then performed
in order, and the first one that fails ends the run with an error.

Files are worked on independently and at the same time. One that fails gets a line on the error output
and leaves the others alone; the exit code tells whether every file was free of errors. Where a file
cannot be parsed is shown by whoever works on it, as soon as it is known: before the first effect, but
among the files in any order. So an invocation has one script and may have several runs
(`Invocation.Yields`), of which `Invocation.run` is the one that keeps the order of the files.
-/

namespace ClassSugar.Command

/-! ### Effects -/

/-- Something that a run does. -/
inductive Effect where
  /-- Writes to the standard output. -/
  | out (text : String)
  /-- Writes to the error output. -/
  | err (text : String)
  /-- Writes a file. -/
  | save (path text : String)
  /-- Ends the run with an error. -/
  | fail (message : String)
  deriving DecidableEq, Repr, Inhabited

/-- What a run does, and its exit code if nothing fails on the way. -/
structure Script where
  /-- Written to the error output while the files are worked on, in no fixed order. -/
  notices : List String := []
  effects : List Effect
  exitCode : Nat
  deriving DecidableEq, Repr, Inhabited

/-- A run that fails at once. -/
def Script.failing (message : String) : Script :=
  { effects := [.fail message], exitCode := 1 }

/-- The line for an error that ends a run. -/
def fatalLine (message : String) : String :=
  "Error: " ++ message ++ "\n"

/-- The message about a file that cannot be written. -/
def saveFailure (path : String) : String :=
  "failed to write " ++ path

/-! ### Configuration -/

/-- Why there is no configuration. -/
inductive ConfigError where
  | unreadable (path : String)
  | invalid (path : String)
  deriving DecidableEq, Repr, Inhabited

/-- The error in words. -/
def ConfigError.message : ConfigError → String
  | .unreadable path => "failed to read config " ++ path
  | .invalid path => "invalid config " ++ path

/-- The configuration that the settings name, with the settings applied. -/
def Settings.loadConfig (s : Settings) (read : String → Except ReadError String) :
    Except ConfigError Config :=
  match s.config with
  | none => .ok (s.apply {})
  | some path =>
    match read path with
    | .error _ => .error (.unreadable path)
    | .ok text =>
      match (Json.parse? text).bind Config.ofJson? with
      | none => .error (.invalid path)
      | some config => .ok (s.apply config)

/-! ### Scripts -/

/-- Puts a text where it belongs. -/
def deliver (destination : Destination) (input text : String) : Effect :=
  match destination with
  | .standardOutput => .out text
  | .file path => .save path text
  | .directory path =>
    match Path.fileName? input with
    | some name => .save (Path.join path name) text
    | none => .fail (input ++ " has no file name")

/-- What is done for a file. -/
def fileEffects (destination : Destination) (input : String) :
    Except FileError FileReport → List Effect
  | .error e => [.err ("error: " ++ e.message ++ "\n")]
  | .ok report => [.err report.diagnostics, deliver destination input report.text]

/-- Whether a file makes the run a failure. -/
def fileFails : Except FileError FileReport → Bool
  | .error _ => true
  | .ok report => report.hasErrors

/-- What is shown about a file that cannot be parsed. -/
def fileNotice : Except FileError FileReport → String
  | .error e => e.notice
  | .ok _ => ""

/-- What is done for several files, each of which is worked on alone. -/
def filesScript (work : String → Except FileError FileReport) (destination : Destination)
    (inputs : List String) : Script :=
  let results := inputs.map fun input => (input, work input)
  { notices := results.map fun (_, result) => fileNotice result
    effects := results.flatMap fun (input, result) => fileEffects destination input result
    exitCode := if results.any fun (_, result) => fileFails result then 1 else 0 }

/-- The tree of a file, shown. -/
def showTree (unit : CompilationUnit) (json : Bool) : String :=
  (if json then unit.toJson.pretty else unit.outline.render) ++ "\n"

/-- What an action does under a configuration. -/
def Action.script (read : String → Except ReadError String) (config : Config)
    (format : DiagnosticFormat) : Action → Script
  | .desugar inputs (.file path) =>
    if 1 < inputs.length then
      .failing "--output takes a single input; use --out-dir for several"
    else
      filesScript (desugarFile read config format) (.file path) inputs
  | .desugar inputs destination => filesScript (desugarFile read config format) destination inputs
  | .check inputs => filesScript (checkFile read config format) .standardOutput inputs
  | .parse input json =>
    match loadTree read config.options.extensions input with
    | .error e => ⟨[e.notice], [.fail e.summary], 1⟩
    | .ok (_, unit) => ⟨[], [.out (showTree unit json)], 0⟩

/-- What an invocation does. -/
def Invocation.script (i : Invocation) (read : String → Except ReadError String) : Script :=
  match i.settings.loadConfig read with
  | .error e => .failing e.message
  | .ok config => i.action.script read config (i.settings.diagnostics.getD .human)

/-! ### Performing a script on a directory -/

/-- What a run has written, and the files after it. -/
structure Performed where
  exitCode : Nat
  stdout : String
  stderr : String
  directory : Directory
  deriving DecidableEq, Repr, Inhabited

namespace Performed

/-- The run ended by an error. -/
def fail (p : Performed) (message : String) : Performed :=
  { p with exitCode := 1, stderr := p.stderr ++ fatalLine message }

/-- Performs effects, the first that fails being the last. -/
def perform (p : Performed) : List Effect → Performed
  | [] => p
  | .out text :: rest => perform { p with stdout := p.stdout ++ text } rest
  | .err text :: rest => perform { p with stderr := p.stderr ++ text } rest
  | .fail message :: _ => p.fail message
  | .save path text :: rest =>
    match p.directory.write? path text with
    | some directory => perform { p with directory } rest
    | none => p.fail (saveFailure path)

end Performed

/-- Performs a script on a directory, its notices written in the order given. -/
def Script.perform (s : Script) (directory : Directory) (notices : List String) : Performed :=
  Performed.perform ⟨s.exitCode, "", String.join notices, directory⟩ s.effects

/-- Runs an invocation on a directory, the files being done with in their order. -/
def Invocation.run (i : Invocation) (directory : Directory) : Performed :=
  let script := i.script directory.read
  script.perform directory script.notices

/-- A run of the invocation may come out like this: the notices are written in some order. -/
def Invocation.Yields (i : Invocation) (directory : Directory) (p : Performed) : Prop :=
  ∃ notices, notices.Perm (i.script directory.read).notices ∧
    p = (i.script directory.read).perform directory notices

end ClassSugar.Command
