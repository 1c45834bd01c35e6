import ClassSugar.Command.Run

/-!
# The command line

Reads the files that the arguments name, works out what is to be done, and does it.
-/

namespace ClassSugar.Command

/-- How the command is used. -/
def usage : String :=
  String.intercalate "\n" [
    "C# with syntax extensions, desugared",
    "",
    "  desugar INPUT... [-o FILE | --out-dir DIR]   write plain C#",
    "  check INPUT...                               report the features of each declaration",
    "  parse INPUT [--ast]                          show the tree",
    "",
    "  --config FILE             read options from a JSON file",
    "  --no-shorthand            capitalized parameters declare no properties",
    "  --no-initializer          loose statements are no initializer",
    "  --no-singleton            `singleton` is no modifier",
    "  --no-null-assertion       null assertions are not understood",
    "  --nullable                only types written with `?` admit null",
    "  --null-guard STYLE        throw-if-null or if-throw",
    "  --indent-width N          spaces for a level of indentation",
    "  --crlf                    end lines with a carriage return and a newline",
    "  --diagnostics FORMAT      human or json",
    "  -v, --verbose             more logging",
    "  -h, --help                this text",
    ""]

/-- The error that a system reports. -/
def ReadError.ofSystem : IO.Error → ReadError
  | .noFileOrDirectory .. => .notFound
  | .inappropriateType _ code _ => if code = 21 then .isDirectory else .notDirectory
  | .invalidArgument .. => .nameTooLong
  | .userError _ => .notText
  | e => .other (toString e)

/-- Reads a file. -/
def readFile (path : String) : IO (Except ReadError String) := do
  try
    return .ok (← IO.FS.readFile path)
  catch e =>
    return .error (.ofSystem e)

/-- The files that an invocation reads. -/
def Invocation.paths (i : Invocation) : List String :=
  i.settings.config.toList ++
    match i.action with
    | .desugar inputs _ => inputs
    | .check inputs => inputs
    | .parse input _ => [input]

/-- Performs effects, the first that fails being the last. -/
def performAll (exitCode : Nat) : List Effect → IO Nat
  | [] => return exitCode
  | .out text :: rest => do
    IO.print text
    performAll exitCode rest
  | .err text :: rest => do
    IO.eprint text
    performAll exitCode rest
  | .fail message :: _ => do
    IO.eprint (fatalLine message)
    return 1
  | .save path text :: rest => do
    try
      IO.FS.writeFile path text
    catch _ =>
      IO.eprint (fatalLine (saveFailure path))
      return 1
    performAll exitCode rest

end ClassSugar.Command

open ClassSugar.Command in
/-- Runs the command. -/
def main (args : List String) : IO UInt32 := do
  match Request.ofArguments args with
  | .error e =>
    IO.eprintln ("error: " ++ e.message)
    IO.eprint usage
    return 2
  | .ok .help =>
    IO.print usage
    return 0
  | .ok (.run invocation) =>
    let files ← invocation.paths.mapM fun path => return (path, ← readFile path)
    let script := invocation.script fun path =>
      (files.lookup path).getD (.error .notFound)
    script.notices.forM IO.eprint
    return (← performAll script.exitCode script.effects).toUInt32
