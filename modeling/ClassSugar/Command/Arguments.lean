import ClassSugar.Options
import ClassSugar.Text.Words

/-!
# Arguments

A command line names one of three actions and the files to work on. Settings that hold for every
action may stand before or after its name; of a setting given in both places the later one counts.

The conventions are the usual ones. A long name may have its value attached by `=`; short names may
be written together, and a value may follow a short name directly. After `--` everything is an
operand. A value that starts with `-` has to be attached. No switch but `verbose` may be given twice
in the same place, and the path of a file is never empty.
-/

namespace ClassSugar.Command

/-! ### What can be asked for -/

/-- How diagnostics are written. -/
inductive DiagnosticFormat where
  | human
  | json
  deriving DecidableEq, Repr, Inhabited

/-- The settings that hold for every action. -/
structure Settings where
  /-- The file with the configuration. -/
  config : Option String := none
  noShorthand : Bool := false
  noInitializer : Bool := false
  noSingleton : Bool := false
  noNullAssertion : Bool := false
  nullable : Bool := false
  nullGuard : Option NullGuardStyle := none
  indentWidth : Option UInt64 := none
  crlf : Bool := false
  diagnostics : Option DiagnosticFormat := none
  deriving DecidableEq, Repr, Inhabited

/-- Settings, with those that are given again replaced. -/
def Settings.overriddenBy (s t : Settings) : Settings where
  config := t.config <|> s.config
  noShorthand := s.noShorthand || t.noShorthand
  noInitializer := s.noInitializer || t.noInitializer
  noSingleton := s.noSingleton || t.noSingleton
  noNullAssertion := s.noNullAssertion || t.noNullAssertion
  nullable := s.nullable || t.nullable
  nullGuard := t.nullGuard <|> s.nullGuard
  indentWidth := t.indentWidth <|> s.indentWidth
  crlf := s.crlf || t.crlf
  diagnostics := t.diagnostics <|> s.diagnostics

/-- The configuration with the settings applied. -/
def Settings.apply (s : Settings) (c : Config) : Config where
  options := {
    extensions := {
      propertyShorthand := c.options.extensions.propertyShorthand && !s.noShorthand
      unnamedInitializer := c.options.extensions.unnamedInitializer && !s.noInitializer
      singleton := c.options.extensions.singleton && !s.noSingleton
      nullAssertion := c.options.extensions.nullAssertion && !s.noNullAssertion }
    nullableContext := c.options.nullableContext || s.nullable
    nullGuard := s.nullGuard.getD c.options.nullGuard }
  layout := {
    indentWidth := s.indentWidth.getD c.layout.indentWidth
    lineEnd := if s.crlf then .crlf else c.layout.lineEnd }

/-- Where desugared files go. -/
inductive Destination where
  | standardOutput
  | file (path : String)
  /-- Each into a directory, under its own name. -/
  | directory (path : String)
  deriving DecidableEq, Repr, Inhabited

/-- What is to be done. -/
inductive Action where
  | desugar (inputs : List String) (destination : Destination)
  | check (inputs : List String)
  /-- Show the tree of a file, as JSON or in outline. -/
  | parse (input : String) (json : Bool)
  deriving DecidableEq, Repr, Inhabited

/-- What is to be done, and how. -/
structure Invocation where
  settings : Settings
  action : Action
  deriving DecidableEq, Repr, Inhabited

/-- What a command line asks for. -/
inductive Request where
  | run (invocation : Invocation)
  | help
  deriving DecidableEq, Repr, Inhabited

/-- Why a command line is not understood. -/
inductive UsageError where
  | missingCommand
  | unknownCommand (name : String)
  | unknownArgument (arg : String)
  | missingValue (name : String)
  | unexpectedValue (name : String)
  | invalidValue (name value : String)
  | repeated (name : String)
  | conflict (one other : String)
  | missingInput
  | unexpectedInput (path : String)
  deriving DecidableEq, Repr, Inhabited

/-- The error in words. -/
def UsageError.message : UsageError → String
  | .missingCommand => "a command is required: desugar, check or parse"
  | .unknownCommand name => s!"unknown command `{name}`"
  | .unknownArgument arg => s!"unexpected argument `{arg}`"
  | .missingValue name => s!"a value is required for `{name}`"
  | .unexpectedValue name => s!"`{name}` takes no value"
  | .invalidValue name value => s!"invalid value `{value}` for `{name}`"
  | .repeated name => s!"`{name}` cannot be used multiple times"
  | .conflict one other => s!"`{one}` cannot be used with `{other}`"
  | .missingInput => "an input file is required"
  | .unexpectedInput path => s!"unexpected input file `{path}`"

/-! ### Switches -/

/-- What can be given by name. -/
inductive Switch where
  | config
  | noShorthand
  | noInitializer
  | noSingleton
  | noNullAssertion
  | nullable
  | nullGuard
  | indentWidth
  | crlf
  | diagnostics
  | verbose
  | help
  | output
  | outDir
  | ast
  deriving DecidableEq, Repr, Inhabited

namespace Switch

/-- The switches that are understood everywhere. -/
def everywhere : List Switch :=
  [.config, .noShorthand, .noInitializer, .noSingleton, .noNullAssertion, .nullable, .nullGuard,
   .indentWidth, .crlf, .diagnostics, .verbose, .help]

/-- The long name of a switch. -/
def name : Switch → String
  | .config => "config"
  | .noShorthand => "no-shorthand"
  | .noInitializer => "no-initializer"
  | .noSingleton => "no-singleton"
  | .noNullAssertion => "no-null-assertion"
  | .nullable => "nullable"
  | .nullGuard => "null-guard"
  | .indentWidth => "indent-width"
  | .crlf => "crlf"
  | .diagnostics => "diagnostics"
  | .verbose => "verbose"
  | .help => "help"
  | .output => "output"
  | .outDir => "out-dir"
  | .ast => "ast"

/-- The short name of a switch. -/
def letter? : Switch → Option Char
  | .verbose => some 'v'
  | .help => some 'h'
  | .output => some 'o'
  | _ => none

/-- Whether a switch has a value. -/
def takesValue : Switch → Bool
  | .config | .nullGuard | .indentWidth | .diagnostics | .output | .outDir => true
  | _ => false

end Switch

/-- An argument that was understood. -/
inductive Given where
  | flag (switch : Switch)
  | value (switch : Switch) (value : String)
  | operand (text : String)
  deriving DecidableEq, Repr, Inhabited

/-- The switch that was given. -/
def Given.switch? : Given → Option Switch
  | .flag s => some s
  | .value s _ => some s
  | .operand _ => none

/-! ### Scanning -/

/-- Whether an argument is a switch, or several. A lone dash is an operand. -/
def isSwitch (arg : String) : Bool :=
  match arg.toList with
  | '-' :: _ :: _ => true
  | _ => false

/-- The arguments that one word gives, and the switch that still waits for its value. -/
structure Scanned where
  given : List Given
  waiting : Option Switch := none
  deriving DecidableEq, Repr, Inhabited

/-- A long name with what may be attached to it. -/
def scanLong (known : List Switch) (text : List Char) : Except UsageError Scanned :=
  let name := String.ofList (text.takeWhile (· != '='))
  match known.find? fun s => s.name == name, text.dropWhile (· != '=') with
  | none, _ => .error (.unknownArgument ("--" ++ name))
  | some s, [] => if s.takesValue then .ok ⟨[], some s⟩ else .ok ⟨[.flag s], none⟩
  | some s, _ :: value =>
    if s.takesValue then .ok ⟨[.value s (String.ofList value)], none⟩
    else .error (.unexpectedValue ("--" ++ name))

/-- Short names written together; the value of one takes up the rest. -/
def scanShort (known : List Switch) : List Char → Except UsageError Scanned
  | [] => .ok ⟨[], none⟩
  | c :: rest =>
    match known.find? fun s => s.letter? == some c with
    | none => .error (.unknownArgument (String.ofList ['-', c]))
    | some s =>
      if s.takesValue then
        match rest with
        | [] => .ok ⟨[], some s⟩
        | '=' :: value => .ok ⟨[.value s (String.ofList value)], none⟩
        | value => .ok ⟨[.value s (String.ofList value)], none⟩
      else
        (scanShort known rest).map fun more => { more with given := .flag s :: more.given }

/-- One word that is a switch, or several. -/
def scanWord (known : List Switch) (arg : String) : Except UsageError Scanned :=
  match arg.toList with
  | '-' :: '-' :: text => scanLong known text
  | '-' :: text => scanShort known text
  | _ => .ok ⟨[.operand arg], none⟩

/-- The arguments up to the first operand, and what follows from that operand on. With `operands`,
all arguments: operands may stand between switches. -/
def scan (known : List Switch) (operands : Bool) :
    List String → Except UsageError (List Given × List String)
  | [] => .ok ([], [])
  | "--" :: rest =>
    if operands then .ok (rest.map .operand, [])
    else
      match rest with
      | [] => .ok ([], [])
      | arg :: _ => .error (.unknownArgument arg)
  | arg :: rest =>
    if isSwitch arg then
      match scanWord known arg with
      | .error e => .error e
      | .ok scanned =>
        match scanned.waiting, rest with
        | none, rest => (scan known operands rest).map fun (more, left) =>
          (scanned.given ++ more, left)
        | some s, [] => .error (.missingValue ("--" ++ s.name))
        | some s, value :: rest =>
          if isSwitch value then .error (.missingValue ("--" ++ s.name))
          else (scan known operands rest).map fun (more, left) =>
            (scanned.given ++ .value s value :: more, left)
    else if operands then
      (scan known operands rest).map fun (more, left) => (.operand arg :: more, left)
    else
      .ok ([], arg :: rest)

/-! ### Understanding -/

/-- The first switch that is given twice, `verbose` aside. -/
def repeated? : List Given → Option Switch
  | [] => none
  | g :: rest =>
    match g.switch? with
    | some s =>
      if s != .verbose && rest.any fun h => h.switch? == some s then some s else repeated? rest
    | none => repeated? rest

/-- A number in decimal digits, with a plus sign if one likes, that fits in 64 bits. -/
def width? (text : String) : Option UInt64 :=
  let digits := match text.toList with
    | '+' :: r => r
    | r => r
  if digits.isEmpty || !digits.all Char.isDigit then none
  else
    let n := digits.foldl (fun n d => n * 10 + (d.toNat - 0x30)) 0
    if n < UInt64.size then some (.ofNat n) else none

/-- The format with a name. -/
def DiagnosticFormat.ofName? : String → Option DiagnosticFormat
  | "human" => some .human
  | "json" => some .json
  | _ => none

/-- The value of a switch, decoded. -/
def decoded {α : Type} (s : Switch) (value : String) (decode : String → Option α) :
    Except UsageError α :=
  match decode value with
  | some a => .ok a
  | none => .error (.invalidValue ("--" ++ s.name) value)

/-- A path, which is not empty. -/
def path? (text : String) : Option String :=
  if text.isEmpty then none else some text

/-- The settings with one argument applied. What is no setting is passed over. -/
def Settings.add (t : Settings) : Given → Except UsageError Settings
  | .flag .noShorthand => .ok { t with noShorthand := true }
  | .flag .noInitializer => .ok { t with noInitializer := true }
  | .flag .noSingleton => .ok { t with noSingleton := true }
  | .flag .noNullAssertion => .ok { t with noNullAssertion := true }
  | .flag .nullable => .ok { t with nullable := true }
  | .flag .crlf => .ok { t with crlf := true }
  | .value .config v =>
    (decoded .config v path?).map fun a => { t with config := some a }
  | .value .nullGuard v =>
    (decoded .nullGuard v NullGuardStyle.ofName?).map fun a => { t with nullGuard := some a }
  | .value .indentWidth v =>
    (decoded .indentWidth v width?).map fun a => { t with indentWidth := some a }
  | .value .diagnostics v =>
    (decoded .diagnostics v DiagnosticFormat.ofName?).map fun a => { t with diagnostics := some a }
  | _ => .ok t

/-- The settings that arguments make. -/
def Settings.ofGiven (given : List Given) : Except UsageError Settings :=
  match repeated? given with
  | some s => .error (.repeated ("--" ++ s.name))
  | none => given.foldlM Settings.add {}

/-- The paths among arguments. -/
def operands (given : List Given) : Except UsageError (List String) :=
  (given.filterMap fun g =>
    match g with
    | .operand text => some text
    | _ => none).mapM fun text =>
      match path? text with
      | some path => .ok path
      | none => .error (.invalidValue "input" text)

/-- The path that a switch gives. -/
def pathOf (s : Switch) (given : List Given) : Except UsageError (Option String) :=
  match given.findSome? fun g => match g with
    | .value t v => if t = s then some v else none
    | _ => none with
  | none => .ok none
  | some v => (decoded s v path?).map some

/-- The actions by name. -/
inductive ActionName where
  | desugar
  | check
  | parse
  deriving DecidableEq, Repr, Inhabited

namespace ActionName

/-- The action with a name. -/
def ofName? : String → Option ActionName
  | "desugar" => some .desugar
  | "check" => some .check
  | "parse" => some .parse
  | _ => none

/-- The switches that an action understands. -/
def switches : ActionName → List Switch
  | .desugar => Switch.everywhere ++ [.output, .outDir]
  | .check => Switch.everywhere
  | .parse => Switch.everywhere ++ [.ast]

/-- The action that arguments describe. -/
def action (name : ActionName) (given : List Given) : Except UsageError Action := do
  let paths ← operands given
  match name, paths with
  | _, [] => .error .missingInput
  | .check, inputs => .ok (.check inputs)
  | .parse, [input] => .ok (.parse input (given.contains (.flag .ast)))
  | .parse, _ :: second :: _ => .error (.unexpectedInput second)
  | .desugar, inputs =>
    match ← pathOf .output given, ← pathOf .outDir given with
    | none, none => .ok (.desugar inputs .standardOutput)
    | some file, none => .ok (.desugar inputs (.file file))
    | none, some directory => .ok (.desugar inputs (.directory directory))
    | some _, some _ => .error (.conflict "--output" "--out-dir")

end ActionName

/-- Whether help is asked for. -/
def asksHelp (given : List Given) : Bool :=
  given.contains (.flag .help)

/-- What a request for help about commands asks for. -/
def helpRequest : List String → Except UsageError Request
  | [] => .ok .help
  | ["help"] => .ok .help
  | [name] => if (ActionName.ofName? name).isSome then .ok .help else .error (.unknownCommand name)
  | _ :: second :: _ => .error (.unknownCommand second)

/-- What a command line asks for. -/
def Request.ofArguments (args : List String) : Except UsageError Request := do
  let (before, rest) ← scan Switch.everywhere false args
  let general ← Settings.ofGiven before
  if asksHelp before then
    return .help
  match rest with
  | [] => .error .missingCommand
  | "help" :: rest => helpRequest rest
  | command :: rest =>
    match ActionName.ofName? command with
    | none => .error (.unknownCommand command)
    | some name =>
      let (given, _) ← scan name.switches true rest
      let settings ← Settings.ofGiven given
      if asksHelp given then
        return .help
      return .run ⟨general.overriddenBy settings, ← name.action given⟩

end ClassSugar.Command
