import ClassSugar.Command.Run
import ClassSugar.Proofs.Emission
import ClassSugar.Proofs.SourceText

/-!
# What checking foretells of desugaring

To check files and to desugar them to the standard output are two commands that work on each file in
their own way: one lists its declarations, the other writes it. A file adds its own share to a run and
nothing else does (`Shown.yields_iff`): a notice, a text, lines on the error output, and whether the
run has failed. A run is the shares of its files put together in their order, the notices aside, which
whoever works on a file writes when it gets there. So a file that fails takes nothing away from
another, whatever the order was.

The shares that a file has in the two commands differ in the text only, with one exception. Of the
errors about a file two are met by desugaring alone. That a tree cannot be written never comes up
(`exists_emit_of_loadTree`). That its text is longer than a text can be does come up: the indentation
may be as wide as one likes, and only desugaring writes it. Then checking accepts the file and
desugaring panics over it (`desugarFile_eq`), and the two commands end differently unless the run has
failed anyway.
-/

namespace ClassSugar.Command

/-! ### Effects that only write texts -/

namespace Effect

/-- Whether all that an effect does is to write to one of the outputs. -/
def isText : Effect → Bool
  | .out _ | .err _ => true
  | .save _ _ | .fail _ => false

/-- What an effect adds to the standard output. -/
def outText : Effect → String
  | .out text => text
  | _ => ""

/-- What an effect adds to the error output, the line of a failure aside. -/
def errText : Effect → String
  | .err text => text
  | _ => ""

end Effect

namespace Performed

/-- A run with the texts of effects written. -/
def add (p : Performed) (effects : List Effect) : Performed :=
  { p with
    stdout := p.stdout ++ String.join (effects.map Effect.outText)
    stderr := p.stderr ++ String.join (effects.map Effect.errText) }

/-- Effects that only write texts are all performed. -/
theorem perform_of_isText (p : Performed) {effects : List Effect}
    (h : ∀ effect ∈ effects, effect.isText = true) : p.perform effects = p.add effects := by
  induction effects generalizing p with
  | nil => simp [add, perform]
  | cons effect effects ih =>
    rw [List.forall_mem_cons] at h
    -- A text makes one of the outputs longer, and the rest is performed on that.
    cases effect with
    | out text | err text =>
      rw [perform, ih _ h.2]
      simp [add, Effect.outText, Effect.errText, String.append_assoc]
    | save path text | fail message => exact absurd h.1 Bool.false_ne_true

end Performed

/-! ### Shares -/

/-- What one file adds to a run that shows the texts of its files. -/
structure Share where
  /-- Shown before any other lines about any file. -/
  notice : String
  text : String
  errors : String
  failed : Bool
  deriving DecidableEq, Repr

namespace Share

/-- The share of a file that was worked on. -/
def of : Except FileError FileReport → Share
  | .error e => ⟨e.notice, "", "error: " ++ e.message ++ "\n", true⟩
  | .ok report => ⟨"", report.text, report.diagnostics, report.hasErrors⟩

/-- The share of a file over which whoever works on it panics. -/
def panicked : Share :=
  ⟨"", "", "error: worker thread panicked\n", true⟩

end Share

/-- A run that is made of the shares of its files, the notices being written in the order given. -/
def Performed.ofShares (directory : Directory) (notices : List String) (shares : List Share) :
    Performed where
  exitCode := if shares.any Share.failed then 1 else 0
  stdout := String.join (shares.map Share.text)
  stderr := String.join notices ++ String.join (shares.map Share.errors)
  directory := directory

/-- A run is made of the shares, in an order of their notices. -/
def Performed.IsOfShares (p : Performed) (directory : Directory) (shares : List Share) : Prop :=
  ∃ notices, notices.Perm (shares.map Share.notice) ∧ p = .ofShares directory notices shares

section Effects

variable (work : String → Except FileError FileReport) (inputs : List String)

theorem isText_fileEffects (input : String) (result : Except FileError FileReport) :
    ∀ effect ∈ fileEffects .standardOutput input result, effect.isText = true := by
  cases result <;> simp [fileEffects, deliver, Effect.isText]

/-- What is done for all files. -/
theorem add_fileEffects (p : Performed) :
    p.add (inputs.flatMap fun input => fileEffects .standardOutput input (work input)) =
      { p with
        stdout := p.stdout ++ String.join (inputs.map fun input => (Share.of (work input)).text)
        stderr := p.stderr ++ String.join (inputs.map fun input => (Share.of (work input)).errors) }
    := by
  have hout : ∀ input, String.join ((fileEffects .standardOutput input (work input)).map
      Effect.outText) = (Share.of (work input)).text := by
    intro input
    cases work input <;> simp [fileEffects, deliver, Effect.outText, Share.of]
  have herr : ∀ input, String.join ((fileEffects .standardOutput input (work input)).map
      Effect.errText) = (Share.of (work input)).errors := by
    intro input
    cases work input <;> simp [fileEffects, deliver, Effect.errText, Share.of]
  -- What all effects add is what those of each file add, joined in the order of the files.
  have hjoin : ∀ (f : Effect → String) (g : String → String),
      (∀ input, String.join ((fileEffects .standardOutput input (work input)).map f) = g input) →
      String.join ((inputs.flatMap fun input =>
        fileEffects .standardOutput input (work input)).map f) = String.join (inputs.map g) := by
    intro f g hg
    induction inputs with
    | nil => rfl
    | cons input rest ih =>
      rw [List.flatMap_cons, List.map_append, String.join_append, hg, ih, List.map_cons,
        String.join_cons]
  simp only [Performed.add, hjoin _ _ hout, hjoin _ _ herr]

/-- **A run that shows its texts is made of the shares of its files.** -/
theorem perform_filesScript (directory : Directory) (notices : List String) :
    (filesScript work .standardOutput inputs).perform directory notices =
      .ofShares directory notices (inputs.map fun input => .of (work input)) := by
  have hfails : ∀ result, fileFails result = (Share.of result).failed := fun result => by
    cases result <;> rfl
  simp only [Script.perform, filesScript, List.flatMap_map, List.any_map, Function.comp_def]
  rw [Performed.perform_of_isText _ (by
      intro effect heffect
      obtain ⟨input, -, heffect⟩ := List.mem_flatMap.mp heffect
      exact isText_fileEffects input _ effect heffect),
    add_fileEffects]
  simp only [Performed.ofShares, List.map_map, List.any_map, Function.comp_def, hfails,
    String.empty_append]

theorem notices_filesScript (destination : Destination) :
    (filesScript work destination inputs).notices =
      (inputs.map fun input => Share.of (work input)).map Share.notice := by
  simp only [filesScript, List.map_map, Function.comp_def]
  refine List.map_congr_left fun input _ => ?_
  cases work input <;> rfl

end Effects

/-! ### The two commands on one file -/

section Files

variable {read : String → Except ReadError String} {config : Config} {format : DiagnosticFormat}
  {path : String}

theorem parse_of_loadTree {extensions : Extensions} {file : SourceFile} {unit : CompilationUnit}
    (h : loadTree read extensions path = .ok (file, unit)) : file.parse extensions = .ok unit := by
  unfold loadTree at h
  split at h
  · cases h
  · split at h
    · cases h
    · rename_i hparse
      cases h
      exact hparse

/-- A file that was parsed can be written once it is desugared. -/
theorem exists_emit_of_loadTree {file : SourceFile} {unit : CompilationUnit}
    (h : loadTree read config.options.extensions path = .ok (file, unit)) :
    ∃ text, (unit.desugar config.options).result.emit config.layout = .ok text := by
  -- Either the marks are understood and taken out, or none was read.
  have hmarks : config.options.extensions.nullAssertion = true ∨
      ∀ item ∈ unit.items, item.Everywhere Declaration.MarkFree := by
    cases hon : config.options.extensions.nullAssertion with
    | true => exact .inl rfl
    | false => exact .inr (CompilationUnit.parse_markFree hon (parse_of_loadTree h))
  obtain ⟨rows, hrows⟩ := Emit.items_isOk none _
    (@Item.isPlain_desugarAll config.options unit.importsSystem unit.items hmarks)
  exact ⟨Row.render config.layout rows, congrArg (Except.map (Row.render config.layout)) hrows⟩

/-- The file can be read and parsed, and its text in plain C# is longer than a text can be. -/
def Outgrows (read : String → Except ReadError String) (config : Config) (path : String) : Prop :=
  ∃ file unit, loadTree read config.options.extensions path = .ok (file, unit) ∧
    (unit.desugar config.options).result.outgrows config.layout = true

/-- **What desugaring makes of a file that is checked**: it panics if the text grows too long, and
otherwise says the same. -/
theorem desugarFile_eq {report : FileReport} (h : checkFile read config format path = .ok report) :
    (Outgrows read config path ∧ desugarFile read config format path = .error .panicked) ∨
      (¬ Outgrows read config path ∧
        ∃ text, desugarFile read config format path = .ok { report with text := text }) := by
  unfold checkFile at h
  unfold desugarFile Outgrows
  cases hload : loadTree read config.options.extensions path with
  | error e =>
    rw [hload] at h
    cases h
  | ok loaded =>
    obtain ⟨file, unit⟩ := loaded
    obtain ⟨text, htext⟩ := exists_emit_of_loadTree hload
    rw [hload] at h
    cases h
    cases hlong : (unit.desugar config.options).result.outgrows config.layout with
    | true => exact .inl ⟨⟨file, unit, rfl, hlong⟩, by simp only [hlong, ↓reduceIte]⟩
    | false =>
      refine .inr ⟨?_, text, by simp only [hlong, htext, Bool.false_eq_true, ↓reduceIte]⟩
      rintro ⟨file', unit', hunit, htrue⟩
      cases hunit
      rw [hlong] at htrue
      cases htrue

/-- What cannot be checked cannot be desugared, for the same reason. -/
theorem desugarFile_eq_error {e : FileError}
    (h : checkFile read config format path = .error e) :
    desugarFile read config format path = .error e ∧ ¬ Outgrows read config path := by
  unfold checkFile at h
  unfold desugarFile Outgrows
  cases hload : loadTree read config.options.extensions path with
  | error e' =>
    rw [hload] at h
    cases h
    exact ⟨rfl, nofun⟩
  | ok loaded =>
    rw [hload] at h
    cases h

/-- A file has the same share in both commands, the text aside, unless desugaring panics over it and
checking does not. -/
theorem share_desugarFile :
    (Outgrows read config path ∧ Share.of (desugarFile read config format path) = .panicked) ∨
    (¬ Outgrows read config path ∧ ∃ text, Share.of (desugarFile read config format path) =
      { Share.of (checkFile read config format path) with text := text }) := by
  cases hcheck : checkFile read config format path with
  | error e =>
    obtain ⟨hdesugar, hnot⟩ := desugarFile_eq_error hcheck
    exact .inr ⟨hnot, "", by rw [hdesugar]; rfl⟩
  | ok report =>
    rcases desugarFile_eq hcheck with ⟨hlong, hdesugar⟩ | ⟨hnot, text, hdesugar⟩
    · exact .inl ⟨hlong, by rw [hdesugar]; rfl⟩
    · exact .inr ⟨hnot, text, by rw [hdesugar]; rfl⟩

theorem failed_desugarFile_iff :
    (Share.of (desugarFile read config format path)).failed = true ↔
      Outgrows read config path ∨ (Share.of (checkFile read config format path)).failed = true := by
  rcases @share_desugarFile read config format path with ⟨hlong, hshare⟩ | ⟨hnot, text, hshare⟩
  · simp [hshare, hlong, Share.panicked]
  · simp [hshare, hnot]

end Files

/-! ### Runs of the two commands -/

/-- The commands that show what they make of each file. -/
inductive Shown where
  | check
  | desugar
  deriving DecidableEq, Repr

namespace Shown

/-- The action of a command on files. -/
def action : Shown → List String → Action
  | .check, inputs => .check inputs
  | .desugar, inputs => .desugar inputs .standardOutput

/-- What a command makes of a file. -/
def work (directory : Directory) (config : Config) (format : DiagnosticFormat) :
    Shown → String → Except FileError FileReport
  | .check => checkFile directory.read config format
  | .desugar => desugarFile directory.read config format

/-- A run of a command on files may come out like this. -/
def Yields (command : Shown) (settings : Settings) (directory : Directory) (inputs : List String)
    (p : Performed) : Prop :=
  Invocation.Yields ⟨settings, command.action inputs⟩ directory p

variable (command : Shown) {settings : Settings} {directory : Directory}

/-- Without a configuration nothing is done. -/
theorem yields_iff_of_error {e : ConfigError} (h : settings.loadConfig directory.read = .error e)
    (inputs : List String) (p : Performed) :
    command.Yields settings directory inputs p ↔ p = ⟨1, "", fatalLine e.message, directory⟩ := by
  unfold Yields Invocation.Yields Invocation.script
  rw [h]
  simp [Script.failing, Script.perform, Performed.perform, Performed.fail]

theorem yields_iff {config : Config} (h : settings.loadConfig directory.read = .ok config)
    (inputs : List String) (p : Performed) :
    command.Yields settings directory inputs p ↔ p.IsOfShares directory (inputs.map fun input =>
      .of (command.work directory config (settings.diagnostics.getD .human) input)) := by
  unfold Yields Invocation.Yields Invocation.script Performed.IsOfShares
  rw [h]
  cases command with
  | check | desugar =>
    refine exists_congr fun notices => ?_
    rw [← perform_filesScript, ← notices_filesScript _ _ .standardOutput]
    rfl

end Shown

section Runs

variable {settings : Settings} {directory : Directory} {config : Config}

/-- The share of a file in the run of a command. -/
def Shown.share (command : Shown) (settings : Settings) (directory : Directory) (config : Config)
    (input : String) : Share :=
  .of (command.work directory config (settings.diagnostics.getD .human) input)

/-- **Where the exit codes agree.** -/
theorem exitCode_eq_iff {inputs : List String} {p q : Performed}
    (hp : p.IsOfShares directory (inputs.map (Shown.desugar.share settings directory config)))
    (hq : q.IsOfShares directory (inputs.map (Shown.check.share settings directory config))) :
    p.exitCode = q.exitCode ↔
      q.exitCode = 1 ∨ ∀ input ∈ inputs, ¬ Outgrows directory.read config input := by
  obtain ⟨n, -, rfl⟩ := hp
  obtain ⟨m, -, rfl⟩ := hq
  have hiff : (inputs.map (Shown.desugar.share settings directory config)).any Share.failed = true ↔
      (∃ input ∈ inputs, Outgrows directory.read config input) ∨
        (inputs.map (Shown.check.share settings directory config)).any Share.failed = true := by
    simp only [List.any_map, List.any_eq_true, Function.comp_apply, ← exists_or, ← and_or_left]
    exact exists_congr fun input => and_congr_right fun _ => failed_desugarFile_iff
  unfold Performed.ofShares
  dsimp only
  by_cases hcheck :
      (inputs.map (Shown.check.share settings directory config)).any Share.failed = true
  · simp [hcheck, hiff.mpr (.inr hcheck)]
  · by_cases hlong : ∃ input ∈ inputs, Outgrows directory.read config input
    · rw [if_pos (hiff.mpr (.inl hlong)), if_neg hcheck]
      obtain ⟨input, hinput, hlong⟩ := hlong
      simpa using ⟨input, hinput, hlong⟩
    · rw [if_neg (mt hiff.mp (not_or.mpr ⟨hlong, hcheck⟩)), if_neg hcheck]
      simpa using hlong

/-- Where no text grows too long, the two commands write the same to the error output. -/
theorem stderr_eq {inputs : List String} {p q : Performed}
    (hnot : ∀ input ∈ inputs, ¬ Outgrows directory.read config input)
    (hp : p.IsOfShares directory (inputs.map (Shown.desugar.share settings directory config)))
    (hq : q.IsOfShares directory (inputs.map (Shown.check.share settings directory config))) :
    ∃ notices notices' lines, notices.Perm notices' ∧
      p.stderr = String.join notices ++ lines ∧ q.stderr = String.join notices' ++ lines := by
  obtain ⟨n, hn, rfl⟩ := hp
  obtain ⟨m, hm, rfl⟩ := hq
  have hsame : ∀ input ∈ inputs, ∃ text, Shown.desugar.share settings directory config input =
      { Shown.check.share settings directory config input with text := text } :=
    fun input hinput => (share_desugarFile.resolve_left fun h => hnot input hinput h.1).2
  have hnotices : (inputs.map (Shown.desugar.share settings directory config)).map Share.notice =
      (inputs.map (Shown.check.share settings directory config)).map Share.notice := by
    rw [List.map_map, List.map_map]
    refine List.map_congr_left fun input hinput => ?_
    obtain ⟨text, htext⟩ := hsame input hinput
    simp only [Function.comp_apply, htext]
  have herrors : (inputs.map (Shown.desugar.share settings directory config)).map Share.errors =
      (inputs.map (Shown.check.share settings directory config)).map Share.errors := by
    rw [List.map_map, List.map_map]
    refine List.map_congr_left fun input hinput => ?_
    obtain ⟨text, htext⟩ := hsame input hinput
    simp only [Function.comp_apply, htext]
  refine ⟨n, m, _, hn.trans (hnotices ▸ hm.symm), rfl, ?_⟩
  rw [herrors]
  rfl

/-- A file without a text can be left out as far as the standard output is concerned. -/
theorem stdout_eq_of_drop {s : Share} (h : s.text = "") {before after : List Share}
    {p q : Performed} (hp : p.IsOfShares directory (before ++ s :: after))
    (hq : q.IsOfShares directory (before ++ after)) : p.stdout = q.stdout := by
  obtain ⟨n, -, rfl⟩ := hp
  obtain ⟨m, -, rfl⟩ := hq
  simp [Performed.ofShares, h]

end Runs

/-- What checking files tells about desugaring them, under a configuration. -/
structure Foretells (settings : Settings) (directory : Directory) (config : Config)
    (work : Shown → String → Except FileError FileReport) : Prop where
  /-- A file that is accepted can be desugared, and there is the same to be said about it, unless its
  text is longer than a text can be. -/
  accepted : ∀ input report, work .check input = .ok report →
    ¬ Outgrows directory.read config input →
    ∃ text, work .desugar input = .ok { report with text := text }
  /-- Over such a file desugaring panics. Checking accepts it. -/
  outgrown : ∀ input, Outgrows directory.read config input →
    work .desugar input = .error .panicked ∧ ∃ report, work .check input = .ok report
  /-- A file that cannot be checked cannot be desugared, for the same reason. -/
  refused : ∀ input e, work .check input = .error e → work .desugar input = .error e
  /-- A run is made of what each file adds to it, in the order of the files; only the notices may come
  in another one. -/
  shares : ∀ (command : Shown) (inputs : List String) (p : Performed),
    command.Yields settings directory inputs p ↔
      p.IsOfShares directory (inputs.map fun input => .of (work command input))
  /-- The exit codes agree if checking fails or no text grows too long, and only then. -/
  exits : ∀ (inputs : List String) (p q : Performed),
    Shown.desugar.Yields settings directory inputs p →
    Shown.check.Yields settings directory inputs q →
    (p.exitCode = q.exitCode ↔
      q.exitCode = 1 ∨ ∀ input ∈ inputs, ¬ Outgrows directory.read config input)
  /-- If no text grows too long, then the error outputs agree: they start with the same notices, and
  the same lines follow in the order of the files. -/
  lines : ∀ (inputs : List String) (p q : Performed),
    Shown.desugar.Yields settings directory inputs p →
    Shown.check.Yields settings directory inputs q →
    (∀ input ∈ inputs, ¬ Outgrows directory.read config input) →
    ∃ notices notices' lines, notices.Perm notices' ∧
      p.stderr = String.join notices ++ lines ∧ q.stderr = String.join notices' ++ lines
  /-- A file that fails adds its own lines to the error output, and everything else is as if it were
  not there. -/
  apart : ∀ (command : Shown) (before : List String) (input : String) (after : List String)
    (e : FileError), work command input = .error e →
    let share input := Share.of (work command input)
    ∀ p q, command.Yields settings directory (before ++ input :: after) p →
      command.Yields settings directory (before ++ after) q →
      p.IsOfShares directory (before.map share ++
        ⟨e.notice, "", "error: " ++ e.message ++ "\n", true⟩ :: after.map share) ∧
      q.IsOfShares directory (before.map share ++ after.map share) ∧ p.stdout = q.stdout

theorem foretells_of_loadConfig {settings : Settings} {directory : Directory} {config : Config}
    (h : settings.loadConfig directory.read = .ok config) :
    Foretells settings directory config
      (Shown.work directory config (settings.diagnostics.getD .human)) where
  accepted input report hcheck hnot := by
    rcases desugarFile_eq hcheck with ⟨hlong, -⟩ | ⟨-, hdesugar⟩
    · exact absurd hlong hnot
    · exact hdesugar
  outgrown input hlong := by
    cases hcheck : checkFile directory.read config (settings.diagnostics.getD .human) input with
    | error e => exact absurd hlong (desugarFile_eq_error hcheck).2
    | ok report =>
      rcases desugarFile_eq hcheck with ⟨-, hdesugar⟩ | ⟨hnot, -⟩
      · exact ⟨hdesugar, report, hcheck⟩
      · exact absurd hlong hnot
  refused _ _ hcheck := (desugarFile_eq_error hcheck).1
  shares command inputs p := command.yields_iff h inputs p
  exits inputs p q hp hq :=
    exitCode_eq_iff ((Shown.desugar.yields_iff h inputs p).mp hp)
      ((Shown.check.yields_iff h inputs q).mp hq)
  lines inputs p q hp hq hnot :=
    stderr_eq hnot ((Shown.desugar.yields_iff h inputs p).mp hp)
      ((Shown.check.yields_iff h inputs q).mp hq)
  apart command before input after e he := by
    intro share p q hp hq
    have hall := (command.yields_iff h _ p).mp hp
    have hothers := (command.yields_iff h _ q).mp hq
    rw [List.map_append, List.map_cons, he] at hall
    rw [List.map_append] at hothers
    exact ⟨hall, hothers, stdout_eq_of_drop rfl hall hothers⟩

/-- **What checking foretells of desugaring.** Whatever the settings, the files and what is in them,
and whichever way the runs come out: without a configuration both commands end at once, in the same
way. With one, each file adds its own share to a run and one that fails leaves the shares of the others
alone; and the two commands agree on the error output and the exit code, except that desugaring panics
over a file whose text is longer than a text can be. -/
theorem check_foretells_desugar (settings : Settings) (directory : Directory) :
    (∀ e, settings.loadConfig directory.read = .error e →
      ∀ (command : Shown) (inputs : List String) (p : Performed),
        command.Yields settings directory inputs p ↔
          p = ⟨1, "", fatalLine e.message, directory⟩) ∧
      ∀ config, settings.loadConfig directory.read = .ok config →
        Foretells settings directory config
          (Shown.work directory config (settings.diagnostics.getD .human)) :=
  ⟨fun _ he command => command.yields_iff_of_error he, fun _ => foretells_of_loadConfig⟩

/-- One file that uses an extension, and nothing else. -/
def lonelyFile : Directory :=
  .ofFiles [("a.cs", some "singleton class A \x7b Run(); \x7d")]

/-- The widest indentation that can be asked for. -/
def widest : Settings :=
  { indentWidth := some 18446744073709551615 }

/-- With the widest indentation the file is accepted by the check, and desugaring panics over it: the
exit codes differ. -/
theorem check_foretells_desugar_lonelyFile :
    ∃ config, widest.loadConfig lonelyFile.read = .ok config ∧
      Outgrows lonelyFile.read config "a.cs" ∧
      ∀ p q, Shown.desugar.Yields widest lonelyFile ["a.cs"] p →
        Shown.check.Yields widest lonelyFile ["a.cs"] q →
        q.exitCode = 0 ∧ p = ⟨1, "", "error: worker thread panicked\n", lonelyFile⟩ := by
  have hconfig : widest.loadConfig lonelyFile.read = .ok (widest.apply {}) := rfl
  have h := (check_foretells_desugar widest lonelyFile).2 _ hconfig
  have hlong : Outgrows lonelyFile.read (widest.apply {}) "a.cs" := by
    have hrun : (loadTree lonelyFile.read (widest.apply {}).options.extensions "a.cs").toOption.map
        (fun loaded => (loaded.2.desugar (widest.apply {}).options).result.outgrows
          (widest.apply {}).layout) = some true := by
      decide +kernel
    obtain ⟨⟨file, unit⟩, hload, hrun⟩ := exists_ok_of_map hrun
    exact ⟨file, unit, hload, hrun⟩
  refine ⟨_, hconfig, hlong, fun p q hp hq => ?_⟩
  have hpanic := (h.outgrown "a.cs" hlong).1
  have hfine : (Share.of (Shown.check.work lonelyFile (widest.apply {}) .human "a.cs")).failed =
      false := by
    decide +kernel
  have hruns := (h.shares .desugar ["a.cs"] p).mp hp
  rw [List.map_singleton, hpanic] at hruns
  obtain ⟨n, hn, rfl⟩ := hruns
  obtain ⟨m, -, rfl⟩ := (h.shares .check ["a.cs"] q).mp hq
  rw [List.map_singleton] at hn ⊢
  rw [List.perm_singleton.mp hn]
  refine ⟨?_, rfl⟩
  show (if ([_] : List Share).any Share.failed then 1 else 0) = 0
  rw [List.any_cons, List.any_nil, Bool.or_false]
  exact if_neg (Bool.eq_false_iff.mp hfine)

end ClassSugar.Command
