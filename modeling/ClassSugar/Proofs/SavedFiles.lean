import ClassSugar.Command.Run
import ClassSugar.Proofs.FilePlaces
import ClassSugar.Proofs.SourceText

/-!
# Which output files keep their text

Desugared files can be written into a directory, each under the name of its input. The name is all
that is kept of the path, and the files are written one after another, so two inputs of one name
are written to the same file. Nothing notices: the run succeeds, and the text of the first is lost.

This module says what stands in the directory after a run that succeeded. Every input was desugared
and has a name, and under each name stands the text of the last input that has it
(`saved_outputs`, `OutputsIn.last`). Hence every input finds its own text there if and only if
inputs of one name have the same text (`OutputsIn.kept_iff`). There is one exception, which has
nothing to do with names: a directory may hold the null device, and what is written to it is gone.

A run that succeeded has done all of its effects (`Performed.of_exitCode_perform`), so it has
written its files one after another, and what that does to a directory is known
(`Directory.read_writeAll?`).
-/

namespace ClassSugar.Command

/-! ### Runs that succeed -/

/-- The file that an effect writes, with its text. -/
def Effect.saved? : Effect → Option (String × String)
  | .save path text => some (path, text)
  | _ => none

/-- **A run that succeeds has done everything**: nothing in it fails, and all files are written. -/
theorem Performed.of_exitCode_perform {p : Performed} {effects : List Effect}
    (h : (p.perform effects).exitCode = 0) :
    p.exitCode = 0 ∧ (∀ message, .fail message ∉ effects) ∧
      p.directory.writeAll? (effects.filterMap Effect.saved?) =
        some (p.perform effects).directory := by
  induction effects generalizing p with
  | nil => exact ⟨h, fun _ => List.not_mem_nil, rfl⟩
  | cons effect rest ih =>
    cases effect with
    | out text | err text =>
      rw [perform] at h ⊢
      obtain ⟨hcode, hfail, hwrite⟩ := ih h
      exact ⟨hcode, fun message => by simp [hfail message], hwrite⟩
    | fail message =>
      rw [perform] at h
      cases h
    | save path text =>
      rw [perform] at h ⊢
      cases hsave : p.directory.write? path text with
      | none =>
        rw [hsave] at h
        cases h
      | some directory =>
        rw [hsave] at h
        obtain ⟨hcode, hfail, hwrite⟩ := ih h
        refine ⟨hcode, fun message => by simp [hfail message], ?_⟩
        show (p.directory.write? path text).bind _ = _
        rw [hsave]
        exact hwrite

/-! ### Output files -/

/-- The file that is written for an input into a directory, with its text. -/
def output? (dir input : String) : Except FileError FileReport → Option (String × String)
  | .error _ => none
  | .ok report => (Path.fileName? input).map fun name => (Path.join dir name, report.text)

section Scripts

variable (work : String → Except FileError FileReport) (dir : String) (inputs : List String)

theorem filterMap_saved?_fileEffects (input : String) (result : Except FileError FileReport) :
    (fileEffects (.directory dir) input result).filterMap Effect.saved? =
      (output? dir input result).toList := by
  cases result with
  | error e => rfl
  | ok report =>
    unfold fileEffects deliver output?
    cases Path.fileName? input <;> rfl

theorem filterMap_saved?_filesScript :
    (filesScript work (.directory dir) inputs).effects.filterMap Effect.saved? =
      inputs.filterMap fun input => output? dir input (work input) := by
  simp only [filesScript, List.flatMap_map, List.filterMap_flatMap, filterMap_saved?_fileEffects]
  rw [List.filterMap_eq_flatMap_toList (fun input => output? dir input (work input))]

variable {work dir inputs}

/-- If nothing fails, then every file was worked on without an error and has a name. -/
theorem forall_mem_of_filesScript
    (hcode : (filesScript work (.directory dir) inputs).exitCode = 0)
    (hfail : ∀ message, .fail message ∉ (filesScript work (.directory dir) inputs).effects) :
    ∀ input ∈ inputs, ∃ report name,
      work input = .ok report ∧ Path.fileName? input = some name := by
  intro input hinput
  have hok : fileFails (work input) = false := by
    by_contra hfails
    have hany : (inputs.any fun input => fileFails (work input)) = true :=
      List.any_eq_true.mpr ⟨input, hinput, by simpa using hfails⟩
    simp [filesScript, Function.comp_def, hany] at hcode
  cases hwork : work input with
  | error e =>
    rw [hwork] at hok
    cases hok
  | ok report =>
    cases hname : Path.fileName? input with
    | some name => exact ⟨report, name, rfl, rfl⟩
    | none =>
      -- An input without a name makes the run fail, which it did not.
      refine absurd ?_ (hfail (input ++ " has no file name"))
      refine List.mem_flatMap.mpr ⟨(input, work input), List.mem_map_of_mem hinput, ?_⟩
      simp [fileEffects, deliver, hwork, hname]

end Scripts

/-! ### The text of a file -/

/-- The text that the file at a path is desugared to. -/
def Emits (d : Directory) (config : Config) (path text : String) : Prop :=
  ∃ source outcome, d.read path = .ok source ∧
    SourceFile.desugar ⟨path, source⟩ config = .ok outcome ∧ outcome.result = .ok text

theorem emits_iff {d : Directory} {config : Config} {format : DiagnosticFormat} {path text : String}
    {report : FileReport} (h : desugarFile d.read config format path = .ok report) :
    Emits d config path text ↔ text = report.text := by
  -- The same steps on both sides: the file is read, parsed, desugared and written.
  unfold desugarFile loadTree load at h
  unfold Emits SourceFile.desugar
  cases hread : d.read path with
  | error e =>
    rw [hread] at h
    cases h
  | ok source =>
    rw [hread] at h
    dsimp only at h
    cases hparse : SourceFile.parse ⟨path, source⟩ config.options.extensions with
    | error e =>
      rw [hparse] at h
      cases h
    | ok unit =>
      rw [hparse] at h
      dsimp only at h
      split at h
      · cases h
      cases hemit : (unit.desugar config.options).result.emit config.layout with
      | error e =>
        rw [hemit] at h
        cases h
      | ok emitted =>
        rw [hemit] at h
        cases h
        have houtcome : ((unit.desugar config.options).map (CompilationUnit.emit config.layout)).result
            = .ok emitted := hemit
        simp [hparse, Except.map, houtcome, eq_comm]

/-! ### What is left in the output directory -/

/-- Of the inputs with some property there is a last one. -/
theorem exists_last {p : String → Prop} {inputs : List String} (h : ∃ input ∈ inputs, p input) :
    ∃ before last after, inputs = before ++ last :: after ∧ p last ∧
      ∀ later ∈ after, ¬ p later := by
  induction inputs with
  | nil => simp at h
  | cons first rest ih =>
    by_cases hrest : ∃ input ∈ rest, p input
    · obtain ⟨before, last, after, rfl, hlast⟩ := ih hrest
      exact ⟨first :: before, last, after, rfl, hlast⟩
    · have hfirst : p first := ((List.exists_mem_cons_iff ..).mp h).resolve_right hrest
      exact ⟨[], first, rest, rfl, hfirst, fun later hlater hp => hrest ⟨later, hlater, hp⟩⟩

/-- What the files of a run that turned `d` into `d'` have come to, when each was written under its
name into the directory at `dir`. -/
structure OutputsIn (config : Config) (dir : String) (inputs : List String) (d d' : Directory) :
    Prop where
  /-- Every input has a name and was desugared to a text. -/
  emitted : ∀ input ∈ inputs, ∃ name text,
    Path.fileName? input = some name ∧ Emits d config input text
  /-- Under a name stands the text of the last input that has it. -/
  last : ∀ before input after name text, inputs = before ++ input :: after →
    Path.fileName? input = some name → (∀ later ∈ after, Path.fileName? later ≠ some name) →
    Emits d config input text → d.resolve (Path.join dir name) ≠ .ok Directory.nullDevice →
    d'.read (Path.join dir name) = .ok text
  /-- The null device holds what it held before. -/
  device : ∀ name text, d.resolve (Path.join dir name) = .ok Directory.nullDevice →
    (d'.read (Path.join dir name) = .ok text ↔ d.read (Path.join dir name) = .ok text)
  /-- All inputs find their own texts if and only if no two of one name differ in the text, and no
  text that it does not hold goes to the null device. -/
  kept_iff : (∀ input ∈ inputs, ∀ name text, Path.fileName? input = some name →
      Emits d config input text → d'.read (Path.join dir name) = .ok text) ↔
    (∀ a ∈ inputs, ∀ b ∈ inputs, Path.fileName? a = Path.fileName? b →
      ∀ s t, Emits d config a s → Emits d config b t → s = t) ∧
    ∀ input ∈ inputs, ∀ name text, Path.fileName? input = some name → Emits d config input text →
      d.resolve (Path.join dir name) = .ok Directory.nullDevice →
      d.read (Path.join dir name) = .ok text

section Written

variable {d d' : Directory} {config : Config} {format : DiagnosticFormat} {dir : String}
  {inputs : List String}

/-- Files of two names in one directory are at two places. -/
theorem resolve_join_ne {a b : String} (ha : Path.IsName a) (hb : Path.IsName b) (hne : b ≠ a)
    {place : List String} (h : d.resolve (Path.join dir a) = .ok place) :
    d.resolve (Path.join dir b) ≠ .ok place := by
  intro hplace
  have hlast : some b = some a :=
    (Directory.getLast?_resolve_join hb hplace).symm.trans (Directory.getLast?_resolve_join ha h)
  exact hne (Option.some.inj hlast)

theorem read_of_last {before after : List String} {input name : String} {report : FileReport}
    {work : String → Except FileError FileReport}
    (hwrite : d.writeAll? ((before ++ input :: after).filterMap fun input =>
      output? dir input (work input)) = some d')
    (hreport : work input = .ok report) (hname : Path.fileName? input = some name)
    (hafter : ∀ later ∈ after, Path.fileName? later ≠ some name)
    (hdevice : d.resolve (Path.join dir name) ≠ .ok Directory.nullDevice) :
    d'.read (Path.join dir name) = .ok report.text := by
  have houtput : output? dir input (work input) = some (Path.join dir name, report.text) := by
    rw [hreport, output?, hname]
    rfl
  rw [List.filterMap_append,
    List.filterMap_cons_some (f := fun input => output? dir input (work input)) houtput] at hwrite
  refine Directory.read_writeAll? hwrite hdevice ?_
  -- Every later file is written under another name.
  intro file hfile place hplace
  obtain ⟨later, hlater, hfile⟩ := List.mem_filterMap.mp hfile
  cases hwork : work later with
  | error e =>
    rw [hwork] at hfile
    cases hfile
  | ok report' =>
    rw [hwork, output?] at hfile
    obtain ⟨other, hother, rfl⟩ := Option.map_eq_some_iff.mp hfile
    refine resolve_join_ne (Path.isName_of_fileName? hname) (Path.isName_of_fileName? hother) ?_
      hplace
    rintro rfl
    exact hafter later hlater hother

theorem outputsIn_of_writeAll?
    (hall : ∀ input ∈ inputs, ∃ report name,
      desugarFile d.read config format input = .ok report ∧ Path.fileName? input = some name)
    (hwrite : d.writeAll? (inputs.filterMap fun input =>
      output? dir input (desugarFile d.read config format input)) = some d') :
    OutputsIn config dir inputs d d' := by
  have hemitted : ∀ input ∈ inputs, ∃ name text,
      Path.fileName? input = some name ∧ Emits d config input text := by
    intro input hinput
    obtain ⟨report, name, hreport, hname⟩ := hall input hinput
    exact ⟨name, report.text, hname, (emits_iff hreport).mpr rfl⟩
  have hdevice : ∀ name text, d.resolve (Path.join dir name) = .ok Directory.nullDevice →
      (d'.read (Path.join dir name) = .ok text ↔ d.read (Path.join dir name) = .ok text) :=
    fun name text h => Directory.read_writeAll?_of_ne hwrite (.inl h)
  have hlast : ∀ before input after name text, inputs = before ++ input :: after →
      Path.fileName? input = some name → (∀ later ∈ after, Path.fileName? later ≠ some name) →
      Emits d config input text → d.resolve (Path.join dir name) ≠ .ok Directory.nullDevice →
      d'.read (Path.join dir name) = .ok text := by
    rintro before input after name text rfl hname hafter htext hnull
    obtain ⟨report, -, hreport, -⟩ := hall input (by simp)
    rw [(emits_iff hreport).mp htext]
    exact read_of_last hwrite hreport hname hafter hnull
  refine ⟨hemitted, hlast, hdevice, fun hkept => ⟨?_, ?_⟩, ?_⟩
  · -- One file holds one text, so two inputs that both find theirs in it have the same.
    intro a ha b hb hsame s t hs ht
    obtain ⟨name, -, hname, -⟩ := hemitted a ha
    have hread := hkept a ha name s hname hs
    rw [hkept b hb name t (hsame ▸ hname) ht] at hread
    exact (Except.ok.inj hread).symm
  · intro input hinput name text hname htext hnull
    exact (hdevice name text hnull).mp (hkept input hinput name text hname htext)
  · rintro ⟨hsame, hnull⟩ input hinput name text hname htext
    by_cases hto : d.resolve (Path.join dir name) = .ok Directory.nullDevice
    · exact (hdevice name text hto).mpr (hnull input hinput name text hname htext hto)
    · -- The file holds the text of the last input of this name, which is also that of `input`.
      obtain ⟨before, final, after, hsplit, hfinal, hafter⟩ :=
        exists_last (p := fun input => Path.fileName? input = some name) ⟨input, hinput, hname⟩
      have hmem : final ∈ inputs := by simp [hsplit]
      obtain ⟨-, finalText, -, hfinalText⟩ := hemitted final hmem
      rw [hsame input hinput final hmem (hname.trans hfinal.symm) _ _ htext hfinalText]
      exact hlast before final after name finalText hsplit hfinal hafter hfinalText hto

end Written

/-- **What is kept of the outputs of a run that succeeds.** Whatever the settings, the inputs and the
files: if desugaring into a directory ends with exit code 0, then there was a configuration, every
input was desugared under it, and the files in the directory are as `OutputsIn` says. -/
theorem saved_outputs {settings : Settings} {directory : Directory} {dir : String}
    {inputs : List String}
    (h : (Invocation.run ⟨settings, .desugar inputs (.directory dir)⟩ directory).exitCode = 0) :
    ∃ config, settings.loadConfig directory.read = .ok config ∧
      OutputsIn config dir inputs directory
        (Invocation.run ⟨settings, .desugar inputs (.directory dir)⟩ directory).directory := by
  unfold Invocation.run Invocation.script at h ⊢
  cases hconfig : settings.loadConfig directory.read with
  | error e =>
    rw [hconfig] at h
    cases h
  | ok config =>
    rw [hconfig] at h
    obtain ⟨hcode, hfail, hwrite⟩ := Performed.of_exitCode_perform h
    refine ⟨config, rfl, ?_⟩
    apply outputsIn_of_writeAll? (forall_mem_of_filesScript hcode hfail)
    exact (congrArg _ (filterMap_saved?_filesScript _ dir inputs)).symm.trans hwrite

/-- Two files of one name, and a directory to write to. -/
def sameName : Directory :=
  .ofFiles [("a.cs", some "class A \x7b \x7d"), ("sub/a.cs", some "class B \x7b \x7d"), ("out", none)]

/-- Both files are desugared and the run succeeds, but only the text of the second is left. -/
theorem saved_outputs_sameName :
    (Invocation.run ⟨{}, .desugar ["a.cs", "sub/a.cs"] (.directory "out")⟩ sameName).exitCode = 0 ∧
      ∃ config, Settings.loadConfig {} sameName.read = .ok config ∧
        Emits sameName config "a.cs" "class A\n\x7b\n\x7d\n" ∧
        Emits sameName config "sub/a.cs" "class B\n\x7b\n\x7d\n" ∧
        (Invocation.run ⟨{}, .desugar ["a.cs", "sub/a.cs"] (.directory "out")⟩
          sameName).directory.read "out/a.cs" = .ok "class B\n\x7b\n\x7d\n" := by
  have hcode : (Invocation.run ⟨{}, .desugar ["a.cs", "sub/a.cs"] (.directory "out")⟩
      sameName).exitCode = 0 := by
    decide +kernel
  obtain ⟨config, hconfig, h⟩ := saved_outputs hcode
  cases hconfig
  -- What a file is desugared to is found by running the command on it.
  have hemits : ∀ path text, (desugarFile sameName.read (Settings.apply {} {}) .human path).toOption.map
      FileReport.text = some text → Emits sameName (Settings.apply {} {}) path text := by
    intro path text hrun
    obtain ⟨report, hfile, hrun⟩ := exists_ok_of_map hrun
    exact (emits_iff hfile).mpr hrun.symm
  have hsecond := hemits "sub/a.cs" "class B\n\x7b\n\x7d\n" (by decide +kernel)
  refine ⟨hcode, _, rfl, hemits "a.cs" _ (by decide +kernel), hsecond, ?_⟩
  exact h.last ["a.cs"] "sub/a.cs" [] "a.cs" _ rfl (by decide +kernel) (List.forall_mem_nil _)
    hsecond (by decide +kernel)

end ClassSugar.Command
