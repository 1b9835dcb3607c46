import ContractBuild.Cli.Command
import ContractBuild.Fix.Explanation
import ContractBuild.Project.Workspace

/-!
# Carrying commands out

`Command.perform` carries a command out in a workspace. What it prints is a `Transcript`.
-/

namespace ContractBuild

/-- What a command prints, and how it ends. -/
structure Transcript where
  exitCode : UInt8 := 0
  stdout : String := ""
  stderr : String := ""
  deriving Repr, DecidableEq

namespace Transcript

/-- The end of a command that could not be carried out. -/
def failed (f : Failure) : Transcript := { exitCode := 1, stderr := s!"error: {f.full}\n" }

end Transcript

/-- This program. -/
def toolInfo : ToolInfo := { name := "solforge", version := some "0.1.0" }

/-- What a command finds outside of its workspace. -/
structure Host (τ : Type) where
  toolbox : Toolbox τ
  /-- Access to remote repositories with a token. -/
  remote : Option String → Remote
  /-- Where throw-away projects lie. -/
  sandboxDir : Path

namespace ProjectOptions

/-- Where results are written. -/
def resultDir (o : ProjectOptions) : Path :=
  o.outDir.getD ((o.projectRoot.join ⟨"artifacts"⟩).join ⟨"solforge"⟩)

/-- The settings of a project with what is said for one run. -/
def configure (o : ProjectOptions) (disk : Disk) (overrides : Overrides) :
    Except Failure MergedConfig := do
  let config ← (ProjectConfig.load disk o.projectRoot).mapError
    (·.within s!"load {ProjectConfig.fileName} config")
  (config.merge { overrides with dependencyDirs := o.dependencyDirs, strict := o.strict }).mapError
    fun e => ⟨e.message, []⟩

/-- Which root to work on. -/
def settings (o : ProjectOptions) (entry : Path) (config : MergedConfig) : ProjectSettings :=
  { projectRoot := o.projectRoot, entry, outDir := o.resultDir, resolver := config.resolver }

end ProjectOptions

namespace Workspace

variable {τ : Type}

/-- Writes results, and tells about them if nothing went wrong. -/
def deliver (w : Workspace τ) (outputs : List OutputStep) (told : Transcript) :
    Transcript × Workspace τ :=
  match (Disk.performAll outputs).run.run w.disk with
  | (.ok (), disk) => (told, { w with disk })
  | (.error f, disk) => (.failed f, { w with disk })

end Workspace

/-! ## Flattening -/

/-- What is told about a flattened root. -/
def Flattened.transcript (o : Flattened) (print : Bool) : Transcript :=
  { stdout := if print then o.text else ""
    stderr := String.join (o.diagnostics.map fun d => s!"warning: {d.importer}: {d.message}\n") }

/-- Flattens a root and writes the results. -/
def flattenProject {τ : Type} (host : Host τ) (entry : Path) (project : ProjectOptions)
    (print : Bool) (w : Workspace τ) : Transcript × Workspace τ :=
  match project.configure w.disk {} with
  | .error f => (.failed f, w)
  | .ok config =>
    let settings := project.settings entry config
    match w.flatten settings (host.remote project.token) with
    | .error e => (.failed ⟨e.message, []⟩, w)
    | .ok o => w.deliver (o.outputs settings.outDir) (o.transcript print)

/-! ## Compiling -/

/-- What is told about a success. -/
def CompileSuccess.summary (s : CompileSuccess) : String :=
  s!"compiled {s.contracts.size} contract(s) with {s.method.name} on attempt {s.attempt.toNat}\n" ++
    s.mainContract.elim "" fun m =>
      s!"main contract: {m.contractName} ({m.bytecodeLength.toNat} bytes)\n"

/-- What is told about a failure. -/
def CompileFailure.summary (f : CompileFailure) : String :=
  s!"compilation failed ({f.kind.name}): {f.message}\n" ++
    f.lastDiagnostic.elim "" fun d => s!"last diagnostic: {d}\n"

/-- What is told about a run. A run that failed ends with 2. -/
def CompileRun.transcript (r : CompileRun) : Transcript :=
  { exitCode := if r.isFailed then 2 else 0
    stdout := r.report.outcome.success?.elim "" (·.summary)
    stderr := r.report.outcome.failure?.elim "" (·.summary) }

/-- The sandbox of a project, unless it is turned off. -/
def MergedConfig.sandbox? (c : MergedConfig) (dir : Path) : Option Sandbox :=
  let usual : Sandbox := { solcVersion := c.solcVersion, dir }
  if !c.sandboxEnabled then none
  else if c.sandboxCommand.isEmpty then some usual
  else some { usual with command := c.sandboxCommand }

/-- Compiles a root and writes the results. -/
def compileProject {τ : Type} (host : Host τ) (entry : Path) (project : ProjectOptions)
    (overrides : Overrides) (contract : Option String) (w : Workspace τ) :
    Transcript × Workspace τ :=
  match project.configure w.disk overrides with
  | .error f => (.failed f, w)
  | .ok config =>
    let settings : CompileSettings :=
      { toProjectSettings := project.settings entry config
        run := { config.run with contract }
        solc := config.solc
        solcVersion := config.solcVersion }
    let (run, w) := w.compile host.toolbox settings (host.remote project.token)
      (config.sandbox? host.sandboxDir) toolInfo
    w.deliver (run.outputs settings.outDir) run.transcript

/-! ## The rules -/

/-- Explains a rule, by its name. -/
def explainRule (name : String) : Transcript :=
  match FixRule.find? name with
  | some rule => { stdout := rule.explanation }
  | none =>
    let known := ", ".intercalate (FixRule.all.map (·.id))
    .failed ⟨s!"Unknown fix rule: '{name}'\n\nAvailable rules: {known}", []⟩

/-- A row of the list of rules. -/
def fixRow (rule failureClass title : String) : String :=
  let pad (width : Nat) (s : String) : String := s.pushn ' ' (width - s.length)
  s!"  {pad 26 rule} {pad 20 failureClass} {title}\n"

/-- The rules as a table. -/
def fixTable : String :=
  "Available fixes:\n\n" ++ fixRow "RULE" "CLASS" "TITLE" ++ fixRow "----" "-----" "-----" ++
    String.join (FixRule.all.map fun r => fixRow r.id r.failureClass.name r.title) ++
    "\nUse 'solforge explain <rule>' for details.\n"

/-- The rules as data. -/
def fixData : Json :=
  .arr (FixRule.all.map fun r =>
    .obj [("aggressive", .bool r.inSweep), ("class", .str r.failureClass.name), ("id", .str r.id),
      ("patterns", .ofStrings r.patterns), ("title", .str r.title)])

/-- Lists the rules. -/
def listRules : ListFormat → Transcript
  | .text => { stdout := fixTable }
  | .json => { stdout := fixData.pretty ++ "\n" }

/-! ## Commands -/

/-- Carries a command out. -/
def Command.perform {τ : Type} (host : Host τ) (w : Workspace τ) :
    Command → Transcript × Workspace τ
  | flatten entry project print => flattenProject host entry project print w
  | compile entry project overrides contract =>
    compileProject host entry project overrides contract w
  | explain rule => (explainRule rule, w)
  | listFixes format => (listRules format, w)

/-- How the program is called. -/
def usageLines (command : Option String) : String :=
  let shown := Command.specs.filter fun s => command.all (· == s.name)
  "Usage:\n" ++ String.join (shown.map fun s => s!"  {s.usage toolInfo.name}\n")

/-- What is told when no command is carried out. -/
def Halt.transcript : Halt → Transcript
  | refused e =>
    { exitCode := 2
      stderr := s!"error: {e.message}\n\n{usageLines none}\nFor more information, try '--help'.\n" }
  | help command => { stdout := usageLines command }
  | version => { stdout := " ".intercalate (toolInfo.name :: toolInfo.version.toList) ++ "\n" }

end ContractBuild
