import ContractBuild.Compile.Error
import ContractBuild.Compile.StandardJson
import ContractBuild.Fix.Rule
import ContractBuild.Source.Collection

/-!
# Runs

A run tries the strategies in order. The strategies that go through the configurations keep one
candidate text for the root unit; after an attempt with errors the rules repair the candidate, and
the same configuration is tried again if they changed it. Every attempt needs leave: the run is not
cancelled, there is time left, and there are attempts left.

Everything outside of the run is in its `Surroundings`: sources, compiler, build tool, clock, and
cancellation. All of them work on a state of any type, which the run hands on and never looks into.

## Main definitions

* `Surroundings`: what a run works with.
* `RunSettings`: what is tried, and within which limits.
* `RunLog`: what a run has recorded so far.
* `Run.sweep`: all configurations of one strategy.
* `orchestrate`: the whole run.
-/

namespace ContractBuild

/-! ## Surroundings -/

/-- What the sandbox builds. -/
structure SandboxRequest where
  sources : Dict String
  /-- The units that belong to packages. -/
  packages : KeySet
  config : CompilerConfig
  deriving Repr, DecidableEq

/-- What a run works with. -/
structure Surroundings (σ : Type) where
  /-- The sources as they are now. -/
  resolver : σ → Resolver
  compile : StandardInput → σ → Except CompileError StandardOutput × σ
  /-- A build tool, if there is one. -/
  sandbox : Option (SandboxRequest → σ → Except SandboxError ArtifactMap × σ)
  /-- The time since some fixed moment. -/
  clock : σ → Span × σ
  isCancelled : σ → Bool × σ

/-- What is tried, and within which limits. -/
structure RunSettings where
  strategies : List Strategy := Strategy.all
  configs : List CompilerConfig := CompilerConfig.defaultSweep
  maxAttempts : UInt32 := 16
  timeout : Span := .ofSeconds 120
  /-- Whether rules repair the root unit after an attempt with errors. -/
  autoFix : Bool := true
  /-- Whether the broad sweep of rules is tried once a strategy when no rule is called for. -/
  aggressiveFixes : Bool := true
  /-- The contract to report as the main one. -/
  contract : Option String := none
  deriving Repr, DecidableEq

/-! ## The record of a run -/

/-- What a run has recorded so far. -/
structure RunLog where
  attempts : List CompilationAttempt := []
  transitions : List RunState := [.idle]
  fixes : List AppliedChange := []
  /-- The classes that diagnostics called for; they are repaired in the texts of later strategies
  from the start. -/
  carried : List FailureClass := []
  flatten : Option Flattened := none
  lastDiagnostic : Option String := none
  lastSource : Option String := none
  /-- The diff from the root unit to the last candidate. -/
  patch : String := ""
  deriving Repr, DecidableEq

namespace RunLog

/-- The number of the next attempt. -/
def nextAttempt (l : RunLog) : UInt32 := (l.attempts.length + 1).toUInt32

/-- Enters a state. -/
def enter (l : RunLog) (s : RunState) : RunLog := { l with transitions := l.transitions ++ [s] }

/-- Records an attempt. -/
def record (l : RunLog) (a : CompilationAttempt) : RunLog :=
  { l with attempts := l.attempts ++ [a] }

/-- Records what was submitted last and what came of it. -/
def remember (l : RunLog) (diagnostic source : Option String) : RunLog :=
  { l with lastDiagnostic := diagnostic, lastSource := source }

/-- Whether a class is carried over to later strategies. -/
def isCarriable (c : FailureClass) : Bool := c != .aggressive && c != .unclassified

/-- Carries classes over to later strategies. -/
def carry (l : RunLog) (classes : List FailureClass) : RunLog :=
  { l with
    carried := (classes.filter isCarriable).foldl
      (fun carried c => if carried.contains c then carried else carried ++ [c]) l.carried }

end RunLog

/-- A run under way. -/
structure RunProgress (σ : Type) where
  log : RunLog
  state : σ

/-- Steps of a run. An error ends the run and keeps the record. -/
abbrev Run (σ : Type) := ExceptT RunError (StateM (RunProgress σ))

/-- The settings of a run, its surroundings, and the time it began. -/
structure RunContext (σ : Type) where
  settings : RunSettings
  surroundings : Surroundings σ
  started : Span

namespace Run

variable {σ α : Type}

/-! ## Steps -/

/-- The record so far. -/
def log : Run σ RunLog := return (← get).log

/-- Changes the record. -/
def note (f : RunLog → RunLog) : Run σ Unit := modify fun p => { p with log := f p.log }

/-- Does something in the surroundings. -/
def act (f : σ → α × σ) : Run σ α :=
  modifyGet fun p => ((f p.state).1, { p with state := (f p.state).2 })

/-- Gives up on an error of the resolution. -/
def resolved (result : Except ResolutionError α) : Run σ α :=
  match result with
  | .ok a => pure a
  | .error e => throw (.resolution e)

/-- Ends the run if its time is over. -/
def checkTime (c : RunContext σ) : Run σ Unit := do
  let now ← act c.surroundings.clock
  if c.settings.timeout.nanoseconds ≤ (Span.between c.started now).nanoseconds then
    throw (.timeout c.settings.timeout)

/-- Asks for leave to make an attempt, with a number of them left: cancellation goes before time,
and time before the number of attempts. -/
def gate (c : RunContext σ) (left : Nat) : Run σ Unit := do
  if ← act c.surroundings.isCancelled then throw .cancelled
  checkTime c
  if left == 0 then throw (.budgetExhausted c.settings.maxAttempts)

/-- The number of attempts that are left. -/
def attemptsLeft (c : RunContext σ) : Run σ Nat :=
  return c.settings.maxAttempts.toNat - (← log).attempts.length

/-- Repairs what is carried over from earlier strategies. -/
def applyCarried (c : RunContext σ) (text : String) : Run σ String := do
  let carried := (← log).carried
  if !c.settings.autoFix || carried.isEmpty then return text
  let outcome := fixClasses text carried
  note fun l => { l with fixes := l.fixes ++ outcome.changes }
  return outcome.text

/-- Does something in the surroundings, and takes the time. -/
def timed (c : RunContext σ) (f : σ → α × σ) : Run σ (α × UInt64) := do
  let start ← act c.surroundings.clock
  let result ← act f
  let stop ← act c.surroundings.clock
  return (result, (Span.between start stop).milliseconds.toUInt64)

/-! ## One answer of the compiler -/

/-- What an answer of the compiler amounts to. -/
structure Verdict where
  status : AttemptStatus
  diagnostics : List CompilerDiagnostic
  result : Except CompileError ArtifactMap

/-- Judges an answer: errors first, then whether there are contracts. -/
def Verdict.of : Except CompileError StandardOutput → Verdict
  | .error e => ⟨.invocationFailed, [.ofError e.message], .error e⟩
  | .ok out =>
    match out.diagnostics.filter (·.isError) with
    | first :: rest =>
      ⟨.compileErrors, out.diagnostics, .error (.reported (rest.length + 1) first.message)⟩
    | [] =>
      if out.artifacts.isEmpty then ⟨.noArtifacts, out.diagnostics, .error .noArtifacts⟩
      else ⟨.succeeded, out.diagnostics, .ok out.artifacts⟩

/-! ## Sweeps -/

/-- A strategy that goes through the configurations. -/
structure Sweep where
  strategy : Strategy
  rootUnit : String
  /-- All units, among them the root unit before any repair. -/
  sources : Dict String

namespace Sweep

/-- The text of the root unit before any repair. -/
def initial (s : Sweep) : String := (s.sources.get? s.rootUnit).getD ""

/-- The units with a candidate for the root unit. -/
def unitsWith (s : Sweep) (candidate : String) : Dict String :=
  s.sources.insert s.rootUnit candidate

end Sweep

/-- The candidate for the root unit, and whether the broad sweep of rules has been tried. -/
structure Candidate where
  text : String
  sweptBroadly : Bool := false
  deriving Repr, DecidableEq

/-- What the rules make of a candidate after an attempt. -/
structure Repair where
  classes : List FailureClass
  outcome : FixOutcome
  sweptBroadly : Bool

/-- Repairs a candidate after an attempt with errors. -/
def Candidate.repair (settings : RunSettings) (candidate : Candidate) (v : Verdict) : Repair :=
  if !settings.autoFix || v.status != .compileErrors then
    ⟨[], { text := candidate.text }, candidate.sweptBroadly⟩
  else
    let classes := classify v.diagnostics
    if classes.isEmpty && settings.aggressiveFixes && !candidate.sweptBroadly then
      ⟨[.aggressive], fixClasses candidate.text [.aggressive], true⟩
    else ⟨classes, fixClasses candidate.text classes, candidate.sweptBroadly⟩

/-- One attempt of a sweep, for which leave was given. Success ends the sweep; otherwise the
candidate for the next attempt comes back, and whether it was repaired. -/
def attempt (c : RunContext σ) (s : Sweep) (config : CompilerConfig) (candidate : Candidate) :
    Run σ (CompileSuccess ⊕ (Candidate × Bool)) := do
  let number := (← log).nextAttempt
  note (·.enter (.trying s.strategy (some config) number))
  let input := StandardInput.ofSources (s.unitsWith candidate.text) config
  let (answer, durationMs) ← timed c (c.surroundings.compile input)
  let v := Verdict.of answer
  let record : CompilationAttempt :=
    { attempt := number, strategy := s.strategy, config := some config, status := v.status
      errors := v.diagnostics.filter (·.isError), durationMs }
  match v.result with
  | .ok contracts =>
    note (·.record { record with artifactCount := contracts.size.toUInt64 })
    note ({ · with patch := Diff.unified s.initial candidate.text })
    return .inl
      { method := s.strategy, attempt := number, configurationUsed := some config, contracts
        compiledSource := some candidate.text }
  | .error _ =>
    note (·.enter (.failed s.strategy number))
    note (·.remember record.firstError? (some candidate.text))
    let r := candidate.repair c.settings v
    if r.outcome.isChanged then
      note (·.enter (.fixing s.strategy r.outcome.ruleIds))
      note (·.carry r.classes)
      note fun l => { l with fixes := l.fixes ++ r.outcome.changes }
    note (·.record { record with fixesApplied := r.outcome.ruleIds })
    checkTime c
    return .inr (⟨r.outcome.text, r.sweptBroadly⟩, r.outcome.isChanged)

/-- Tries configurations one after the other, each again after a repair, with a number of attempts
left. -/
def sweepFrom (c : RunContext σ) (s : Sweep) (left : Nat) (configs : List CompilerConfig)
    (candidate : Candidate) : Run σ (Option CompileSuccess) :=
  match configs with
  | [] => do
    note ({ · with patch := Diff.unified s.initial candidate.text })
    return none
  | config :: rest => do
    gate c left
    match left with
    | 0 => throw (.budgetExhausted c.settings.maxAttempts)
    | left + 1 =>
      match ← attempt c s config candidate with
      | .inl success => return some success
      | .inr (next, true) => sweepFrom c s left (config :: rest) next
      | .inr (next, false) => sweepFrom c s left rest next

/-- Tries all configurations for a strategy. -/
def sweep (c : RunContext σ) (s : Sweep) : Run σ (Option CompileSuccess) := do
  let text ← applyCarried c s.initial
  sweepFrom c s (← attemptsLeft c) c.settings.configs { text }

/-! ## Strategies -/

/-- The root with all its units, as they are. -/
def directImport (c : RunContext σ) (root : Path) : Run σ (Option CompileSuccess) := do
  let lookup := UnitLookup.ofRoot (c.surroundings.resolver (← get).state) root
  let collected ← resolved lookup.collect
  sweep c ⟨.directImport, lookup.rootUnit, collected.sources⟩

/-- The flattened root as one unit. -/
def flattenCompile (c : RunContext σ) (root : Path) : Run σ (Option CompileSuccess) := do
  let flat ← resolved ((c.surroundings.resolver (← get).state).flatten root)
  note ({ · with flatten := some flat })
  let unit := root.fileName?.getD "Flattened.sol"
  sweep c ⟨.flattenCompile, unit, (∅ : Dict String).insert unit flat.text⟩

/-- Repairs every unit of a list. -/
def repairUnits (c : RunContext σ) : List (String × String) → Run σ (List (String × String))
  | [] => return []
  | (unit, text) :: rest => do
    let fixed ← applyCarried c text
    return (unit, fixed) :: (← repairUnits c rest)

/-- The configuration for the sandbox: the first one. -/
def sandboxConfig (settings : RunSettings) : CompilerConfig :=
  settings.configs.head?.getD ⟨"paris", true, 200⟩

/-- One build in the sandbox. Its failure ends the run if no strategy follows. -/
def sandboxBuild (c : RunContext σ)
    (build : SandboxRequest → σ → Except SandboxError ArtifactMap × σ) (root : Path)
    (isLast : Bool) : Run σ (Option CompileSuccess) := do
  let lookup := UnitLookup.ofRoot (c.surroundings.resolver (← get).state) root
  let collected ← resolved lookup.collect
  let sources := Dict.ofList (← repairUnits c collected.sources.entries)
  let config := sandboxConfig c.settings
  gate c (← attemptsLeft c)
  let number := (← log).nextAttempt
  note (·.enter (.trying .sandbox (some config) number))
  let (result, durationMs) ← timed c (build ⟨sources, collected.packages, config⟩)
  let compiledSource := sources.get? lookup.rootUnit
  match result with
  | .ok contracts =>
    note (·.record
      { attempt := number, strategy := .sandbox, config := some config, status := .succeeded
        artifactCount := contracts.size.toUInt64, durationMs })
    return some
      { method := .sandbox, attempt := number, configurationUsed := some config, contracts
        compiledSource }
  | .error e =>
    note (·.record
      { attempt := number, strategy := .sandbox, config := some config
        status := .invocationFailed, errors := [.ofError e.message], durationMs })
    note (·.enter (.failed .sandbox number))
    note (·.remember (some e.message) compiledSource)
    if isLast then throw (.sandbox e)
    checkTime c
    return none

/-- Tries one strategy. The sandbox is passed over if there is no build tool. -/
def strategy (c : RunContext σ) (root : Path) (isLast : Bool) :
    Strategy → Run σ (Option CompileSuccess)
  | .directImport => directImport c root
  | .flattenCompile => flattenCompile c root
  | .sandbox =>
    match c.surroundings.sandbox with
    | some build => sandboxBuild c build root isLast
    | none => return none

/-- Tries strategies in order until one succeeds. -/
def strategies (c : RunContext σ) (root : Path) : List Strategy → Run σ CompileSuccess
  | [] => do throw (.strategiesExhausted (← log).attempts.length.toUInt32)
  | s :: rest => do
    match ← strategy c root rest.isEmpty s with
    | some success => return success
    | none => strategies c root rest

/-- Finds the main contract of a success: the one asked for, or the one with the longest code. -/
def withMain (settings : RunSettings) (success : CompileSuccess) : Run σ CompileSuccess := do
  match selectMain success.contracts settings.contract, settings.contract with
  | some main, _ => return { success with mainContract := some main.asMain }
  | none, none => return success
  | none, some name =>
    let error := RunError.contractNotFound name (", ".intercalate success.contracts.keys)
    note (·.remember (some error.message) success.compiledSource)
    throw error

/-- All steps of a run. -/
def all (c : RunContext σ) (root : Path) : Run σ CompileSuccess := do
  withMain c.settings (← strategies c root c.settings.strategies)

end Run

/-! ## Whole runs -/

/-- A run that is over. -/
structure FinishedRun where
  outcome : CompileOutcome
  attempts : List CompilationAttempt
  transitions : List RunState
  fixes : List AppliedChange
  /-- The flattened root, if it was asked for. -/
  flatten : Option Flattened
  patch : String
  deriving Repr, DecidableEq

/-- Closes the record of a run. -/
def FinishedRun.ofLog (log : RunLog) : Except RunError CompileSuccess → FinishedRun
  | .ok success => ⟨.success success, log.attempts, log.transitions ++ [.success], log.fixes,
      log.flatten, log.patch⟩
  | .error e =>
    ⟨.failure
      { kind := e.kind, message := e.message, lastDiagnostic := log.lastDiagnostic
        lastSource := log.lastSource, attempts := log.attempts.length.toUInt32 },
      log.attempts, log.transitions ++ [e.lastState], log.fixes, log.flatten, log.patch⟩

/-- The report of a run, without its times. -/
def FinishedRun.report (r : FinishedRun) (tool : ToolInfo) (root : String) : CompileReport :=
  { tool, root, outcome := r.outcome, attempts := r.attempts, transitions := r.transitions
    fixes := r.fixes, flatten := r.flatten }

/-- Compiles a root. Failures come back in the outcome. -/
def orchestrate {σ : Type} (settings : RunSettings) (surroundings : Surroundings σ) (root : Path)
    (state : σ) : FinishedRun × σ :=
  let (started, state) := surroundings.clock state
  let (result, progress) := (Run.all ⟨settings, surroundings, started⟩ root).run.run ⟨{}, state⟩
  (.ofLog progress.log result, progress.state)

end ContractBuild
