import ContractBuild.Compile.Artifact
import ContractBuild.Compile.Config
import ContractBuild.Compile.Diagnostic
import ContractBuild.Fix.FailureClass
import ContractBuild.Source.Form
import ContractBuild.Time.Instant

/-!
# Reports of compilations

Every attempt to compile leaves an `Attempt`, every step of the run a `RunState`, and the run as a
whole a `CompileOutcome`. A `CompileReport` holds all of them.
-/

namespace ContractBuild

open Json

/-! ## Attempts -/

/-- How an attempt ended. -/
inductive AttemptStatus where
  | succeeded
  /-- The compiler reported an error. -/
  | compileErrors
  /-- No error, but no contract either. -/
  | noArtifacts
  /-- The compiler or the sandbox could not be run. -/
  | invocationFailed
  deriving Repr, DecidableEq

namespace AttemptStatus

/-- The name of a status. -/
def name : AttemptStatus → String
  | succeeded => "succeeded"
  | compileErrors => "compile_errors"
  | noArtifacts => "no_artifacts"
  | invocationFailed => "invocation_failed"

instance : JsonForm AttemptStatus where
  toJson s := .str s.name
  shape := Node.choice
    ([succeeded, compileErrors, noArtifacts, invocationFailed].map fun s => (s.name, s))

end AttemptStatus

/-- One attempt to compile. -/
structure CompilationAttempt where
  /-- Its number in the whole run, counted from one. -/
  attempt : UInt32
  strategy : Strategy
  config : Option CompilerConfig := none
  status : AttemptStatus
  errors : List CompilerDiagnostic := []
  artifactCount : UInt64 := 0
  /-- The ids of the rules that were applied after the attempt had failed. -/
  fixesApplied : List String := []
  durationMs : UInt64 := 0
  deriving Repr, DecidableEq

namespace CompilationAttempt

/-- Whether the attempt succeeded. -/
def isSuccess (a : CompilationAttempt) : Bool := a.status == .succeeded

/-- The message of the first error. -/
def firstError? (a : CompilationAttempt) : Option String :=
  (a.errors.find? (·.isError)).map (·.message)

instance : JsonForm CompilationAttempt where
  toJson a := .object
    [("attempt", some (toJson a.attempt)), ("strategy", some (toJson a.strategy)),
     ("config", a.config.map toJson), ("status", some (toJson a.status)),
     ("errors", some (toJson a.errors)), ("artifact_count", some (toJson a.artifactCount)),
     ("fixes_applied", if a.fixesApplied.isEmpty then none else some (toJson a.fixesApplied)),
     ("duration_ms", some (toJson a.durationMs))]
  shape n := do
    let f ← n.record "CompilationAttempt"
      [required "attempt" (shapeOf UInt32), required "strategy" (shapeOf Strategy),
       optional "config" (Node.nullable (shapeOf CompilerConfig)),
       required "status" (shapeOf AttemptStatus),
       optional "errors" (shapeOf (List CompilerDiagnostic)),
       optional "artifact_count" (shapeOf UInt64),
       optional "fixes_applied" (shapeOf (List String)),
       optional "duration_ms" (shapeOf UInt64)]
    return {
      attempt := ← f.get "attempt" (shapeOf UInt32)
      strategy := ← f.get "strategy" (shapeOf Strategy)
      config := ← f.get? "config" (shapeOf CompilerConfig)
      status := ← f.get "status" (shapeOf AttemptStatus)
      errors := ← f.getD "errors" (shapeOf (List CompilerDiagnostic)) []
      artifactCount := ← f.getD "artifact_count" (shapeOf UInt64) 0
      fixesApplied := ← f.getD "fixes_applied" (shapeOf (List String)) []
      durationMs := ← f.getD "duration_ms" (shapeOf UInt64) 0 }

end CompilationAttempt

/-! ## States -/

/-- A state of a run. -/
inductive RunState where
  | idle
  | trying (strategy : Strategy) (config : Option CompilerConfig) (attempt : UInt32)
  | failed (strategy : Strategy) (attempt : UInt32)
  | fixing (strategy : Strategy) (rules : List String)
  | success
  | exhausted
  | timedOut
  | cancelled
  deriving Repr, DecidableEq

namespace RunState

/-- Whether the run is over. -/
def isTerminal : RunState → Bool
  | success | exhausted | timedOut | cancelled => true
  | _ => false

instance : JsonForm RunState where
  toJson
    | idle => .obj [("state", .str "idle")]
    | trying strategy config attempt => .object
      [("state", some (.str "trying")), ("strategy", some (toJson strategy)),
       ("config", config.map toJson), ("attempt", some (toJson attempt))]
    | failed strategy attempt => .obj
      [("state", .str "failed"), ("strategy", toJson strategy), ("attempt", toJson attempt)]
    | fixing strategy rules => .obj
      [("state", .str "fixing"), ("strategy", toJson strategy), ("rules", toJson rules)]
    | success => .obj [("state", .str "success")]
    | exhausted => .obj [("state", .str "exhausted")]
    | timedOut => .obj [("state", .str "timed_out")]
    | cancelled => .obj [("state", .str "cancelled")]
  shape := Node.tagged "OrchestratorState" "state"
    [("idle", Node.nothingMore idle),
     ("trying", fun n => do
        let f ← n.record "variant OrchestratorState::Trying"
          [required "strategy" (shapeOf Strategy),
           optional "config" (Node.nullable (shapeOf CompilerConfig)),
           required "attempt" (shapeOf UInt32)]
        return trying (← f.get "strategy" (shapeOf Strategy))
          (← f.get? "config" (shapeOf CompilerConfig)) (← f.get "attempt" (shapeOf UInt32))),
     ("failed", fun n => do
        let f ← n.record "variant OrchestratorState::Failed"
          [required "strategy" (shapeOf Strategy), required "attempt" (shapeOf UInt32)]
        return failed (← f.get "strategy" (shapeOf Strategy))
          (← f.get "attempt" (shapeOf UInt32))),
     ("fixing", fun n => do
        let f ← n.record "variant OrchestratorState::Fixing"
          [required "strategy" (shapeOf Strategy), required "rules" (shapeOf (List String))]
        return fixing (← f.get "strategy" (shapeOf Strategy))
          (← f.get "rules" (shapeOf (List String)))),
     ("success", Node.nothingMore success), ("exhausted", Node.nothingMore exhausted),
     ("timed_out", Node.nothingMore timedOut), ("cancelled", Node.nothingMore cancelled)]

end RunState

/-! ## Outcomes -/

/-- Why a run failed. -/
inductive FailureKind where
  | strategyExhausted
  | timeout
  | cancelled
  | resolution
  | sandbox
  /-- The compilation succeeded, but without the contract asked for. -/
  | contractNotFound
  deriving Repr, DecidableEq

namespace FailureKind

/-- The name of a kind. -/
def name : FailureKind → String
  | strategyExhausted => "strategy_exhausted"
  | timeout => "timeout"
  | cancelled => "cancelled"
  | resolution => "resolution"
  | sandbox => "sandbox"
  | contractNotFound => "contract_not_found"

instance : JsonForm FailureKind where
  toJson k := .str k.name
  shape := Node.choice
    ([strategyExhausted, timeout, cancelled, resolution, sandbox, contractNotFound].map
      fun k => (k.name, k))

end FailureKind

/-- What a successful run produced. -/
structure CompileSuccess where
  method : Strategy
  /-- The number of the attempt that succeeded. -/
  attempt : UInt32
  configurationUsed : Option CompilerConfig := none
  contracts : ArtifactMap
  mainContract : Option MainContract := none
  /-- The text of the root unit that was compiled. -/
  compiledSource : Option String := none
  deriving Repr, DecidableEq

/-- How a run failed. -/
structure CompileFailure where
  kind : FailureKind
  message : String
  lastDiagnostic : Option String := none
  /-- The last text that was given to a compiler. -/
  lastSource : Option String := none
  attempts : UInt32
  deriving Repr, DecidableEq

/-- How a run ended. -/
inductive CompileOutcome where
  | success (result : CompileSuccess)
  | failure (result : CompileFailure)
  deriving Repr, DecidableEq

namespace CompileOutcome

/-- Whether the run succeeded. -/
def isSuccess : CompileOutcome → Bool
  | success _ => true
  | failure _ => false

/-- What a successful run produced. -/
def success? : CompileOutcome → Option CompileSuccess
  | success s => some s
  | failure _ => none

/-- How a run failed. -/
def failure? : CompileOutcome → Option CompileFailure
  | success _ => none
  | failure f => some f

/-- The shape of a success without its tag. -/
def successShape : Shape CompileSuccess := fun n => do
  let f ← n.record "CompileSuccess"
    [required "method" (shapeOf Strategy), required "attempt" (shapeOf UInt32),
     optional "configuration_used" (Node.nullable (shapeOf CompilerConfig)),
     required "contracts" (shapeOf ArtifactMap),
     optional "main_contract" (Node.nullable (shapeOf MainContract)),
     optional "compiled_source" (Node.nullable Node.string)]
  return {
    method := ← f.get "method" (shapeOf Strategy)
    attempt := ← f.get "attempt" (shapeOf UInt32)
    configurationUsed := ← f.get? "configuration_used" (shapeOf CompilerConfig)
    contracts := ← f.get "contracts" (shapeOf ArtifactMap)
    mainContract := ← f.get? "main_contract" (shapeOf MainContract)
    compiledSource := ← f.get? "compiled_source" Node.string }

/-- The shape of a failure without its tag. -/
def failureShape : Shape CompileFailure := fun n => do
  let f ← n.record "CompileFailure"
    [required "kind" (shapeOf FailureKind), required "message" Node.string,
     optional "last_diagnostic" (Node.nullable Node.string),
     optional "last_source" (Node.nullable Node.string), required "attempts" (shapeOf UInt32)]
  return {
    kind := ← f.get "kind" (shapeOf FailureKind)
    message := ← f.get "message" Node.string
    lastDiagnostic := ← f.get? "last_diagnostic" Node.string
    lastSource := ← f.get? "last_source" Node.string
    attempts := ← f.get "attempts" (shapeOf UInt32) }

instance : JsonForm CompileOutcome where
  toJson
    | success s => .object
      [("status", some (.str "success")), ("method", some (toJson s.method)),
       ("attempt", some (toJson s.attempt)),
       ("configuration_used", s.configurationUsed.map toJson),
       ("contracts", some (toJson s.contracts)),
       ("main_contract", s.mainContract.map toJson),
       ("compiled_source", s.compiledSource.map .str)]
    | failure f => .object
      [("status", some (.str "failure")), ("kind", some (toJson f.kind)),
       ("message", some (.str f.message)), ("last_diagnostic", f.lastDiagnostic.map .str),
       ("last_source", f.lastSource.map .str), ("attempts", some (toJson f.attempts))]
  shape := Node.tagged "CompileOutcome" "status"
    [("success", fun n => (successShape n).map success),
     ("failure", fun n => (failureShape n).map failure)]

end CompileOutcome

/-! ## Reports -/

/-- The tool that made a report. -/
structure ToolInfo where
  name : String
  version : Option String := none
  deriving Repr, DecidableEq

instance : JsonForm ToolInfo where
  toJson t := .object [("name", some (.str t.name)), ("version", t.version.map .str)]
  shape n := do
    let f ← n.record "ToolInfo"
      [required "name" Node.string, optional "version" (Node.nullable Node.string)]
    return { name := ← f.get "name" Node.string, version := ← f.get? "version" Node.string }

instance : JsonForm Instant where
  toJson t := .str t.text
  shape n := do
    let s ← Node.stringAs "an RFC 3339 formatted date and time string" n
    match Instant.parse? s with
    | some t => return t
    | none => throw ⟨.unfit "input contains invalid characters", n.start⟩

/-- When a run took place. -/
structure RunInfo where
  startedAt : Option Instant := none
  endedAt : Option Instant := none
  durationMs : Option UInt64 := none
  deriving Repr, DecidableEq

instance : JsonForm RunInfo where
  toJson r := .object
    [("started_at", r.startedAt.map toJson), ("ended_at", r.endedAt.map toJson),
     ("duration_ms", r.durationMs.map toJson)]
  shape n := do
    let f ← n.record "RunInfo"
      [optional "started_at" (Node.nullable (shapeOf Instant)),
       optional "ended_at" (Node.nullable (shapeOf Instant)),
       optional "duration_ms" (Node.nullable (shapeOf UInt64))]
    return {
      startedAt := ← f.get? "started_at" (shapeOf Instant)
      endedAt := ← f.get? "ended_at" (shapeOf Instant)
      durationMs := ← f.get? "duration_ms" (shapeOf UInt64) }

/-- The schema of a compile report. -/
def compileSchema : String := "solforge.compile.v1"

/-- The report of a run. -/
structure CompileReport where
  schema : String := compileSchema
  tool : ToolInfo
  run : RunInfo := {}
  /-- The root as it was asked for. -/
  root : String
  outcome : CompileOutcome
  attempts : List CompilationAttempt := []
  transitions : List RunState := []
  /-- All changes to texts, in order. -/
  fixes : List AppliedChange := []
  flatten : Option Flattened := none
  deriving Repr, DecidableEq

instance : JsonForm CompileReport where
  toJson r := .object
    [("schema", some (.str r.schema)), ("tool", some (toJson r.tool)),
     ("run", some (toJson r.run)), ("root", some (.str r.root)),
     ("outcome", some (toJson r.outcome)), ("attempts", some (toJson r.attempts)),
     ("transitions", some (toJson r.transitions)), ("fixes", some (toJson r.fixes)),
     ("flatten", r.flatten.map toJson)]
  shape n := do
    let f ← n.record "CompileReport"
      [required "schema" Node.string, required "tool" (shapeOf ToolInfo),
       required "run" (shapeOf RunInfo), required "root" Node.string,
       required "outcome" (shapeOf CompileOutcome),
       optional "attempts" (shapeOf (List CompilationAttempt)),
       optional "transitions" (shapeOf (List RunState)),
       optional "fixes" (shapeOf (List AppliedChange)),
       optional "flatten" (Node.nullable (shapeOf Flattened))]
    return {
      schema := ← f.get "schema" Node.string
      tool := ← f.get "tool" (shapeOf ToolInfo)
      run := ← f.get "run" (shapeOf RunInfo)
      root := ← f.get "root" Node.string
      outcome := ← f.get "outcome" (shapeOf CompileOutcome)
      attempts := ← f.getD "attempts" (shapeOf (List CompilationAttempt)) []
      transitions := ← f.getD "transitions" (shapeOf (List RunState)) []
      fixes := ← f.getD "fixes" (shapeOf (List AppliedChange)) []
      flatten := ← f.get? "flatten" (shapeOf Flattened) }

end ContractBuild
