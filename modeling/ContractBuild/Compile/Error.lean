import ContractBuild.Compile.Report
import ContractBuild.Disk.OsError
import ContractBuild.Time.Span

/-!
# What goes wrong in a run

A `CompileError` or a `SandboxError` is the failure of one attempt. A `RunError` ends the run.
-/

namespace ContractBuild

/-- Why the compiler gave no contracts. -/
inductive CompileError where
  /-- It reported errors. -/
  | reported (count : Nat) (first : String)
  | noArtifacts
  /-- It could not be started. -/
  | spawn (program : String) (cause : OsError)
  /-- It ended in failure and wrote nothing. -/
  | exited (program status stderr : String)
  /-- What it wrote could not be read. -/
  | unreadable (reason : String)
  deriving Repr, DecidableEq

/-- The wording of an error. -/
def CompileError.message : CompileError → String
  | reported count first => s!"compiler reported {count} error(s): {first}"
  | noArtifacts => "compilation produced no deployable contract"
  | spawn program cause => s!"failed to run `{program}`: {cause.message}"
  | exited program status stderr => s!"`{program}` exited with {status}: {stderr}"
  | unreadable reason => s!"unreadable compiler output: {reason}"

/-- Why the sandbox gave no contracts. -/
inductive SandboxError where
  /-- The project could not be laid out, or its artifacts could not be read. -/
  | setup (cause : Failure)
  /-- The build tool could not be started. -/
  | spawn (program : String) (cause : OsError)
  /-- The build tool ended in failure. -/
  | exited (status output : String)
  | noArtifacts (dir : String)
  deriving Repr, DecidableEq

/-- The wording of an error. -/
def SandboxError.message : SandboxError → String
  | setup cause => s!"sandbox setup failed: {cause.full}"
  | spawn program cause => s!"failed to run `{program}`: {cause.message}"
  | exited status output => s!"sandbox build exited with {status}: {output}"
  | noArtifacts dir => s!"sandbox build produced no artifacts under {dir}"

/-- Why a run ended without success. -/
inductive RunError where
  /-- Every strategy was tried. -/
  | strategiesExhausted (attempts : UInt32)
  /-- As many attempts were made as are allowed. -/
  | budgetExhausted (maxAttempts : UInt32)
  | timeout (budget : Span)
  | cancelled
  | resolution (error : ResolutionError)
  /-- The sandbox failed, and there was no strategy after it. -/
  | sandbox (error : SandboxError)
  /-- The contract asked for is not among the results. -/
  | contractNotFound (name available : String)
  deriving Repr, DecidableEq

namespace RunError

/-- The wording of an error. -/
def message : RunError → String
  | strategiesExhausted attempts => s!"all strategies exhausted after {attempts.toNat} attempt(s)"
  | budgetExhausted maxAttempts => s!"attempt budget of {maxAttempts.toNat} exhausted"
  | timeout budget => s!"wall-clock budget of {budget.secondsText}s exceeded"
  | cancelled => "cancelled"
  | resolution error => error.message
  | sandbox error => error.message
  | contractNotFound name available =>
    s!"contract `{name}` not found in compilation output (available: {available})"

/-- The kind of failure that is reported. -/
def kind : RunError → FailureKind
  | strategiesExhausted _ | budgetExhausted _ => .strategyExhausted
  | timeout _ => .timeout
  | cancelled => .cancelled
  | resolution _ => .resolution
  | sandbox _ => .sandbox
  | contractNotFound _ _ => .contractNotFound

/-- The state in which a run ends. -/
def lastState : RunError → RunState
  | timeout _ => .timedOut
  | cancelled => .cancelled
  | _ => .exhausted

end RunError

end ContractBuild
