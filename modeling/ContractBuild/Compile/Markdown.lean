import ContractBuild.Compile.Report

/-!
# Reports for readers

`Flattened.markdown` and `CompileReport.markdown` lay out the two reports as Markdown.
-/

namespace ContractBuild

open Text

/-- A text in a code span. -/
def codeSpan (s : String) : String := "`" ++ s ++ "`"

/-- Lines, each with its line break. -/
def textLines (lines : List String) : String := String.join (lines.map (· ++ "\n"))

namespace Flattened

/-- The report of flattening. -/
def markdown (o : Flattened) : String :=
  textLines (
    ["# solforge flatten", "",
     s!"- Modules: {o.moduleCount.toNat}",
     s!"- Unresolved imports: {o.unresolvedCount.toNat}",
     "- License: " ++ codeSpan o.license,
     "- Pragma: " ++ (o.pragma.map codeSpan).getD "_none_",
     "- Digest: " ++ codeSpan o.digest, "",
     "## Modules", ""] ++
    (if o.modules.isEmpty then ["_No modules._"] else []) ++
    o.modules.mapIdx (fun i m => s!"{i + 1}. " ++ codeSpan m) ++
    (if o.diagnostics.isEmpty then []
     else ["", "## Diagnostics", ""] ++ o.diagnostics.map fun d =>
       s!"- {codeSpan d.code} {codeSpan d.target} in {codeSpan d.importer}: {d.message}"))

end Flattened

/-- The first line of a text, without its line break. -/
def firstLine (s : String) : String :=
  let line := s.toList.takeWhile (· != '\n')
  let ended := line.length < s.length
  String.ofList (if ended && line.getLast? == some '\r' then line.dropLast else line)

/-- An attempt on a line. -/
def CompilationAttempt.markdown (a : CompilationAttempt) : String :=
  let config := (a.config.map (·.describe)).getD "-"
  s!"{a.attempt.toNat}. {codeSpan a.strategy.name} {config} → {codeSpan a.status.name}" ++
    ((a.firstError?.map fun e => ": " ++ firstLine e).getD "") ++
    if a.fixesApplied.isEmpty then ""
    else " (fixed: " ++ ", ".intercalate a.fixesApplied ++ ")"

/-- A state in a few words. -/
def RunState.label : RunState → String
  | idle => "idle"
  | trying strategy _ attempt => s!"trying({strategy.name} #{attempt.toNat})"
  | failed strategy attempt => s!"failed({strategy.name} #{attempt.toNat})"
  | fixing _ rules => "fixing(" ++ ",".intercalate rules ++ ")"
  | success => "success"
  | exhausted => "exhausted"
  | timedOut => "timed_out"
  | cancelled => "cancelled"

/-- A successful outcome. -/
def CompileSuccess.markdown (s : CompileSuccess) : List String :=
  ["- Status: `success`", s!"- Method: {codeSpan s.method.name} (attempt {s.attempt.toNat})"] ++
  (s.configurationUsed.map fun c => "- Configuration: " ++ c.describe).toList ++
  (s.mainContract.map fun m =>
    s!"- Main contract: {codeSpan m.contractName} ({m.bytecodeLength.toNat} bytes)").toList ++
  ["", "## Contracts", ""] ++
  (if s.contracts.isEmpty then ["_No contracts._"] else []) ++
  s.contracts.entries.map fun (name, a) =>
    s!"- {codeSpan name} ({a.bytecodeLength} bytes, {a.abi.length} abi entries)"

/-- A failed outcome. -/
def CompileFailure.markdown (f : CompileFailure) : List String :=
  ["- Status: `failure`", "- Kind: " ++ codeSpan f.kind.name, "- Message: " ++ f.message] ++
  match f.lastDiagnostic with
  | some d => ["", "**Last diagnostic**", "", "```", String.ofList (trimEnd d.toList), "```"]
  | none => []

namespace CompileReport

/-- The report of a run. -/
def markdown (r : CompileReport) : String :=
  textLines (
    ["# solforge compile", "", "- Root: " ++ codeSpan r.root,
     s!"- Attempts: {r.attempts.length}"] ++
    (match r.outcome with
      | .success s => s.markdown
      | .failure f => f.markdown) ++
    ["", "## Attempts", ""] ++
    (if r.attempts.isEmpty then ["_No attempts._"] else r.attempts.map (·.markdown)) ++
    (if r.fixes.isEmpty then []
     else ["", "## Fixes", ""] ++ r.fixes.map fun c =>
       s!"- {codeSpan c.ruleId} ({c.forClass.name}): {c.description} x{c.occurrences.toNat}") ++
    (if r.transitions.isEmpty then []
     else ["", "## States", "", " → ".intercalate (r.transitions.map (·.label))]))

end CompileReport

end ContractBuild
