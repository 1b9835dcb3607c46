import ContractBuild.Compile.Error
import ContractBuild.Compile.StandardJson
import ContractBuild.Json.Bytes
import ContractBuild.Program.Call

/-!
# The compiler as a program

The compiler reads the input as JSON and writes the output as JSON. Errors in the sources are part
of the output, so what counts is what it wrote, not how it ended.
-/

namespace ContractBuild

open Text

namespace Solc

/-- A byte that counts as nothing written. -/
def isBlankByte (b : UInt8) : Bool := b == 32 || b == 9 || b == 10 || b == 12 || b == 13

/-- Judges what the compiler wrote. Its end counts only if it wrote nothing. -/
def judge (program : String) (r : ProgramResult) : Except CompileError StandardOutput :=
  if !r.isSuccess && r.stdout.toList.all isBlankByte then
    .error (.exited program r.status (ProgramResult.trimmed r.stderr))
  else
    (Json.readBytes StandardOutput r.stdout).mapError fun f =>
      .unreadable (f.message (Json.standIn r.stdout))

/-- Compiles with a program of a toolbox. -/
def compile {τ : Type} (tools : Toolbox τ) (program : String) (input : StandardInput) (disk : Disk)
    (t : τ) : Except CompileError StandardOutput × Disk × τ :=
  match tools.start ⟨program, ["--standard-json"], (toJson input).compact⟩ disk t with
  | (.error e, t) => (.error (.spawn program e), disk, t)
  | (.ok (result, disk), t) => (judge program result, disk, t)

end Solc

end ContractBuild
