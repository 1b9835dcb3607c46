import ContractBuild.Compile.Markdown
import ContractBuild.Disk.Output

/-!
# The files a run leaves

Flattening leaves the text and two reports. Compiling leaves two reports, the contracts and the text
that was compiled if it succeeded, and the diff if there is one.
-/

namespace ContractBuild

/-- What flattening writes, in order. -/
def Flattened.outputs (o : Flattened) (outDir : Path) : List OutputStep :=
  [.makeDirs outDir, .write (outDir.join ⟨"flattened.sol"⟩) o.text,
   .write (outDir.join ⟨"flatten.json"⟩) (toJson o).pretty,
   .write (outDir.join ⟨"flatten.md"⟩) o.markdown]

/-- A report and the diff that goes with it. -/
structure CompileRun where
  report : CompileReport
  patch : String
  deriving Repr, DecidableEq

namespace CompileRun

/-- Whether the run failed. -/
def isFailed (r : CompileRun) : Bool := !r.report.outcome.isSuccess

/-- The contracts and the text of a success. -/
def successOutputs (outDir : Path) (s : CompileSuccess) : List OutputStep :=
  .write (outDir.join ⟨"contracts.json"⟩) (toJson s.contracts).pretty ::
    (s.compiledSource.map fun text => .write (outDir.join ⟨"fixed.sol"⟩) text).toList

/-- What compiling writes, in order. -/
def outputs (r : CompileRun) (outDir : Path) : List OutputStep :=
  [.makeDirs outDir, .write (outDir.join ⟨"compile.json"⟩) (toJson r.report).pretty,
   .write (outDir.join ⟨"compile.md"⟩) r.report.markdown] ++
  r.report.outcome.success?.elim [] (successOutputs outDir) ++
  if r.patch.isEmpty then [] else [.write (outDir.join ⟨"fixes.diff"⟩) r.patch]

end CompileRun

end ContractBuild
