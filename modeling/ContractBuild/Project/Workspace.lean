import ContractBuild.Compile.Solc
import ContractBuild.Project.Output
import ContractBuild.Project.Settings
import ContractBuild.Sandbox.Build

/-!
# Runs on a disk

A `Workspace` is a disk together with the programs that work on it.
-/

namespace ContractBuild

/-- A disk and the state of the programs. -/
structure Workspace (τ : Type) where
  disk : Disk
  tools : τ

namespace Workspace

variable {τ : Type}

/-- What resolves the imports of a project. -/
def resolver (w : Workspace τ) (settings : ProjectSettings) (remote : Remote) : Resolver :=
  ⟨w.disk.view settings.projectRoot, remote, settings.resolver⟩

/-- Changes the state of the programs. -/
def useTools {α : Type} (f : τ → α × τ) (w : Workspace τ) : α × Workspace τ :=
  let (a, tools) := f w.tools
  (a, { w with tools })

/-- The surroundings of a run: sources on the disk, and programs for the compiler and the sandbox.
-/
def surroundings (toolbox : Toolbox τ) (settings : CompileSettings) (remote : Remote)
    (sandbox : Option Sandbox) : Surroundings (Workspace τ) where
  resolver w := w.resolver settings.toProjectSettings remote
  compile input w :=
    let (answer, disk, tools) := Solc.compile toolbox settings.solc input w.disk w.tools
    (answer, ⟨disk, tools⟩)
  sandbox := sandbox.map fun s request => useTools (s.build toolbox request)
  clock := useTools toolbox.clock
  isCancelled w := (false, w)

/-- Flattens the root of a project. -/
def flatten (w : Workspace τ) (settings : ProjectSettings) (remote : Remote) :
    Except ResolutionError Flattened :=
  (w.resolver settings remote).flatten settings.entry

/-- Compiles the root of a project, and notes when. -/
def compile (toolbox : Toolbox τ) (settings : CompileSettings) (remote : Remote)
    (sandbox : Option Sandbox) (tool : ToolInfo) (w : Workspace τ) : CompileRun × Workspace τ :=
  let (startedAt, w) := useTools toolbox.date w
  let (start, w) := useTools toolbox.clock w
  let (run, w) := orchestrate settings.run (surroundings toolbox settings remote sandbox)
    settings.entry w
  let (stop, w) := useTools toolbox.clock w
  let (endedAt, w) := useTools toolbox.date w
  let report := run.report tool settings.entry.text
  let info : RunInfo :=
    { startedAt := some startedAt, endedAt := some endedAt
      durationMs := some (Span.between start stop).milliseconds.toUInt64 }
  (⟨{ report with run := info }, run.patch⟩, w)

end Workspace

end ContractBuild
