import ContractBuild.Program.Call
import ContractBuild.Sandbox.Artifacts
import ContractBuild.Sandbox.Layout

/-!
# Builds in a throw-away project

The project lies on a disk of its own, so nothing of it is left when the build is over.
-/

namespace ContractBuild

open Text

/-- How throw-away projects are built. -/
structure Sandbox where
  /-- The build tool with the first of its arguments. -/
  command : List String := ["npx", "--yes", "hardhat"]
  /-- The release of the compiler that the build tool takes. -/
  solcVersion : String
  /-- Where the project lies. -/
  dir : Path
  deriving Repr, DecidableEq

namespace Sandbox

/-- A disk with nothing but the directory of the project, and that directory. -/
def freshDisk (s : Sandbox) : Disk := ((Disk.makeDirs s.dir).run.run {}).2

/-- What the build tool says of a failure. -/
def complaint (r : ProgramResult) : String :=
  let text := ProgramResult.trimmed r.stderr
  if text.isEmpty then ProgramResult.trimmed r.stdout else text

/-- The contracts that a build left on the disk. -/
def collect (s : Sandbox) (config : CompilerConfig) (disk : Disk) :
    Except SandboxError ArtifactMap :=
  let dir := s.dir.join ⟨".artifacts"⟩
  match disk.buildArtifacts dir s.solcVersion config with
  | .error f => .error (.setup f)
  | .ok found => if found.isEmpty then .error (.noArtifacts dir.text) else .ok found

/-- Lays a project out and builds it. -/
def build {τ : Type} (s : Sandbox) (tools : Toolbox τ) (request : SandboxRequest) (t : τ) :
    Except SandboxError ArtifactMap × τ :=
  match s.command with
  | [] => (.error (.setup ⟨"empty sandbox command", []⟩), t)
  | program :: leading =>
    match (layOut s.dir s.solcVersion request).run.run s.freshDisk with
    | (.error f, _) => (.error (.setup f), t)
    | (.ok (), disk) =>
      let place := ((disk.locate s.dir).toOption).getD []
      let call : ProgramCall := { program, args := leading ++ ["compile", "--quiet"] }
      match tools.start call { disk with workDir := place } t with
      | (.error e, t) => (.error (.spawn program e), t)
      | (.ok (result, disk), t) =>
        if !result.isSuccess then (.error (.exited result.status (complaint result)), t)
        else (s.collect request.config { disk with workDir := [] }, t)

end Sandbox

end ContractBuild
