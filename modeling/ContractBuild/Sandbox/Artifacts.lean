import ContractBuild.Compile.Artifact
import ContractBuild.Compile.Config
import ContractBuild.Disk.Glob
import ContractBuild.Failure
import ContractBuild.Text.Pattern

/-!
# Artifacts of the build tool

The build tool leaves one JSON file for each contract. `Disk.buildArtifacts` reads those that can be
deployed; what is no artifact is passed over.
-/

namespace ContractBuild

open Json Text

/-- A contract as the build tool writes it. -/
structure BuildArtifact where
  contractName : String
  sourceName : Option String := none
  abi : List Json := []
  bytecode : String := ""
  deployedBytecode : String := ""

/-- The shape of a contract as the build tool writes it. -/
def BuildArtifact.shape : Shape BuildArtifact := fun n => do
  let f ← n.record "HardhatArtifact"
    [required "contractName" Node.string, optional "sourceName" (Node.nullable Node.string),
     optional "abi" (shapeOf (List Json)), optional "bytecode" Node.string,
     optional "deployedBytecode" Node.string]
  return {
    contractName := ← f.get "contractName" Node.string
    sourceName := ← f.get? "sourceName" Node.string
    abi := ← f.getD "abi" (shapeOf (List Json)) []
    bytecode := ← f.getD "bytecode" Node.string ""
    deployedBytecode := ← f.getD "deployedBytecode" Node.string "" }

/-- What is told of how a contract was compiled. -/
def buildMetadata (solcVersion : String) (config : CompilerConfig) : Json :=
  .obj [("compiler", .obj [("version", .str solcVersion)]),
    ("settings", .obj [("evmVersion", .str config.evmVersion),
      ("optimizer", .obj [("enabled", .bool config.optimizerEnabled),
        ("runs", toJson config.optimizerRuns)])])]

/-- A contract with its codes in the usual spelling. -/
def BuildArtifact.compiled (a : BuildArtifact) (metadata : Json) : CompiledArtifact :=
  { contractName := a.contractName, sourceName := a.sourceName
    bytecode := withHexPrefix a.bytecode, deployedBytecode := withHexPrefix a.deployedBytecode
    abi := a.abi, metadata := some metadata }

namespace Disk

/-- Whether a path is one of debugging data. -/
def isDebugData (p : Path) : Bool :=
  contains (p.fileName?.getD "").toList ".dbg.".toList ||
    p.components.any (·.text == "build-info")

/-- Adds the contract in a file, if it is one that can be deployed. -/
def addArtifact (d : Disk) (metadata : Json) (found : ArtifactMap) (p : Path) :
    Except Failure ArtifactMap :=
  if isDebugData p then .ok found
  else
    match d.readText p with
    | .error message => .error ⟨message, []⟩
    | .ok text =>
      match decode BuildArtifact.shape text with
      | .error _ => .ok found
      | .ok a =>
        let compiled := a.compiled metadata
        .ok (if compiled.isDeployable then found.insert a.contractName compiled else found)

/-- The contracts below a directory. -/
def buildArtifacts (d : Disk) (dir : Path) (solcVersion : String) (config : CompilerConfig) :
    Except Failure ArtifactMap :=
  let pattern := dir.text ++ "/**/*.json"
  match d.glob pattern with
  | .error e => .error ⟨s!"glob {pattern}", [e.message]⟩
  | .ok paths => paths.foldlM (d.addArtifact (buildMetadata solcVersion config)) ∅

end Disk

end ContractBuild
