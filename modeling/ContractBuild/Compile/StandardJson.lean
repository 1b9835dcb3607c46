import ContractBuild.Compile.Artifact
import ContractBuild.Compile.Config
import ContractBuild.Compile.Diagnostic

/-!
# The standard JSON interface of the compiler

`StandardInput` is what the compiler is given, and `StandardOutput` the part of its answer that is
read; fields that are not known are ignored.
-/

namespace ContractBuild

open Json

/-! ## Input -/

/-- What the compiler is given. -/
structure StandardInput where
  language : String
  /-- Texts by unit name. -/
  sources : Dict String
  optimizerEnabled : Bool
  optimizerRuns : UInt32
  evmVersion : String
  /-- The outputs asked for, by unit and by contract. -/
  outputSelection : Dict (Dict (List String))
  deriving Repr, DecidableEq

namespace StandardInput

/-- The outputs that are asked for of every contract. -/
def outputs : List String :=
  ["abi", "evm.bytecode.object", "evm.deployedBytecode.object", "evm.gasEstimates", "metadata"]

/-- The input for some units under a configuration. -/
def ofSources (sources : Dict String) (config : CompilerConfig) : StandardInput where
  language := "Solidity"
  sources
  optimizerEnabled := config.optimizerEnabled
  optimizerRuns := config.optimizerRuns
  evmVersion := config.evmVersion
  outputSelection := Dict.empty.insert "*" (Dict.empty.insert "*" outputs)

/-- A unit. -/
def entryShape : Shape String := fun n => do
  let f ← n.record "SourceEntry" [required "content" Node.string]
  f.get "content" Node.string

/-- The settings of the optimizer. -/
def optimizerShape : Shape (Bool × UInt32) := fun n => do
  let f ← n.record "OptimizerSettings"
    [required "enabled" Node.boolean, required "runs" (shapeOf UInt32)]
  return (← f.get "enabled" Node.boolean, ← f.get "runs" (shapeOf UInt32))

/-- The settings. -/
def settingsShape : Shape ((Bool × UInt32) × String × Dict (Dict (List String))) := fun n => do
  let f ← n.record "InputSettings"
    [required "optimizer" optimizerShape, required "evmVersion" Node.string,
     required "outputSelection" (shapeOf (Dict (Dict (List String))))]
  return (← f.get "optimizer" optimizerShape, ← f.get "evmVersion" Node.string,
    ← f.get "outputSelection" (shapeOf (Dict (Dict (List String)))))

instance : JsonForm StandardInput where
  toJson i := .obj
    [("language", .str i.language),
     ("sources", .obj (i.sources.entries.map fun e => (e.1, .obj [("content", .str e.2)]))),
     ("settings", .obj
       [("optimizer", .obj
          [("enabled", .bool i.optimizerEnabled), ("runs", toJson i.optimizerRuns)]),
        ("evmVersion", .str i.evmVersion),
        ("outputSelection", toJson i.outputSelection)])]
  shape n := do
    let f ← n.record "StandardJsonInput"
      [required "language" Node.string, required "sources" (Node.dict entryShape),
       required "settings" settingsShape]
    let language ← f.get "language" Node.string
    let sources ← f.get "sources" (Node.dict entryShape)
    let ((optimizerEnabled, optimizerRuns), evmVersion, outputSelection) ←
      f.get "settings" settingsShape
    return { language, sources, optimizerEnabled, optimizerRuns, evmVersion, outputSelection }

end StandardInput

/-! ## Output -/

/-- A message in the compiler's answer. -/
structure OutputError where
  severity : String := ""
  message : String := ""
  formattedMessage : Option String := none
  kind : Option String := none
  deriving Repr, DecidableEq

namespace OutputError

/-- The message as a diagnostic. Any severity but a warning or an information is an error. -/
def toDiagnostic (e : OutputError) : CompilerDiagnostic where
  severity :=
    if e.severity == "warning" then .warning else if e.severity == "info" then .info else .error
  message := e.message
  formattedMessage := e.formattedMessage
  kind := e.kind

instance : JsonForm OutputError where
  toJson e := .object
    [("severity", some (.str e.severity)), ("message", some (.str e.message)),
     ("formattedMessage", e.formattedMessage.map .str), ("type", e.kind.map .str)]
  shape n := do
    let f ← n.record "OutputError"
      [optional "severity" Node.string, optional "message" Node.string,
       optional "formattedMessage" (Node.nullable Node.string),
       optional "type" (Node.nullable Node.string)]
    return {
      severity := ← f.getD "severity" Node.string ""
      message := ← f.getD "message" Node.string ""
      formattedMessage := ← f.get? "formattedMessage" Node.string
      kind := ← f.get? "type" Node.string }

end OutputError

/-- One contract in the compiler's answer. -/
structure ContractOutput where
  abi : List Json := []
  /-- The creation code, in hexadecimal. -/
  bytecode : String := ""
  deployedBytecode : String := ""
  gasEstimates : Option Json := none
  /-- The metadata, as JSON in a string. -/
  metadata : Option String := none
  deriving Repr, DecidableEq

namespace ContractOutput

/-- Code in an object of its own. -/
def codeShape : Shape String := fun n => do
  let f ← n.record "BytecodeObject" [optional "object" Node.string]
  f.getD "object" Node.string ""

/-- Code, deployed code and gas estimates. -/
def evmShape : Shape (String × String × Option Json) := fun n => do
  let f ← n.record "EvmOutput"
    [optional "bytecode" codeShape, optional "deployedBytecode" codeShape,
     optional "gasEstimates" (Node.nullable Node.value)]
  return (← f.getD "bytecode" codeShape "", ← f.getD "deployedBytecode" codeShape "",
    ← f.get? "gasEstimates" Node.value)

instance : JsonForm ContractOutput where
  toJson c := .object
    [("abi", some (.arr c.abi)),
     ("evm", some (.object
       [("bytecode", some (.obj [("object", .str c.bytecode)])),
        ("deployedBytecode", some (.obj [("object", .str c.deployedBytecode)])),
        ("gasEstimates", c.gasEstimates)])),
     ("metadata", c.metadata.map .str)]
  shape n := do
    let f ← n.record "ContractOutput"
      [optional "abi" (shapeOf (List Json)), optional "evm" evmShape,
       optional "metadata" (Node.nullable Node.string)]
    let abi ← f.getD "abi" (shapeOf (List Json)) []
    let (bytecode, deployedBytecode, gasEstimates) ← f.getD "evm" evmShape ("", "", none)
    let metadata ← f.get? "metadata" Node.string
    return { abi, bytecode, deployedBytecode, gasEstimates, metadata }

/-- The contract as an artifact. Metadata that is not JSON is kept as the string it is. -/
def toArtifact (c : ContractOutput) (unit name : String) : CompiledArtifact where
  contractName := name
  sourceName := some unit
  bytecode := withHexPrefix c.bytecode
  deployedBytecode := withHexPrefix c.deployedBytecode
  abi := c.abi
  metadata := c.metadata.map fun raw => (Json.parse raw).toOption.getD (.str raw)
  gasEstimates := c.gasEstimates

end ContractOutput

/-- The compiler's answer. -/
structure StandardOutput where
  errors : List OutputError := []
  /-- Contracts by unit and by name. -/
  contracts : Dict (Dict ContractOutput) := ∅
  deriving Repr, DecidableEq

namespace StandardOutput

instance : JsonForm StandardOutput where
  toJson o := .obj [("errors", toJson o.errors), ("contracts", toJson o.contracts)]
  shape n := do
    let f ← n.record "StandardJsonOutput"
      [optional "errors" (shapeOf (List OutputError)),
       optional "contracts" (shapeOf (Dict (Dict ContractOutput)))]
    return {
      errors := ← f.getD "errors" (shapeOf (List OutputError)) []
      contracts := ← f.getD "contracts" (shapeOf (Dict (Dict ContractOutput))) ∅ }

/-- The messages as diagnostics. -/
def diagnostics (o : StandardOutput) : List CompilerDiagnostic := o.errors.map (·.toDiagnostic)

/-- Whether a message says that it is an error. -/
def hasErrors (o : StandardOutput) : Bool := o.errors.any (·.severity == "error")

/-- The contracts that have creation code, in order of units and names. -/
def contractList (o : StandardOutput) : List (String × String × ContractOutput) :=
  (o.contracts.entries.flatMap fun u => u.2.entries.map fun c => (u.1, c.1, c.2)).filter
    fun c => !c.2.2.bytecode.isEmpty

/-- The contracts that have creation code, by name; of several with one name that of the last unit
counts. -/
def artifacts (o : StandardOutput) : ArtifactMap :=
  .ofList (o.contractList.map fun c => (c.2.1, c.2.2.toArtifact c.1 c.2.1))

end StandardOutput

end ContractBuild
