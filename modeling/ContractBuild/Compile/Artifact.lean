import ContractBuild.Json.Form

/-!
# Compiled contracts

An artifact is what a compiler makes of one contract. The main contract of a compilation is the one
asked for by name, or else the deployable one with the longest creation code.
-/

namespace ContractBuild

open Json

/-- A compiled contract. -/
structure CompiledArtifact where
  contractName : String
  sourceName : Option String := none
  /-- The creation code, in hexadecimal behind `0x`. -/
  bytecode : String
  /-- The code that is left on the chain. -/
  deployedBytecode : String
  abi : List Json := []
  metadata : Option Json := none
  gasEstimates : Option Json := none
  deriving Repr, DecidableEq, Inhabited

/-- Contracts by name. -/
abbrev ArtifactMap := Dict CompiledArtifact

/-- A text without any number of hexadecimal prefixes. -/
def bareHex : List Char → List Char
  | '0' :: 'x' :: rest => bareHex rest
  | cs => cs

/-- A text behind `0x`, unless it starts with that already. -/
def withHexPrefix (hex : String) : String :=
  if "0x".toList.isPrefixOf hex.toList then hex else "0x" ++ hex

/-- A prefix in front does not make code. -/
theorem bareHex_withHexPrefix (hex : String) :
    bareHex (withHexPrefix hex).toList = bareHex hex.toList := by
  unfold withHexPrefix
  split
  · rfl
  · rw [String.toList_append]
    rfl

namespace CompiledArtifact

/-- Whether there is creation code. -/
def isDeployable (a : CompiledArtifact) : Bool := !(bareHex a.bytecode.toList).isEmpty

/-- The size of the creation code in bytes. -/
def bytecodeLength (a : CompiledArtifact) : Nat :=
  (String.ofList (bareHex a.bytecode.toList)).utf8ByteSize / 2

instance : JsonForm CompiledArtifact where
  toJson a := .object
    [("contract_name", some (.str a.contractName)), ("source_name", a.sourceName.map .str),
     ("bytecode", some (.str a.bytecode)), ("deployed_bytecode", some (.str a.deployedBytecode)),
     ("abi", some (.arr a.abi)), ("metadata", a.metadata), ("gas_estimates", a.gasEstimates)]
  shape n := do
    let f ← n.record "CompiledArtifact"
      [required "contract_name" Node.string, optional "source_name" (Node.nullable Node.string),
       required "bytecode" Node.string, required "deployed_bytecode" Node.string,
       optional "abi" (shapeOf (List Json)), optional "metadata" (Node.nullable Node.value),
       optional "gas_estimates" (Node.nullable Node.value)]
    return {
      contractName := ← f.get "contract_name" Node.string
      sourceName := ← f.get? "source_name" Node.string
      bytecode := ← f.get "bytecode" Node.string
      deployedBytecode := ← f.get "deployed_bytecode" Node.string
      abi := ← f.getD "abi" (shapeOf (List Json)) []
      metadata := ← f.get? "metadata" Node.value
      gasEstimates := ← f.get? "gas_estimates" Node.value }

end CompiledArtifact

/-- The contract that a caller deploys. -/
structure MainContract where
  contractName : String
  bytecodeLength : UInt64
  deriving Repr, DecidableEq

instance : JsonForm MainContract where
  toJson m := .obj
    [("contract_name", .str m.contractName), ("bytecode_length", toJson m.bytecodeLength)]
  shape n := do
    let f ← n.record "MainContract"
      [required "contract_name" Node.string, required "bytecode_length" (shapeOf UInt64)]
    return {
      contractName := ← f.get "contract_name" Node.string
      bytecodeLength := ← f.get "bytecode_length" (shapeOf UInt64) }

/-- The main contract that an artifact stands for. -/
def CompiledArtifact.asMain (a : CompiledArtifact) : MainContract :=
  ⟨a.contractName, a.bytecodeLength.toUInt64⟩

/-- The first of the longest artifacts. -/
def longest? : List CompiledArtifact → Option CompiledArtifact
  | [] => none
  | a :: rest =>
    match longest? rest with
    | some b => if a.bytecodeLength < b.bytecodeLength then some b else some a
    | none => some a

/-- The main contract: the one asked for, or the deployable one with the longest creation code, the
first by name of several. -/
def selectMain (artifacts : ArtifactMap) (requested : Option String) : Option CompiledArtifact :=
  match requested with
  | some name => artifacts.get? name
  | none => longest? (artifacts.values.filter (·.isDeployable))

end ContractBuild
