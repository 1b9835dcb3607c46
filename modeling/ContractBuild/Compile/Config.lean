import ContractBuild.Json.Form

/-!
# Strategies and compiler configurations
-/

namespace ContractBuild

open Json

/-- A way to compile a root module. -/
inductive Strategy where
  /-- The root with all units it imports, as they are. -/
  | directImport
  /-- The flattened root as one unit. -/
  | flattenCompile
  /-- A throw-away project for an external build tool. -/
  | sandbox
  deriving Repr, DecidableEq, Inhabited

namespace Strategy

/-- All strategies. -/
def all : List Strategy := [directImport, flattenCompile, sandbox]

/-- The name of a strategy. -/
def name : Strategy → String
  | directImport => "direct-import"
  | flattenCompile => "flatten-compile"
  | sandbox => "sandbox"

/-- The strategy with a name. -/
def ofName? (name : String) : Option Strategy := all.find? (·.name == name)

instance : JsonForm Strategy where
  toJson s := .str s.name
  shape := Node.choice (all.map fun s => (s.name, s))

/-- What is wrong with a list of strategies. -/
inductive ListError where
  | unknown (name : String)
  | repeated (name : String)
  deriving Repr, DecidableEq

/-- The wording of an error. -/
def ListError.message : ListError → String
  | unknown name =>
    let known := ", ".intercalate (all.map (·.name))
    s!"unknown strategy '{name}' (expected one of: {known})"
  | repeated name => s!"strategy '{name}' listed twice"

/-- The strategies with some names, none of them twice, behind those in `before`. -/
def ofNamesAfter (before : List Strategy) : List String → Except ListError (List Strategy)
  | [] => .ok before
  | name :: rest =>
    match ofName? name with
    | none => .error (.unknown name)
    | some s =>
      if before.contains s then .error (.repeated name) else ofNamesAfter (before ++ [s]) rest

/-- The strategies with some names, none of them twice. -/
def ofNames (names : List String) : Except ListError (List Strategy) := ofNamesAfter [] names

end Strategy

/-- A version of the execution environment, and the settings of the optimizer. -/
structure CompilerConfig where
  evmVersion : String
  optimizerEnabled : Bool
  optimizerRuns : UInt32
  deriving Repr, DecidableEq, Inhabited

namespace CompilerConfig

/-- The configurations that are tried unless others are given: the newest environment first, and
the optimizer off at last. -/
def defaultSweep : List CompilerConfig :=
  [⟨"cancun", true, 200⟩, ⟨"paris", true, 200⟩, ⟨"london", true, 200⟩, ⟨"berlin", false, 1⟩]

/-- The configuration in words. -/
def describe (c : CompilerConfig) : String :=
  if c.optimizerEnabled then s!"{c.evmVersion} (optimizer, {c.optimizerRuns.toNat} runs)"
  else s!"{c.evmVersion} (no optimizer)"

instance : JsonForm CompilerConfig where
  toJson c := .obj
    [("evm_version", .str c.evmVersion), ("optimizer_enabled", .bool c.optimizerEnabled),
     ("optimizer_runs", toJson c.optimizerRuns)]
  shape n := do
    let f ← n.record "CompilerConfig"
      [required "evm_version" Node.string, required "optimizer_enabled" Node.boolean,
       required "optimizer_runs" (shapeOf UInt32)]
    return {
      evmVersion := ← f.get "evm_version" Node.string
      optimizerEnabled := ← f.get "optimizer_enabled" Node.boolean
      optimizerRuns := ← f.get "optimizer_runs" (shapeOf UInt32) }

end CompilerConfig

end ContractBuild
