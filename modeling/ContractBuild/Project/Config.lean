import ContractBuild.Disk.Tree
import ContractBuild.Failure
import ContractBuild.Project.Settings
import ContractBuild.Toml.Document

/-!
# The configuration file of a project

A `ProjectConfig` is what the configuration file says, and `Overrides` what a user says for one run.
`ProjectConfig.merge` puts both together with the defaults: the user comes first, then the file,
then the defaults. Switches that turn something off only ever turn it off.
-/

namespace ContractBuild

/-! ## Sections -/

/-- How imports are resolved. -/
structure ResolverSection where
  dependencyDirs : Option (List String) := none
  strict : Bool := false
  deriving Repr, DecidableEq

/-- How a root is compiled. -/
structure CompileSection where
  solc : Option String := none
  solcVersion : Option String := none
  maxAttempts : Option UInt32 := none
  timeoutSecs : Option UInt64 := none
  autoFix : Option Bool := none
  aggressiveFixes : Option Bool := none
  strategies : Option (List String) := none
  configs : List CompilerConfig := []
  deriving Repr, DecidableEq

/-- How throw-away projects are built. -/
structure SandboxSection where
  enabled : Bool := true
  command : Option (List String) := none
  deriving Repr, DecidableEq

/-- What a configuration file says. -/
structure ProjectConfig where
  resolver : ResolverSection := {}
  compile : CompileSection := {}
  sandbox : SandboxSection := {}
  deriving Repr, DecidableEq

/-! ## Reading -/

namespace Toml

/-- A text. -/
def text? : Toml → Option String
  | str s => some s
  | _ => none

/-- A truth value. -/
def bool? : Toml → Option Bool
  | bool b => some b
  | _ => none

/-- A number from zero up to below a limit. -/
def natBelow? (limit : Nat) : Toml → Option Nat
  | int n => if 0 ≤ n ∧ n < limit then some n.toNat else none
  | _ => none

/-- A list. -/
def list? {α : Type} (item? : Toml → Option α) : Toml → Option (List α)
  | arr items | tables items => items.mapM item?
  | _ => none

/-- The fields of a record. In a table there may be others, as long as their numbers are in range. A
list gives the fields in their order, and a date is a record without any of them. -/
def record? (names : List String) : Toml → Option (List (String × Toml))
  | table _ fields =>
    if fieldsInRange (fields.filter fun f => !names.contains f.1) then some fields else none
  | arr items | tables items => some (names.zip items)
  | date => some []
  | _ => none

/-- A field that may be missing. -/
def maybeField {α : Type} (value? : Toml → Option α) (fields : List (String × Toml))
    (name : String) : Option (Option α) :=
  match lookup fields name with
  | none => some none
  | some v => (value? v).map some

/-- A field that has a value where it is missing. -/
def fieldOr {α : Type} (value? : Toml → Option α) (default : α) (fields : List (String × Toml))
    (name : String) : Option α :=
  (maybeField value? fields name).map (·.getD default)

end Toml

open Toml

/-- Reads how imports are resolved. -/
def ResolverSection.ofToml? (t : Toml) : Option ResolverSection := do
  let fields ← t.record? ["dependency_dirs", "strict"]
  return {
    dependencyDirs := ← maybeField (list? text?) fields "dependency_dirs"
    strict := ← fieldOr bool? false fields "strict" }

/-- Reads a compiler configuration. The optimizer is on, with 200 runs, unless the file says
otherwise. -/
def CompilerConfig.ofToml? (t : Toml) : Option CompilerConfig := do
  let fields ← t.record? ["evm_version", "optimizer", "runs"]
  return {
    evmVersion := ← (lookup fields "evm_version").bind text?
    optimizerEnabled := ← fieldOr bool? true fields "optimizer"
    optimizerRuns := (← fieldOr (natBelow? UInt32.size) 200 fields "runs").toUInt32 }

/-- Reads how a root is compiled. -/
def CompileSection.ofToml? (t : Toml) : Option CompileSection := do
  let fields ← t.record? ["solc", "solc_version", "max_attempts", "timeout_secs", "auto_fix",
    "aggressive_fixes", "strategies", "configs"]
  return {
    solc := ← maybeField text? fields "solc"
    solcVersion := ← maybeField text? fields "solc_version"
    maxAttempts := (← maybeField (natBelow? UInt32.size) fields "max_attempts").map (·.toUInt32)
    timeoutSecs := (← maybeField (natBelow? UInt64.size) fields "timeout_secs").map (·.toUInt64)
    autoFix := ← maybeField bool? fields "auto_fix"
    aggressiveFixes := ← maybeField bool? fields "aggressive_fixes"
    strategies := ← maybeField (list? text?) fields "strategies"
    configs := ← fieldOr (list? CompilerConfig.ofToml?) [] fields "configs" }

/-- Reads how throw-away projects are built. -/
def SandboxSection.ofToml? (t : Toml) : Option SandboxSection := do
  let fields ← t.record? ["enabled", "command"]
  return {
    enabled := ← fieldOr bool? true fields "enabled"
    command := ← maybeField (list? text?) fields "command" }

namespace ProjectConfig

/-- Reads the sections of a document. Anything else in it is left alone. -/
def ofToml? (t : Toml) : Option ProjectConfig := do
  let fields ← t.record? ["resolver", "compile", "sandbox"]
  return {
    resolver := ← fieldOr ResolverSection.ofToml? {} fields "resolver"
    compile := ← fieldOr CompileSection.ofToml? {} fields "compile"
    sandbox := ← fieldOr SandboxSection.ofToml? {} fields "sandbox" }

/-- The name of the configuration file. -/
def fileName : String := "solforge.toml"

/-- Reads the text of a configuration file. -/
def parse (text : String) : Except Failure ProjectConfig :=
  match (Toml.parse? text).bind ofToml? with
  | some config => .ok config
  | none => .error ⟨"invalid TOML", []⟩

/-- Reads a configuration file. -/
def read (disk : Disk) (file : Path) : Except Failure ProjectConfig :=
  match disk.readText file with
  | .error cause => .error ⟨s!"read config file {file.text}", [cause]⟩
  | .ok text => (parse text).mapError (·.within s!"parse config file {file.text}")

/-- The configuration of a project: that of its file, or the default where there is no file. -/
def load (disk : Disk) (projectRoot : Path) : Except Failure ProjectConfig :=
  let file := projectRoot.join ⟨fileName⟩
  if disk.hasPath file then read disk file else .ok {}

end ProjectConfig

/-! ## Merging -/

/-- What a user says for one run. -/
structure Overrides where
  dependencyDirs : List String := []
  strict : Bool := false
  solc : Option String := none
  solcVersion : Option String := none
  strategies : List String := []
  maxAttempts : Option UInt32 := none
  timeoutSecs : Option UInt64 := none
  noAutoFix : Bool := false
  noAggressiveFixes : Bool := false
  noSandbox : Bool := false
  deriving Repr, DecidableEq

/-- All settings that a file or a user can change. -/
structure MergedConfig where
  resolver : ResolverSettings := {}
  run : RunSettings := {}
  solc : String := defaultSolc
  solcVersion : String := defaultSolcVersion
  sandboxEnabled : Bool := true
  /-- The command of the sandbox; none means its usual one. -/
  sandboxCommand : List String := []
  deriving Repr, DecidableEq

/-- The first list that holds anything. -/
def firstNonempty {α : Type} (first second : List α) : List α :=
  if first.isEmpty then second else first

/-- What a user and a file say together. -/
def ProjectConfig.merge (c : ProjectConfig) (o : Overrides) :
    Except Strategy.ListError MergedConfig := do
  let defaults : CompileSettings := {}
  let names := firstNonempty o.strategies (c.compile.strategies.getD [])
  let strategies ←
    if names.isEmpty then pure defaults.run.strategies else Strategy.ofNames names
  return {
    resolver :=
      { dependencyDirs := firstNonempty o.dependencyDirs
          (c.resolver.dependencyDirs.getD defaults.resolver.dependencyDirs)
        strict := o.strict || c.resolver.strict }
    run :=
      { strategies
        configs := firstNonempty c.compile.configs defaults.run.configs
        maxAttempts := (o.maxAttempts.or c.compile.maxAttempts).getD defaults.run.maxAttempts
        timeout := (o.timeoutSecs.or c.compile.timeoutSecs).elim defaults.run.timeout
          fun n => .ofSeconds n.toNat
        autoFix := !o.noAutoFix && c.compile.autoFix.getD defaults.run.autoFix
        aggressiveFixes :=
          !o.noAggressiveFixes && c.compile.aggressiveFixes.getD defaults.run.aggressiveFixes }
    solc := (o.solc.or c.compile.solc).getD defaults.solc
    solcVersion := (o.solcVersion.or c.compile.solcVersion).getD defaults.solcVersion
    sandboxEnabled := !o.noSandbox && c.sandbox.enabled
    sandboxCommand := c.sandbox.command.getD [] }

end ContractBuild
