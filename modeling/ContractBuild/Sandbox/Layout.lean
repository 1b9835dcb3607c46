import ContractBuild.Compile.Run
import ContractBuild.Disk.Output

/-!
# The layout of a throw-away project

Units that are reached relatively from the root go below `contracts`, from where they may step out
within the project. Units of packages go below `node_modules`, which they may not leave, and each
package gets a manifest.
-/

namespace ContractBuild

open Text

/-- Why a unit has no place in the project. -/
inductive LayoutError where
  /-- It steps out of the project, or out of the packages. -/
  | escapes (unit : String)
  | notRelative (unit : String)
  /-- Its steps end where they start. -/
  | nameless (unit : String)
  deriving Repr, DecidableEq

/-- The wording of an error. -/
def LayoutError.message : LayoutError → String
  | escapes unit => s!"source unit `{unit}` escapes the sandbox"
  | notRelative unit => s!"source unit `{unit}` is not relative"
  | nameless unit => s!"source unit `{unit}` has no file name"

namespace Sandbox

/-- The directory that units start from. -/
def base (package : Bool) : String := if package then "node_modules" else "contracts"

/-- How many directories of the project a unit may not leave. -/
def floor (package : Bool) : Nat := if package then 1 else 0

/-- Follows the steps of a unit from a place in the project, which is given by its names, the last
one first. -/
def descend (unit : String) (floor : Nat) (names : List String) :
    List Component → Except LayoutError (List String)
  | [] => if names.length ≤ floor then .error (.nameless unit) else .ok names
  | .name s :: rest => descend unit floor (s :: names) rest
  | .here :: rest => descend unit floor names rest
  | .up :: rest =>
    if names.length ≤ floor then .error (.escapes unit) else descend unit floor names.tail rest
  | .root :: _ => .error (.notRelative unit)

/-- The names that lead to a unit from the project on. -/
def unitNames (unit : String) (package : Bool) : Except LayoutError (List String) :=
  (descend unit (floor package) [base package] (Path.mk unit).components).map List.reverse

/-- Where a unit is written. -/
def unitPath (dir : Path) (unit : String) (package : Bool) : Except LayoutError Path := do
  return (← unitNames unit package).foldl (fun p name => p.join ⟨name⟩) dir

/-- The stretches of a unit that say something. -/
def segments (unit : String) : List String :=
  ((Path.segments unit.toList).filter (! Path.idle ·)).map String.ofList

/-- The package of a unit: its first name, or its first two if there is a scope. A unit that lies in
no directory of a package belongs to none. -/
def packageName? (unit : String) : Option String :=
  match segments unit with
  | first :: second :: rest =>
    if first.toList.head? == some '@' then
      if rest.isEmpty then none else some (first ++ "/" ++ second)
    else some first
  | _ => none

/-- The manifest of a package. -/
def packageManifest (name : String) : String :=
  (Json.obj [("name", .str name), ("version", .str "0.0.0")]).compact

/-- The manifest of the project. -/
def projectManifest : String :=
  "\x7b\n  \"name\": \"solforge-sandbox\",\n  \"private\": true,\n  \"type\": \"module\"\n\x7d\n"

/-- The configuration of the build tool. -/
def buildConfig (solcVersion : String) (config : CompilerConfig) : String :=
  String.join (([
    "export default \x7b",
    "  solidity: \x7b",
    "    version: \"" ++ solcVersion ++ "\",",
    "    settings: \x7b",
    "      optimizer: \x7b enabled: " ++ (if config.optimizerEnabled then "true" else "false") ++
      ", runs: " ++ toString config.optimizerRuns.toNat ++ " \x7d,",
    "      evmVersion: \"" ++ config.evmVersion ++ "\"",
    "    \x7d",
    "  \x7d,",
    "  paths: \x7b",
    "    sources: \"./contracts\",",
    "    cache: \"./.cache\",",
    "    artifacts: \"./.artifacts\"",
    "  \x7d",
    "\x7d;"] : List String).map (· ++ "\n"))

/-! ## Laying it out -/

/-- Writes a file into a directory that exists. -/
def writeText (p : Path) (text : String) : OnDisk Failure Unit :=
  Disk.saying "create file" p (Disk.writeFile p text.toUTF8)

/-- Writes a unit, and the manifest of its package unless there is one. -/
def layUnit (dir : Path) (packages : KeySet) (unit text : String) : OnDisk Failure Unit := do
  let package := packages.contains unit
  match unitPath dir unit package with
  | .error e => throw ⟨e.message, []⟩
  | .ok target =>
    if let some parent := target.parent? then
      Disk.saying "create directory" parent (Disk.makeDirs parent)
    writeText target text
    match package, packageName? unit with
    | true, some name =>
      let manifest := ((dir.join ⟨"node_modules"⟩).join ⟨name⟩).join ⟨"package.json"⟩
      if !(← get).hasPath manifest then writeText manifest (packageManifest name)
    | _, _ => return

/-- Writes units in order. -/
def layUnits (dir : Path) (packages : KeySet) : List (String × String) → OnDisk Failure Unit
  | [] => return
  | (unit, text) :: rest => do
    layUnit dir packages unit text
    layUnits dir packages rest

/-- Lays a project out in a directory that exists. -/
def layOut (dir : Path) (solcVersion : String) (request : SandboxRequest) :
    OnDisk Failure Unit := do
  writeText (dir.join ⟨"package.json"⟩) projectManifest
  writeText (dir.join ⟨"hardhat.config.js"⟩) (buildConfig solcVersion request.config)
  layUnits dir request.packages request.sources.entries

end Sandbox

end ContractBuild
