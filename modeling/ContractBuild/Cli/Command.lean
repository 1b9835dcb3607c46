import ContractBuild.Cli.Arguments
import ContractBuild.Project.Config

/-!
# The commands
-/

namespace ContractBuild

/-- Which project to work on, and how its imports are resolved. -/
structure ProjectOptions where
  projectRoot : Path := ⟨"."⟩
  outDir : Option Path := none
  dependencyDirs : List String := []
  strict : Bool := false
  /-- The token for remote repositories. -/
  token : Option String := none
  deriving Repr, DecidableEq

/-- How the rules are listed. -/
inductive ListFormat where
  | text
  | json
  deriving Repr, DecidableEq

/-- What a user asks for. -/
inductive Command where
  /-- Writes a root with all it imports as one unit, and perhaps prints it. -/
  | flatten (entry : Path) (project : ProjectOptions) (print : Bool)
  /-- Compiles a root. -/
  | compile (entry : Path) (project : ProjectOptions) (overrides : Overrides)
      (contract : Option String)
  /-- Explains a rule. -/
  | explain (rule : String)
  /-- Lists the rules. -/
  | listFixes (format : ListFormat)
  deriving Repr, DecidableEq

namespace Command

/-! ## What the commands take -/

/-- The options of a project. -/
def projectOptions : List OptionSpec :=
  [⟨"project-root", .single .text⟩, ⟨"out-dir", .single .text⟩,
   ⟨"dependency-dir", .repeated .text⟩, ⟨"strict", .switch⟩, ⟨"github-token", .single .text⟩]

/-- The arguments of `flatten`. -/
def flattenSpec : CommandSpec :=
  ⟨"flatten", ["ENTRY"], projectOptions ++ [⟨"print", .switch⟩]⟩

/-- The arguments of `compile`. -/
def compileSpec : CommandSpec :=
  ⟨"compile", ["ENTRY"], projectOptions ++
    [⟨"solc", .single .text⟩, ⟨"solc-version", .single .text⟩, ⟨"strategy", .repeated .text⟩,
     ⟨"max-attempts", .single (.number UInt32.size true)⟩,
     ⟨"timeout-secs", .single (.number UInt64.size false)⟩,
     ⟨"no-auto-fix", .switch⟩, ⟨"no-aggressive-fixes", .switch⟩, ⟨"no-sandbox", .switch⟩,
     ⟨"contract", .single .text⟩]⟩

/-- The arguments of `explain`. -/
def explainSpec : CommandSpec := ⟨"explain", ["RULE"], []⟩

/-- The arguments of `list-fixes`. -/
def listFixesSpec : CommandSpec :=
  ⟨"list-fixes", [], [⟨"format", .single (.word ["text", "json"])⟩]⟩

/-- All commands. -/
def specs : List CommandSpec := [flattenSpec, compileSpec, explainSpec, listFixesSpec]

/-! ## Reading -/

/-- The first positional argument as a path. -/
def entryOf (g : Given) : Path := ⟨g.positionals.headD ""⟩

/-- The options of a project that were given. -/
def projectOf (g : Given) : ProjectOptions :=
  { projectRoot := ⟨(g.value? "project-root").getD "."⟩
    outDir := (g.value? "out-dir").map Path.mk
    dependencyDirs := g.values "dependency-dir"
    strict := g.has "strict"
    token := g.value? "github-token" }

/-- The overrides that were given. -/
def overridesOf (g : Given) : Overrides :=
  { dependencyDirs := g.values "dependency-dir"
    strict := g.has "strict"
    solc := g.value? "solc"
    solcVersion := g.value? "solc-version"
    strategies := g.values "strategy"
    maxAttempts := ((g.value? "max-attempts").bind (signedBelow? UInt32.size true)).map (·.toUInt32)
    timeoutSecs :=
      ((g.value? "timeout-secs").bind (signedBelow? UInt64.size false)).map (·.toUInt64)
    noAutoFix := g.has "no-auto-fix"
    noAggressiveFixes := g.has "no-aggressive-fixes"
    noSandbox := g.has "no-sandbox" }

/-- The command with a name and the arguments that were given to it. -/
def ofGiven (name : String) (g : Given) : Command :=
  match name with
  | "flatten" => flatten (entryOf g) (projectOf g) (g.has "print")
  | "compile" => compile (entryOf g) (projectOf g) (overridesOf g) (g.value? "contract")
  | "explain" => explain (g.positionals.headD "")
  | _ => listFixes (if g.value? "format" == some "json" then .json else .text)

/-- Asks for help with a command, or with all of them. -/
def helpWith : List String → Halt
  | [] => .help none
  | [name] =>
    if name == "help" then .help none
    else if specs.any (·.name == name) then .help (some name)
    else .refused (.unknownCommand name)
  | _ :: name :: _ => .refused (.unknownCommand name)

/-- Reads a command line. -/
def ofArguments : List String → Except Halt Command
  | [] => .error (.refused .missingCommand)
  | arg :: rest =>
    match longOption? arg, shortOption? arg with
    | some ("version", none), _ => .error .version
    | some ("help", none), _ => .error (.help none)
    | some _, _ => .error (.refused (.unexpected arg))
    | none, some 'V' => .error .version
    | none, some 'h' => .error (.help none)
    | none, some _ => .error (.refused (.unexpected arg))
    | none, none =>
      if arg == "help" then .error (helpWith rest)
      else
        match specs.find? (·.name == arg) with
        | some spec => do return ofGiven arg (← spec.read rest)
        | none => .error (.refused (.unknownCommand arg))

end Command

end ContractBuild
