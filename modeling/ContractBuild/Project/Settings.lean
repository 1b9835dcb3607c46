import ContractBuild.Compile.Run

/-!
# Settings of a project
-/

namespace ContractBuild

/-- Which root to work on, and where. -/
structure ProjectSettings where
  projectRoot : Path := ⟨"."⟩
  /-- The root module, absolute or relative to the project root. -/
  entry : Path := ∅
  /-- Where results are written. -/
  outDir : Path := ⟨"artifacts/solforge"⟩
  resolver : ResolverSettings := {}
  deriving Repr, DecidableEq

/-- The compiler that is run unless another one is given. -/
def defaultSolc : String := "solc"

/-- The release of the compiler in the sandbox unless another one is given. -/
def defaultSolcVersion : String := "0.8.20"

/-- How to compile a root. -/
structure CompileSettings extends ProjectSettings where
  run : RunSettings := {}
  /-- The program that is run as the compiler. -/
  solc : String := defaultSolc
  /-- The release of the compiler in the sandbox. -/
  solcVersion : String := defaultSolcVersion
  deriving Repr, DecidableEq

end ContractBuild
