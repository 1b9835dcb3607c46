import ContractBuild.Solidity.Import
import ContractBuild.Solidity.License
import ContractBuild.Solidity.Pragma

/-!
# Source modules

`SourceModule.parse` reads one text: its directives, and its body, the text without them.
-/

namespace ContractBuild.Solidity

open Text

/-- One module of the import graph. -/
structure SourceModule where
  id : String
  text : String
  /-- The text without its directives. -/
  body : String
  pragma : Option String := none
  licenses : List String := []
  imports : List ImportReference := []
  deriving Repr, DecidableEq

/-- The text without licence lines, version pragmas and import statements, and without the spaces
around it. Each of the three passes looks for comments anew. -/
def stripDirectives (text : String) : String :=
  let kept := licenseLine.erase text.toList
  let kept := eraseInCode pragmaDirective kept
  let kept := eraseInCode importStatement kept
  String.ofList (trim kept)

/-- Reads one module. Its imports are not resolved yet. -/
def SourceModule.parse (id text : String) : SourceModule where
  id
  text
  body := stripDirectives text
  pragma := pragma? text
  licenses := declaredLicenses text
  imports := (importPaths text).map fun raw => { raw, kind := .of raw }

end ContractBuild.Solidity
