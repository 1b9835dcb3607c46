import ContractBuild.Digest.Sha256
import ContractBuild.Json.Decode
import ContractBuild.Source.Graph

/-!
# Flattened units

A graph is written out as one text: a licence line with all licences, one pragma, and the bodies of
the modules, dependencies first.
-/

namespace ContractBuild

open Json

/-- The result of flattening. -/
structure Flattened where
  schema : String
  text : String
  /-- The merged licence expression. -/
  license : String
  pragma : Option String := none
  moduleCount : UInt64
  unresolvedCount : UInt64
  /-- The ids of the modules, dependencies first. -/
  modules : List String := []
  diagnostics : List ResolutionDiagnostic := []
  /-- The SHA-256 of the text, in hexadecimal. -/
  digest : String
  deriving Repr, DecidableEq

/-- The schema of a flatten report. -/
def flattenSchema : String := "solforge.flatten.v1"

/-- Licence expressions that all apply; `UNLICENSED` if there are none. -/
def mergeLicenses (licenses : List String) : String :=
  if licenses.isEmpty then "UNLICENSED" else " AND ".intercalate licenses

namespace Graph

/-- The merged licence expression of a graph. -/
def license (g : Graph) : String := mergeLicenses g.licenses.keys

/-- The bodies that are not empty. -/
def bodies (g : Graph) : List String := (g.modules.map (·.body)).filter (! ·.isEmpty)

/-- The text of a graph as one unit. -/
def unitText (g : Graph) : String :=
  "// SPDX-License-Identifier: " ++ g.license ++ "\n" ++
    (match g.pragma with
      | some pragma => pragma ++ "\n\n"
      | none => "") ++
    if g.bodies.isEmpty then "" else "\n\n".intercalate g.bodies ++ "\n"

/-- The graph as one unit. -/
def flattened (g : Graph) : Flattened where
  schema := flattenSchema
  text := g.unitText
  license := g.license
  pragma := g.pragma
  moduleCount := g.modules.length.toUInt64
  unresolvedCount := g.unresolvedCount.toUInt64
  modules := g.modules.map (·.id)
  diagnostics := g.diagnostics
  digest := Sha256.ofText g.unitText

end Graph

/-- Flattens the graph of a root. -/
def Resolver.flatten (r : Resolver) (root : Path) : Except ResolutionError Flattened :=
  match r.visit (r.rootLocation root) .empty with
  | ⟨_, some e⟩ => .error e
  | ⟨g, none⟩ => .ok g.flattened

end ContractBuild
