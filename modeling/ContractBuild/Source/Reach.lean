import ContractBuild.Source.Collection
import ContractBuild.Source.Graph

/-!
# The paths that matter to a root

`Resolver.wantedPaths` lists where files can change what a root resolves to, as far as the files
that are there tell. Reading those and asking again, until no new file is found, gives all the
sources of a root.
-/

namespace ContractBuild

open Solidity

namespace Resolver

/-- The paths at which the imports of the modules below a root can stand. -/
def walkedPaths (r : Resolver) (root : Location) : List Path :=
  (r.visit root {}).graph.modules.flatMap fun m =>
    m.imports.flatMap fun i => r.candidates (Path.mk m.id).directory i.raw .dependencyRoot

/-- The paths at which the units that a root needs can stand. -/
def unitPaths (r : Resolver) (root : Path) : List Path :=
  let lookup := UnitLookup.ofRoot r root
  match lookup.base, lookup.collect with
  | .file base, .ok c =>
    c.sources.entries.flatMap fun (name, text) => (importPaths text).flatMap fun raw =>
      r.candidates base.directory (unitName name raw) .dependencyRoot
  | _, _ => []

/-- The paths at which files matter to a root. -/
def wantedPaths (r : Resolver) (root : Path) : List Path :=
  let lenient : Resolver := { r with settings := { r.settings with strict := false } }
  match r.rootLocation root with
  | .file p => (p :: (lenient.walkedPaths (.file p) ++ lenient.unitPaths root)).eraseDups
  | .remote _ => []

end Resolver

end ContractBuild
