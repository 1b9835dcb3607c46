import ContractBuild.Source.Resolver

/-!
# Walking the import graph

A `Graph` is what a walk has gathered so far. `Resolver.visit` walks depth first: a module is
claimed before it is read, its directives count before those of its imports, and it is added behind
all the modules that it imports. What was gathered stays when the walk fails.
-/

namespace ContractBuild

open Solidity

/-- An import that was left out. -/
structure ResolutionDiagnostic where
  /-- The module the import stands in. -/
  importer : String
  /-- The path as written. -/
  target : String
  code : String
  message : String
  deriving Repr, DecidableEq

/-- What a walk has gathered. -/
structure Graph where
  /-- The ids of the modules that were begun, and of remote files that could not be fetched. -/
  visited : KeySet := ∅
  licenses : KeySet := ∅
  /-- The first pragma that was met. -/
  pragma : Option String := none
  /-- The modules that were finished, in order. -/
  modules : List SourceModule := []
  diagnostics : List ResolutionDiagnostic := []
  deriving Repr, DecidableEq

namespace Graph

/-- Nothing gathered yet. -/
def empty : Graph := {}

/-- Whether an id was claimed. -/
def isVisited (g : Graph) (id : String) : Bool := g.visited.contains id

/-- Claims an id. -/
def claim (g : Graph) (id : String) : Graph := { g with visited := g.visited.add id }

/-- Adds the directives of a module. The first pragma stays. -/
def record (g : Graph) (pragma : Option String) (licenses : List String) : Graph :=
  { g with pragma := g.pragma.or pragma, licenses := g.licenses.addAll licenses }

/-- Adds a finished module. -/
def push (g : Graph) (m : SourceModule) : Graph := { g with modules := g.modules ++ [m] }

/-- Adds a diagnostic. -/
def report (g : Graph) (d : ResolutionDiagnostic) : Graph :=
  { g with diagnostics := g.diagnostics ++ [d] }

/-- The number of imports that were left out. -/
def unresolvedCount (g : Graph) : Nat := g.diagnostics.length

end Graph

/-- What a walk has gathered, and the error that ended it, if one did. -/
structure Progress where
  graph : Graph
  error : Option ResolutionError := none
  deriving Repr, DecidableEq

namespace Resolver

/-- An import that cannot be resolved: an error, or a diagnostic. -/
def unresolved (r : Resolver) (g : Graph) (importer target : String) (cause : Option Failure) :
    Progress :=
  match cause with
  | none =>
    if r.settings.strict then ⟨g, some (.unresolved importer target)⟩
    else ⟨g.report
      { importer, target, code := "unresolved_import", message := s!"import {target} not found" },
      none⟩
  | some cause =>
    if r.settings.strict then ⟨g, some (.remote importer target cause)⟩
    else ⟨g.report
      { importer, target, code := "remote_fetch_failed"
        message := s!"remote import {target} could not be fetched: {cause.full}" }, none⟩

/-- Visits a location with `enter` for what follows the reading of its text. -/
def visitWith (r : Resolver) (enter : Location → String → Graph → Progress) (loc : Location)
    (g : Graph) : Progress :=
  if g.isVisited loc.id then ⟨g, none⟩
  else
    match r.load loc with
    | .ok text => enter loc text (g.claim loc.id)
    | .error cause => ⟨g.claim loc.id, some (.read loc.id cause)⟩

/-- Follows one import of the module at `importer`. -/
def follow (r : Resolver) (enter : Location → String → Graph → Progress) (importer : Location)
    (i : ImportReference) (g : Graph) : ImportReference × Progress :=
  match r.locate importer i.raw with
  | none => (i, r.unresolved g importer.id i.raw none)
  | some (.file p) =>
    let target := Location.file p
    ({ i with resolved := some target.id }, r.visitWith enter target g)
  | some (.remote ref) =>
    let target := Location.remote ref
    let found := { i with resolved := some target.id }
    if g.isVisited target.id then (found, ⟨g, none⟩)
    else
      match r.remote.fetch ref with
      | .ok text => (found, enter target text (g.claim target.id))
      | .error cause => (i, r.unresolved (g.claim target.id) importer.id i.raw (some cause))

/-- Follows imports in order, up to the first error. -/
def followAll (step : ImportReference → Graph → ImportReference × Progress) :
    List ImportReference → Graph → List ImportReference × Progress
  | [], g => ([], ⟨g, none⟩)
  | i :: rest, g =>
    match step i g with
    | (i, ⟨g, some e⟩) => (i :: rest, ⟨g, some e⟩)
    | (i, ⟨g, none⟩) =>
      let (rest, p) := followAll step rest g
      (i :: rest, p)

/-- Walks on from a module that is claimed and read. The bound is on the length of a chain of
imports; each module on a chain was claimed for the first time, so a chain is not longer than there
are modules. -/
def enter (r : Resolver) : Nat → Location → String → Graph → Progress
  | 0, loc, _, g => ⟨g, some (.endless loc.id)⟩
  | bound + 1, loc, text, g =>
    let m := SourceModule.parse loc.id text
    match followAll (r.follow (r.enter bound) loc) m.imports (g.record m.pragma m.licenses) with
    | (_, ⟨g, some e⟩) => ⟨g, some e⟩
    | (imports, ⟨g, none⟩) => ⟨g.push { m with imports }, none⟩

/-- More than the number of modules that can be read. -/
def bound (r : Resolver) : Nat := r.view.size + r.remote.size + 1

/-- Walks the graph from a location, adding to what was gathered before. -/
def visit (r : Resolver) (loc : Location) (g : Graph) : Progress :=
  r.visitWith (r.enter r.bound) loc g

end Resolver

end ContractBuild
