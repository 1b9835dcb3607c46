import ContractBuild.Solidity.Module
import ContractBuild.Source.View

/-!
# Finding the module an import means

A `Resolver` is a view, a remote, the names of dependency directories, and whether it is an error
that an import stays unresolved. `Resolver.locate` finds the location of an import: beside the
importer, then in the dependency directories of the importer's ancestors, nearest first, then in
those of the project root, and last in a remote repository.
-/

namespace ContractBuild

open Solidity

/-- Where a module lives. -/
inductive Location where
  /-- A normalized path of the view. -/
  | file (path : Path)
  | remote (ref : RemoteRef)
  deriving Repr, DecidableEq

namespace Location

/-- The location of a path. -/
def ofPath (p : Path) : Location := file p.normalize

/-- The name of a module: its path with slashes only, or the canonical name of its reference. -/
def id : Location → String
  | file p => p.text.map fun c => if c == '\\' then '/' else c
  | remote r => r.id

end Location

/-- Why a graph of imports could not be resolved. -/
inductive ResolutionError where
  /-- A module could not be read. -/
  | read (path : String) (cause : Failure)
  /-- An import was found nowhere, and that is an error. -/
  | unresolved (importer target : String)
  /-- A remote import could not be fetched, and that is an error. -/
  | remote (importer target : String) (cause : Failure)
  /-- A chain of imports is longer than there are modules. -/
  | endless (path : String)
  deriving Repr, DecidableEq

namespace ResolutionError

/-- The wording of an error. -/
def message : ResolutionError → String
  | read path cause => s!"cannot read {path}: {cause.headline}"
  | unresolved importer target => s!"unresolved import \"{target}\" in {importer}"
  | remote importer target cause =>
    s!"remote import \"{target}\" in {importer} failed: {cause.headline}"
  | endless path => s!"endless imports at {path}"

/-- The causes below the wording of an error. -/
def causes : ResolutionError → List String
  | read _ cause | remote _ _ cause => cause.headline :: cause.causes
  | unresolved _ _ | endless _ => []

/-- The path an error is about. -/
def path : ResolutionError → String
  | read path _ | endless path => path
  | unresolved _ target | remote _ target _ => target

end ResolutionError

/-- How imports are resolved. -/
structure ResolverSettings where
  /-- Names of the directories that hold dependencies, in order of preference. -/
  dependencyDirs : List String := ["node_modules", "lib"]
  /-- Whether an unresolved import ends the resolution. -/
  strict : Bool := false
  deriving Repr, DecidableEq

/-- What resolves imports. -/
structure Resolver where
  view : View
  remote : Remote
  settings : ResolverSettings

namespace Resolver

/-- The location of a root that a caller names. -/
def rootLocation (r : Resolver) (root : Path) : Location :=
  match RemoteRef.parse? root.text with
  | some ref => .remote ref
  | none => .ofPath ((root.stripPrefix? r.view.root).getD root)

/-- The text of a module. -/
def load (r : Resolver) : Location → Except Failure String
  | .file p => r.view.read p
  | .remote ref => r.remote.fetch ref

/-- The directories with some names in a directory and in those above it, nearest first, up to the
empty path or the root. -/
def dirsUpFrom (names : List String) (dir : Path) : List Path :=
  let here := names.map fun name => dir.join ⟨name⟩
  if dir.isEmpty || dir.text == "/" then here else here ++ dirsUpFrom names dir.directory
termination_by dir.text.length
decreasing_by
  rename_i h
  rw [Bool.not_eq_true, Bool.or_eq_false_iff] at h
  exact Path.length_directory_lt h.1

/-- Puts a directory behind others, unless it is among them in some spelling. -/
def addDir (dirs : List Path) (dir : Path) : List Path :=
  if dirs.any (·.sameSteps dir) then dirs else dirs ++ [dir]

/-- The dependency directories that are searched from a directory, in order: those on the way up,
and at last the project's own. -/
def searchDirs (r : Resolver) (start : Path) : List Path :=
  (r.settings.dependencyDirs.map fun name => Path.empty.join ⟨name⟩).foldl addDir
    (dirsUpFrom r.settings.dependencyDirs start.normalize)

/-- The first of some paths at which there is a file. -/
def firstFile? (r : Resolver) (candidates : List Path) : Option Location :=
  (candidates.find? r.view.isFile).map .file

/-- Where an import in the dependency directories can stand, seen from a directory, in order. -/
def dependencyCandidates (r : Resolver) (start : Path) (raw : String) : List Path :=
  (r.searchDirs start).map fun dir => (dir.join ⟨raw⟩).normalize

/-- Where an import among the local files can stand, seen from a directory, in order. -/
def candidates (r : Resolver) (dir : Path) (raw : String) (kind : ImportKind) : List Path :=
  (dir.join ⟨raw⟩).normalize ::
    match kind with
    | .dependencyRoot => r.dependencyCandidates dir raw
    | _ => []

/-- An import in the dependency directories from a directory on. -/
def locateDependency? (r : Resolver) (start : Path) (raw : String) : Option Location :=
  r.firstFile? (r.dependencyCandidates start raw)

/-- An import among the local files, seen from a directory. -/
def locateFile? (r : Resolver) (dir : Path) (raw : String) (kind : ImportKind) : Option Location :=
  r.firstFile? (r.candidates dir raw kind)

/-- The location of an import that stands in `importer`. A remote target is not fetched; a local
copy under its name goes before it. -/
def locate (r : Resolver) (importer : Location) (raw : String) : Option Location :=
  match ImportKind.of raw, importer with
  | .remoteRepository, .file p =>
    (r.locateFile? p.directory raw .dependencyRoot).or ((RemoteRef.parse? raw).map .remote)
  | .remoteRepository, .remote _ => (RemoteRef.parse? raw).map .remote
  | kind, .file p => r.locateFile? p.directory raw kind
  | .dependencyRoot, .remote base =>
    (r.locateDependency? ∅ raw).or (some (.remote (base.join raw)))
  | _, .remote base => some (.remote (base.join raw))

end Resolver

end ContractBuild
