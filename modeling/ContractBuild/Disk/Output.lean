import ContractBuild.Disk.Tree
import ContractBuild.Source.View

/-!
# Sources on a disk, and results written to one

`Disk.view` reads the sources of a project from a disk. Results are a list of `OutputStep`s, which
`Disk.perform` carries out.
-/

namespace ContractBuild

/-- One step of writing results. -/
inductive OutputStep where
  /-- A directory is to be there. -/
  | makeDirs (dir : Path)
  /-- A file is to hold a text. -/
  | write (file : Path) (text : String)
  deriving Repr, DecidableEq

namespace Disk

/-- A change to a disk, with the error put in words. -/
def saying {α : Type} (act : String) (p : Path) (change : OnDisk OsError α) : OnDisk Failure α :=
  ExceptT.mk do
    match ← change.run with
    | .ok a => return .ok a
    | .error e => return .error ⟨s!"failed to {act} `{p.text}`: {e.message}", []⟩

/-- A change to a disk that serves a purpose. -/
def inOrderTo {α : Type} (purpose : String) (change : OnDisk Failure α) : OnDisk Failure α :=
  ExceptT.mk do return (← change.run).mapError (·.within purpose)

/-- Carries out one step. A file gets the directories it needs. -/
def perform : OutputStep → OnDisk Failure Unit
  | .makeDirs dir =>
    inOrderTo s!"create_dir_all {dir.text}" (saying "create directory" dir (makeDirs dir))
  | .write file text => do
    if let some dir := file.parent? then
      inOrderTo s!"create parent dir for {file.text}"
        (saying "create directory" dir (makeDirs dir))
    inOrderTo s!"write {file.text}" (saying "create file" file (writeFile file text.toUTF8))

/-- Carries out steps until one fails. -/
def performAll : List OutputStep → OnDisk Failure Unit
  | [] => return
  | s :: rest => do
    perform s
    performAll rest

/-- The size of all names and contents. -/
def weight (d : Disk) : Nat :=
  d.entries.entries.foldl (fun n e =>
    n + e.1.length + 1 + match e.2 with
      | .directory => 0
      | .file content => content.size) 0

/-- A path of the view on the disk. -/
def viewPath (root p : Path) : Path := if p.isAbsolute then p else root.join p

/-- The sources of a project. -/
def view (d : Disk) (root : Path) : View where
  root := root
  read p := (d.readText (viewPath root p)).mapError fun cause =>
    ⟨s!"read {(viewPath root p).text}", [cause]⟩
  isFile p := d.isFile (viewPath root p)
  size := d.weight

end Disk

end ContractBuild
