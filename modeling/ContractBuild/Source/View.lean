import ContractBuild.Data.Dict
import ContractBuild.Failure
import ContractBuild.Solidity.Remote

/-!
# Where sources are read from

A `View` is read access to a tree of local sources, and a `Remote` gives the texts of files in
remote repositories. Both are plain functions, so anything can stand behind them. `MemoryFiles` is
a tree that is held in memory, under normalized paths.
-/

namespace ContractBuild

/-- Read access to a tree of sources. Paths are relative to the root unless they are absolute. -/
structure View where
  root : Path
  read : Path → Except Failure String
  isFile : Path → Bool
  /-- A bound for the number of files and of characters that can be read. -/
  size : Nat

/-- Access to files in remote repositories. -/
structure Remote where
  fetch : RemoteRef → Except Failure String
  /-- A bound for the number of files and of characters that can be fetched. -/
  size : Nat

/-- Sources held in memory. -/
structure MemoryFiles where
  /-- Texts under the normalized spelling of their paths. -/
  texts : Dict String
  deriving Repr, DecidableEq

namespace MemoryFiles

/-- No sources. -/
def empty : MemoryFiles := ⟨∅⟩

/-- The key of a path. -/
def key (p : Path) : String := p.normalize.text

/-- Puts a text in, over one under another spelling of its path. -/
def insert (m : MemoryFiles) (p : Path) (text : String) : MemoryFiles :=
  ⟨m.texts.insert (key p) text⟩

/-- Texts put in one after the other. -/
def ofList (files : List (String × String)) : MemoryFiles :=
  files.foldl (fun m f => m.insert ⟨f.1⟩ f.2) empty

/-- The number of sources. -/
def size (m : MemoryFiles) : Nat := m.texts.size

/-- The text of a path. -/
def read (m : MemoryFiles) (p : Path) : Except Failure String :=
  match m.texts.get? (key p) with
  | some text => .ok text
  | none => .error ⟨"no in-memory source at " ++ p.text, []⟩

/-- Whether there is a text for a path. -/
def isFile (m : MemoryFiles) (p : Path) : Bool := m.texts.contains (key p)

/-- The number of entries and of their characters. -/
def weight (d : Dict String) : Nat :=
  d.entries.foldl (fun n e => n + e.1.length + e.2.length + 1) 0

/-- The sources as a view. Its root is the empty path. -/
def view (m : MemoryFiles) : View where
  root := ∅
  read := m.read
  isFile := m.isFile
  size := weight m.texts

end MemoryFiles

namespace Remote

/-- Remote repositories that are not to be reached. -/
def disabled : Remote where
  fetch r := .error ⟨"remote retrieval disabled (" ++ r.id ++ ")", []⟩
  size := 0

/-- Files by the names of their references. -/
def ofDict (files : Dict String) : Remote where
  fetch r :=
    match files.get? r.id with
    | some text => .ok text
    | none => .error ⟨"404 Not Found: " ++ r.id, []⟩
  size := MemoryFiles.weight files

end Remote

end ContractBuild
