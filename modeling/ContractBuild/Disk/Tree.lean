import ContractBuild.Data.Dict
import ContractBuild.Disk.OsError
import ContractBuild.Path

/-!
# Files and directories

A `Disk` is a tree of files and directories, with a working directory from which relative paths
start. Paths are followed step by step: each step needs a directory, so a path through something
that is missing leads nowhere even if a later parent step would leave it again.

Operations that change a disk are `OnDisk`: an error does not undo what was done before it.

## Main definitions

* `Disk.locate`: follows a path.
* `Disk.makeDir`, `Disk.makeDirs`: make a directory, or all that are missing on a path.
* `Disk.writeFile`: writes a file into a directory that exists.
-/

namespace ContractBuild

/-- What stands at a place. -/
inductive DiskEntry where
  | directory
  | file (content : ByteArray)

instance : DecidableEq DiskEntry
  | .directory, .directory => isTrue rfl
  | .file a, .file b =>
    match decEq a.data b.data with
    | isTrue h => isTrue (congrArg DiskEntry.file (ByteArray.ext h))
    | isFalse h => isFalse fun e => h (congrArg ByteArray.data (DiskEntry.file.inj e))
  | .directory, .file _ | .file _, .directory => isFalse nofun

/-- A place on a disk: the names that lead to it from the root. -/
abbrev Place := List String

/-- A tree of files and directories, and a working directory. -/
structure Disk where
  /-- What stands at the places below the root, by their names with slashes between them. -/
  entries : Dict DiskEntry := ∅
  workDir : Place := []
  deriving DecidableEq

/-- Changes to a disk; an error keeps what was changed before it. -/
abbrev OnDisk (ε : Type) := ExceptT ε (StateM Disk)

namespace Disk

/-- The names of a place with slashes between them. -/
def key (place : Place) : String := "/".intercalate place

/-- What stands at a place. There is always a directory at the root. -/
def get? (d : Disk) (place : Place) : Option DiskEntry :=
  if place.isEmpty then some .directory else d.entries.get? (key place)

/-- Whether there is a directory at a place. -/
def isDirectoryAt (d : Disk) (place : Place) : Bool := d.get? place == some .directory

/-- Puts something at a place. -/
def put (d : Disk) (place : Place) (e : DiskEntry) : Disk :=
  { d with entries := d.entries.insert (key place) e }

/-! ## Following paths -/

/-- The longest name, in bytes. -/
def longestName : Nat := 255

/-- The longest path, in bytes. -/
def longestPath : Nat := 4095

/-- Takes one step of a path from a place. Nothing and a dot stay, but they need a directory too. -/
def step (d : Disk) (place : Place) (segment : List Char) : Except OsError Place :=
  let name := String.ofList segment
  if !d.isDirectoryAt place then .error .notDirectory
  else if Path.idle segment then .ok place
  else if segment == ['.', '.'] then .ok place.dropLast
  else if longestName < name.utf8ByteSize then .error .nameTooLong
  else if (d.get? (place ++ [name])).isNone then .error .notFound
  else .ok (place ++ [name])

/-- Takes all steps of a path from a place. -/
def walk (d : Disk) (place : Place) : List (List Char) → Except OsError Place
  | [] => .ok place
  | segment :: rest => do d.walk (← d.step place segment) rest

/-- The place where a path starts, and its steps from there. -/
def route (d : Disk) (p : Path) : Except OsError (Place × List (List Char)) :=
  if longestPath < p.text.utf8ByteSize then .error .nameTooLong
  else
    match p.text.toList with
    | [] => .error .notFound
    | '/' :: rest => .ok ([], Path.segments rest)
    | cs => .ok (d.workDir, Path.segments cs)

/-- The place a path leads to, where something stands. -/
def locate (d : Disk) (p : Path) : Except OsError Place := do
  let (start, steps) ← d.route p
  d.walk start steps

/-- What a path leads to. -/
def find? (d : Disk) (p : Path) : Option DiskEntry :=
  match d.locate p with
  | .ok place => d.get? place
  | .error _ => none

/-- Whether a path leads to anything. -/
def hasPath (d : Disk) (p : Path) : Bool := (d.find? p).isSome

/-- Whether a path leads to a file. -/
def isFile (d : Disk) (p : Path) : Bool :=
  match d.find? p with
  | some (.file _) => true
  | _ => false

/-- Whether a path leads to a directory. -/
def isDirectory (d : Disk) (p : Path) : Bool := d.find? p == some .directory

/-! ## Reading -/

/-- The text of a file, or the wording of what is wrong. -/
def readText (d : Disk) (p : Path) : Except String String :=
  match d.locate p with
  | .error e => .error s!"failed to open file `{p.text}`: {e.message}"
  | .ok place =>
    match d.get? place with
    | some (.file content) =>
      match String.fromUTF8? content with
      | some text => .ok text
      | none => .error s!"failed to read from file `{p.text}`: stream did not contain valid UTF-8"
    | _ => .error s!"failed to read from file `{p.text}`: {OsError.isDirectory.message}"

/-- What a key says below a place. -/
def rest? (place : Place) (k : String) : Option (List Char) :=
  (if place.isEmpty then [] else (key place).toList ++ ['/']).isPrefixOf? k.toList

/-- The names in the directory at a place, in ascending order. -/
def names (d : Disk) (place : Place) : List String :=
  d.entries.keys.filterMap fun k =>
    match rest? place k with
    | some name => if name.contains '/' then none else some (String.ofList name)
    | none => none

/-- The files below a place, by the rest of their names. -/
def filesBelow (d : Disk) (place : Place) : List (String × ByteArray) :=
  d.entries.entries.filterMap fun (k, e) =>
    match e, rest? place k with
    | .file content, some rest => some (String.ofList rest, content)
    | _, _ => none

/-- The directories below a place, by the rest of their names. -/
def directoriesBelow (d : Disk) (place : Place) : List String :=
  d.entries.entries.filterMap fun (k, e) =>
    match e, rest? place k with
    | .directory, some rest => some (String.ofList rest)
    | _, _ => none

/-! ## Writing -/

/-- Where something new would stand. -/
structure Target where
  /-- The directory. -/
  dir : Place
  /-- The last step of the path. -/
  last : List Char
  /-- Whether a slash follows the last step. -/
  slashBehind : Bool

/-- Follows a path but for its last step. -/
def target (d : Disk) (p : Path) : Except OsError Target := do
  let (start, steps) ← d.route p
  match steps.reverse.dropWhile (·.isEmpty) with
  | [] => return ⟨start, ['.'], true⟩
  | last :: before =>
    let dir ← d.walk start before.reverse
    if !d.isDirectoryAt dir then throw .notDirectory
    if longestName < (String.ofList last).utf8ByteSize then throw .nameTooLong
    return ⟨dir, last, steps.getLast? == some []⟩

/-- Whether a step is no name. -/
def isDots (segment : List Char) : Bool := segment == ['.'] || segment == ['.', '.']

/-- Makes a directory where nothing stands. -/
def makeDir (p : Path) : OnDisk OsError Unit := do
  let d ← get
  let t ← ExceptT.mk (pure (d.target p))
  let place := t.dir ++ [String.ofList t.last]
  if isDots t.last || (d.get? place).isSome then throw .alreadyThere
  set (d.put place .directory)

/-- The paths above a path, nearest first, at most `n` of them. -/
def above (p : Path) : Nat → List Path
  | 0 => []
  | n + 1 =>
    match p.parent? with
    | some parent => if parent.isEmpty then [] else parent :: above parent n
    | none => []

/-- Makes the first of some directories, each of which lies in the next one, and before it those
that are missing. -/
def makeChain : List Path → OnDisk OsError Unit
  | [] => return
  | p :: rest => do
    try makeDir p
    catch
      | .notFound => do
        makeChain rest
        try makeDir p catch e => if !(← get).isDirectory p then throw e
      | e => if !(← get).isDirectory p then throw e

/-- Makes a directory and all that are missing above it. -/
def makeDirs (p : Path) : OnDisk OsError Unit :=
  if p.isEmpty then return else makeChain (p :: above p p.text.length)

/-- Writes a file into a directory that exists, over one of its name. -/
def writeFile (p : Path) (content : ByteArray) : OnDisk OsError Unit := do
  let d ← get
  let t ← ExceptT.mk (pure (d.target p))
  if isDots t.last then throw .isDirectory
  let place := t.dir ++ [String.ofList t.last]
  match d.get? place, t.slashBehind with
  | some .directory, _ | none, true => throw .isDirectory
  | some (.file _), true => throw .notDirectory
  | _, false => set (d.put place (.file content))

end Disk

end ContractBuild
