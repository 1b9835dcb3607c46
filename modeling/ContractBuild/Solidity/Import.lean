import ContractBuild.Solidity.Comment
import ContractBuild.Solidity.Remote

/-!
# Import statements

Five forms are read:

* `import "path";`
* `import "path" as Alias;`
* `import * as Alias from "path";`
* `import {A, B as C} from "path";`, over several lines if need be
* `import Alias from "path";`

`importPaths` lists the paths of the statements outside comments, and `ImportKind.of` says from the
path alone where its target is looked for.
-/

namespace ContractBuild.Solidity

open Text

/-- Where the target of an import is looked for. -/
inductive ImportKind where
  /-- Beside the importing file, or at an absolute path. -/
  | relative
  /-- In the dependency directories. -/
  | dependencyRoot
  /-- In a remote repository. -/
  | remoteRepository
  deriving Repr, DecidableEq

/-- The name of a kind in reports. -/
def ImportKind.name : ImportKind → String
  | relative => "relative"
  | dependencyRoot => "dependency_root"
  | remoteRepository => "remote_repository"

/-- Whether a path is written relative to the file it stands in. -/
def startsRelative (raw : String) : Bool :=
  "./".toList.isPrefixOf raw.toList || "../".toList.isPrefixOf raw.toList

/-- The kind of an import, read off its path. -/
def ImportKind.of (raw : String) : ImportKind :=
  if startsRelative raw || raw.toList.head? == some '/' then .relative
  else if (RemoteRef.parse? raw).isSome then .remoteRepository
  else .dependencyRoot

/-- One import of a module. -/
structure ImportReference where
  /-- The path as written. -/
  raw : String
  kind : ImportKind
  /-- The id of the module it was resolved to. -/
  resolved : Option String := none
  deriving Repr, DecidableEq

/-- Whether the import was resolved. -/
def ImportReference.isResolved (r : ImportReference) : Bool := r.resolved.isSome

/-- A list of symbols in braces. -/
def symbolList : List Char → Option (List Char)
  | '\x7b' :: cs => literal "\x7d" (cs.dropWhile (· != '\x7d'))
  | _ => none

/-- A star with the name it is bound to. -/
def starBinding : List Char → Option (List Char)
  | '*' :: cs => do identifier (← spaces (← literal "as" (trimStart cs)))
  | _ => none

/-- What is imported, up to the path: symbols, a star or a name, then `from`. -/
def bindingClause (cs : List Char) : Option (List Char) := do
  let rest ← ((symbolList cs).or (starBinding cs)).or (identifier cs)
  spaces (← literal "from" (← spaces rest))

/-- A single or double quote. -/
def isQuote (c : Char) : Bool := c == '"' || c == '\''

/-- A quoted path that is not empty. Either quote closes it. -/
def quotedPath : List Char → Option (List Char × List Char)
  | c :: cs =>
    if isQuote c then
      match spanOf (!isQuote ·) cs with
      | ([], _) => none
      | (path, _ :: rest) => some (path, rest)
      | _ => none
    else none
  | [] => none

/-- The name a whole file is bound to. -/
def aliasClause (cs : List Char) : Option (List Char) := do
  identifier (← spaces (← literal "as" (← spaces cs)))

/-- An import statement, with its path as the value. -/
def importStatement : Pattern String := fun before cs => do
  guard (wordStart before)
  let rest ← spaces (← literal "import" cs)
  let (path, rest) ← quotedPath ((bindingClause rest).getD rest)
  let rest ← literal ";" (trimStart ((aliasClause rest).getD rest))
  return .upTo (String.ofList path) cs rest

/-- The paths of the import statements outside comments, in order. -/
def importPaths (text : String) : List String := valuesInCode importStatement text.toList

/-- Whether an import statement stands outside comments. -/
def hasImport (text : String) : Bool := !(importPaths text).isEmpty

end ContractBuild.Solidity
