import ContractBuild.Path
import ContractBuild.Text.Pattern

/-!
# References into remote repositories

A remote reference names a file of a repository by `github.com/<owner>/<repo>/<path>`, with or
without a scheme and `www.` in front. `RemoteRef.id` is its one canonical name, and
`RemoteRef.join` resolves an import that was found in the file it names.
-/

namespace ContractBuild

open Text

/-- A file of a remote repository. -/
structure RemoteRef where
  /-- Owner and name, with a slash between them. -/
  repository : String
  /-- Path inside the repository, normalized. -/
  path : Path
  deriving Repr, DecidableEq

namespace RemoteRef

/-- What follows an optional text. -/
def optional (s : String) (cs : List Char) : List Char := (literal s cs).getD cs

/-- What follows the scheme, if there is one. -/
def skipScheme (cs : List Char) : List Char :=
  ((literal "https://" cs).or (literal "http://" cs)).getD cs

/-- A stretch that is not empty and holds no slash, and what follows the slash behind it. -/
def segment? (cs : List Char) : Option (List Char × List Char) :=
  match spanOf (· != '/') cs with
  | ([], _) => none
  | (name, '/' :: rest) => some (name, rest)
  | _ => none

/-- Reads a reference. The path ends at the end of the line. -/
def parse? (raw : String) : Option RemoteRef := do
  let rest ← literal "github.com/" (optional "www." (skipScheme raw.toList))
  let (owner, rest) ← segment? rest
  let (repo, rest) ← segment? rest
  let path : Path := ⟨String.ofList (restOfLine rest).1⟩
  return ⟨String.ofList (owner ++ '/' :: repo), path.normalize⟩

/-- The canonical name. -/
def id (r : RemoteRef) : String := "github.com/" ++ r.repository ++ "/" ++ r.path.text

/-- The file that `rel` means when it is written in the file `r`. -/
def join (r : RemoteRef) (rel : String) : RemoteRef :=
  { r with path := (r.path.directory.join ⟨rel⟩).normalize }

end RemoteRef

end ContractBuild
