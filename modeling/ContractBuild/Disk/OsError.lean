/-!
# Errors of the operating system
-/

namespace ContractBuild

/-- Why the operating system refused something. -/
inductive OsError where
  | notFound
  | denied
  | alreadyThere
  | notDirectory
  | isDirectory
  | nameTooLong
  /-- Any other number. -/
  | other (code : Nat)
  deriving Repr, DecidableEq

namespace OsError

/-- The number of an error. -/
def code : OsError → Nat
  | notFound => 2
  | denied => 13
  | alreadyThere => 17
  | notDirectory => 20
  | isDirectory => 21
  | nameTooLong => 36
  | other code => code

/-- The error with a number. -/
def ofCode (n : Nat) : OsError :=
  let known := [notFound, denied, alreadyThere, notDirectory, isDirectory, nameTooLong]
  (known.find? (·.code == n)).getD (other n)

/-- What an error means. -/
def meaning : OsError → String
  | notFound => "No such file or directory"
  | denied => "Permission denied"
  | alreadyThere => "File exists"
  | notDirectory => "Not a directory"
  | isDirectory => "Is a directory"
  | nameTooLong => "File name too long"
  | other code => s!"Unknown error {code}"

/-- The wording of an error. -/
def message (e : OsError) : String := s!"{e.meaning} (os error {e.code})"

end OsError

end ContractBuild
