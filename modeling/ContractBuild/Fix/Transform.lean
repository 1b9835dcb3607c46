import ContractBuild.Solidity.License
import ContractBuild.Solidity.Pragma

/-!
# The transformations behind the rules

Each transformation takes a text to another one and counts the places it changed. They look at the
text only: neither comments nor string literals are told apart from code.
-/

namespace ContractBuild.Fix

open Text Solidity

/-- A text after a transformation, and the number of places that were changed. -/
structure Transformed where
  text : List Char
  occurrences : Nat
  deriving Repr, DecidableEq

/-! ## Qualifiers -/

/-- A list of contract names in parentheses, behind spaces. -/
def contractList (cs : List Char) : Option (List Char) :=
  match trimStart cs with
  | '(' :: rest =>
    literal ")" (rest.dropWhile fun c => isWord c || c == '.' || isSpace c || c == ',')
  | _ => none

/-- The qualifier `override` with the blanks before it and the list of contracts behind it. -/
def overrideQualifier : Pattern Unit := fun _ cs => do
  let rest ← literal "override" (← blanks cs)
  guard (wordEnd rest)
  return .upTo () cs ((contractList rest).getD rest)

/-- Removes `override` qualifiers. -/
def stripOverride (cs : List Char) : Transformed :=
  ⟨overrideQualifier.erase cs, overrideQualifier.count cs⟩

/-! ## Function headers -/

/-- The header of a function: the keyword, the name, all up to the first closing parenthesis, and
what follows up to a brace or a semicolon. -/
def functionHeader : Pattern Unit := fun before cs => do
  guard (wordStart before)
  let rest ← identifier (← spaces (← literal "function" cs))
  let rest ← literal "(" (trimStart rest)
  let rest ← literal ")" (rest.dropWhile (· != ')'))
  return .upTo () cs (rest.dropWhile fun c => c != '\x7b' && c != ';')

/-- The pieces with the first hit replaced. -/
def replaceFirst {α : Type} (new : List Char) : List (Piece α) → List Char
  | [] => []
  | .gap c :: rest => c :: replaceFirst new rest
  | .hit _ _ :: rest => new ++ rest.flatMap Piece.text

/-- Whether a header is of an internal function that is not virtual. -/
def lacksVirtual (header : List Char) : Bool :=
  (wholeWord "internal").count header != 0 && (wholeWord "virtual").count header == 0

/-- A header with `virtual` behind its first `internal`, if it lacks it. -/
def addVirtual (header : List Char) : List Char :=
  if lacksVirtual header then
    replaceFirst "internal virtual".toList ((wholeWord "internal").split header)
  else header

/-- Marks internal functions as virtual. -/
def markInternalVirtual (cs : List Char) : Transformed where
  text := functionHeader.replace (fun _ header => addVirtual header) cs
  occurrences := (functionHeader.split cs).countP fun
    | .gap _ => false
    | .hit _ header => lacksVirtual header

/-! ## Guards -/

/-- Empty parentheses, behind spaces. -/
def emptyArguments (cs : List Char) : Option (List Char) :=
  match trimStart cs with
  | '(' :: rest => literal ")" (trimStart rest)
  | _ => none

/-- The guard `onlyInitializing` with the blanks before it; the value tells whether it is the
definition of the modifier that stands here. -/
def initializerGuard : Pattern Bool := fun before cs => do
  let definition := if wordStart before then literal "modifier" cs else none
  let rest ← literal "onlyInitializing" (← blanks (definition.getD cs))
  guard (wordEnd rest)
  return .upTo definition.isSome cs ((emptyArguments rest).getD rest)

/-- Removes uses of `onlyInitializing` and keeps its definition. -/
def stripOnlyInitializing (cs : List Char) : Transformed where
  text := initializerGuard.replace (fun definition t => if definition then t else []) cs
  occurrences := (initializerGuard.values cs).countP (!·)

/-! ## Directives -/

/-- Turns pragmas for one exact version into caret ranges. -/
def relaxExactPragma (cs : List Char) : Transformed where
  text := exactPragma.replace (fun version _ => "pragma solidity ^".toList ++ version ++ [';']) cs
  occurrences := exactPragma.count cs

/-- A whole line that declares a licence, with its line break. -/
def licenseComment : Pattern Unit := fun before cs => do
  let rest ← licenseHead before cs
  return .upTo () cs (skipLineBreak (restOfLine rest).2)

/-- The pieces without hits, apart from the first one. -/
def keepFirst {α : Type} : List (Piece α) → List Char
  | [] => []
  | .gap c :: rest => c :: keepFirst rest
  | .hit _ t :: rest => t ++ rest.flatMap Piece.gapText

/-- Keeps the first licence line and removes the others. -/
def dedupeLicense (cs : List Char) : Transformed where
  text := keepFirst (licenseComment.split cs)
  occurrences := licenseComment.count cs - 1

end ContractBuild.Fix
