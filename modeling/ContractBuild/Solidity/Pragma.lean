import ContractBuild.Solidity.Comment

/-!
# The compiler version pragma

`pragma?` reads the first version pragma outside comments, with every run of spaces written as one.
`exactPragma` recognises the pragmas that admit a single version only.
-/

namespace ContractBuild.Solidity

open Text

/-- The words that open a version pragma and the spaces behind them. -/
def pragmaHead (cs : List Char) : Option (List Char) := do
  literal "solidity" (← spaces (← literal "pragma" cs))

/-- A version pragma: its words, then at least one space and one more character, up to the next
semicolon. -/
def pragmaDirective : Pattern Unit := fun _ cs => do
  let rest ← pragmaHead cs
  let (version, rest) := spanOf (· != ';') rest
  guard (version.head?.any isSpace && 2 ≤ version.length)
  return .upTo () cs (← literal ";" rest)

/-- The first version pragma outside comments. -/
def pragma? (text : String) : Option String :=
  (inCode pragmaDirective text.toList).findSome? fun
    | .gap _ => none
    | .hit _ t => some (String.ofList ([' '].intercalate (words t)))

/-- Three numbers with points between them. -/
def versionNumber (cs : List Char) : Option (List Char × List Char) := do
  let (_, rest) ← digits cs
  let (_, rest) ← digits (← literal "." rest)
  let (_, rest) ← digits (← literal "." rest)
  return (cs.take (cs.length - rest.length), rest)

/-- A pragma that admits one version only, written with or without an equals sign; the value is the
version. -/
def exactPragma : Pattern (List Char) := fun _ cs => do
  let rest ← spaces (← pragmaHead cs)
  let (version, rest) ← versionNumber (trimStart ((literal "=" rest).getD rest))
  let rest ← literal ";" (trimStart rest)
  return .upTo version cs rest

end ContractBuild.Solidity
