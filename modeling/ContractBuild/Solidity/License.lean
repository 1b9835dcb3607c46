import ContractBuild.Solidity.Comment

/-!
# Licence lines

A licence line is a line comment, alone on its line, that declares a licence expression.
`declaredLicenses` lists the expressions in order.
-/

namespace ContractBuild.Solidity

open Text

/-- The front of a licence line, up to and with the colon. The slashes and the words behind them may
stand on different lines. -/
def licenseHead (before : Option Char) (cs : List Char) : Option (List Char) := do
  guard (lineStart before)
  let rest ← literal "//" (cs.dropWhile isBlank)
  literal "SPDX-License-Identifier:" (trimStart rest)

/-- The line without one carriage return at its end. -/
def dropReturn (line : List Char) : List Char :=
  if line.getLast? == some '\r' then line.dropLast else line

/-- A licence line with its line break; the value is the expression without the blanks around it. -/
def licenseLine : Pattern (List Char) := fun before cs => do
  let (line, rest) := restOfLine (← licenseHead before cs)
  let expression := dropEndWhile isBlank (dropReturn (line.dropWhile isBlank))
  return .upTo expression cs (skipLineBreak rest)

/-- A reversed text without any number of comment closers at its end. -/
def dropClosersReversed : List Char → List Char
  | '/' :: '*' :: rest => dropClosersReversed rest
  | cs => cs

/-- The text without any number of comment closers at its end. -/
def dropClosers (cs : List Char) : List Char := (dropClosersReversed cs.reverse).reverse

/-- The licence expressions a text declares, in order. Empty ones are ignored. -/
def declaredLicenses (text : String) : List String :=
  ((licenseLine.values text.toList).map fun e => String.ofList (trim (dropClosers e))).filter
    (! ·.isEmpty)

end ContractBuild.Solidity
