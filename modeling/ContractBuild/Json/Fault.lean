import ContractBuild.Json.Value

/-!
# What can be wrong with a JSON text

A `Fault` is a cause and the number of bytes of the text that were read when it was found.
`Fault.category` sorts the causes, and `Fault.message` words them with a line and a column.
-/

namespace ContractBuild.Json

/-- The three kinds of faults: not JSON, JSON of the wrong shape, and a text that ends too early. -/
inductive FaultCategory where
  | malformed
  | mismatch
  | truncated
  deriving Repr, DecidableEq

/-- What is wrong. -/
inductive Cause where
  | endInList
  | endInObject
  | endInString
  | endInValue
  | noColon
  | noListComma
  | noObjectComma
  | noWord
  | noValue
  | badEscape
  | badNumber
  | hugeNumber
  | rawControl
  | keyNotString
  | loneSurrogate
  | notUnicode
  | trailingComma
  | trailingText
  | brokenPair
  | tooDeep
  /-- The text says something else than what is expected here. -/
  | unfit (message : String)
  deriving Repr, DecidableEq

/-- The kind of a cause. -/
def Cause.category : Cause → FaultCategory
  | endInList | endInObject | endInString | endInValue => .truncated
  | unfit _ => .mismatch
  | _ => .malformed

/-- The wording of a cause. -/
def Cause.message : Cause → String
  | endInList => "EOF while parsing a list"
  | endInObject => "EOF while parsing an object"
  | endInString => "EOF while parsing a string"
  | endInValue => "EOF while parsing a value"
  | noColon => "expected `:`"
  | noListComma => "expected `,` or `]`"
  | noObjectComma => "expected `,` or `\x7d`"
  | noWord => "expected ident"
  | noValue => "expected value"
  | badEscape => "invalid escape"
  | badNumber => "invalid number"
  | hugeNumber => "number out of range"
  | rawControl => "control character (\\u0000-\\u001F) found while parsing a string"
  | keyNotString => "key must be a string"
  | loneSurrogate => "lone leading surrogate in hex escape"
  | notUnicode => "invalid unicode code point"
  | trailingComma => "trailing comma"
  | trailingText => "trailing characters"
  | brokenPair => "unexpected end of hex escape"
  | tooDeep => "recursion limit exceeded"
  | unfit message => message

/-- A cause, and the number of bytes read when it was found. -/
structure Fault where
  cause : Cause
  offset : Nat
  deriving Repr, DecidableEq

namespace Fault

/-- The kind of a fault. -/
def category (f : Fault) : FaultCategory := f.cause.category

/-- The line and column reached after a number of bytes. Lines count from one; the column is the
number of bytes read on the line. -/
def position (cs : List Char) (offset : Nat) : Nat × Nat :=
  go 1 0 offset cs
where
  go (line column : Nat) : Nat → List Char → Nat × Nat
    | 0, _ => (line, column)
    | left, [] => (line, column + left)
    | left, c :: rest =>
      if left < c.utf8Size then (line, column + left)
      else if c == '\n' then go (line + 1) 0 (left - c.utf8Size) rest
      else go line (column + c.utf8Size) (left - c.utf8Size) rest
  termination_by _ cs => cs.length

/-- The wording of a fault that was found in a text. -/
def message (f : Fault) (cs : List Char) : String :=
  let (line, column) := position cs (min f.offset (cs.foldl (· + ·.utf8Size) 0))
  s!"{f.cause.message} at line {line} column {column}"

end Fault

end ContractBuild.Json
