import ContractBuild.Number.Binary64
import ContractBuild.Text.CharClass
import ContractBuild.Text.Pattern
import ContractBuild.Time.Instant
import ContractBuild.Toml.Value

/-!
# TOML strings, numbers and dates

Every reader takes what is at the front of a text and gives it with the rest, or nothing.
-/

namespace ContractBuild.Toml

open Text

/-- What was read, and the rest. -/
abbrev Taken (α : Type) := α × List Char

/-! ## Strings -/

/-- A control character that may stand nowhere. -/
def isForbidden (c : Char) : Bool := (c.toNat < 0x20 && c != '\t') || c.toNat == 0x7f

/-- The value of hexadecimal digits. -/
def hexValue? (cs : List Char) : Option Nat :=
  cs.foldlM (fun n c => do return n * 16 + (← hexDigit? c)) 0

/-- The character with a number, if there is one. -/
def scalar? (n : Nat) : Option Char := if n.isValidChar then some (Char.ofNat n) else none

/-- The character of an escape with a number of digits, and the rest. -/
def numbered (digits : Nat) (cs : List Char) : Option (Taken Char) := do
  guard (digits ≤ cs.length)
  return (← scalar? (← hexValue? (cs.take digits)), cs.drop digits)

/-- An escape behind its backslash, and the rest. -/
def escape : List Char → Option (Taken Char)
  | 'b' :: cs => some ('\x08', cs)
  | 't' :: cs => some ('\t', cs)
  | 'n' :: cs => some ('\n', cs)
  | 'f' :: cs => some ('\x0c', cs)
  | 'r' :: cs => some ('\r', cs)
  | 'e' :: cs => some ('\x1b', cs)
  | '"' :: cs => some ('"', cs)
  | '\\' :: cs => some ('\\', cs)
  | 'x' :: cs => numbered 2 cs
  | 'u' :: cs => numbered 4 cs
  | 'U' :: cs => numbered 8 cs
  | _ => none

/-- What follows a line break. -/
def lineBreak? : List Char → Option (List Char)
  | '\n' :: cs | '\r' :: '\n' :: cs => some cs
  | _ => none

/-- What follows blanks and line breaks. -/
def skipWhite : List Char → List Char
  | ' ' :: cs | '\t' :: cs | '\n' :: cs | '\r' :: '\n' :: cs => skipWhite cs
  | cs => cs

/-- A string in double quotes behind the opening one, in at most `fuel` characters. -/
def basicString : Nat → List Char → Option (Taken (List Char))
  | 0, _ | _, [] => none
  | _, '"' :: cs => some ([], cs)
  | fuel + 1, '\\' :: cs => do
    let (c, cs) ← escape cs
    let (text, rest) ← basicString fuel cs
    return (c :: text, rest)
  | fuel + 1, c :: cs => do
    guard !(isForbidden c)
    let (text, rest) ← basicString fuel cs
    return (c :: text, rest)

/-- A string in single quotes behind the opening one. -/
def literalString : List Char → Option (Taken (List Char))
  | [] => none
  | '\'' :: cs => some ([], cs)
  | c :: cs => do
    guard !(isForbidden c)
    let (text, rest) ← literalString cs
    return (c :: text, rest)

/-- The end of a string in three quotes: up to two more quotes belong to it. -/
def closing? (quote : Char) : List Char → Option (Taken (List Char))
  | a :: b :: c :: rest =>
    if a == quote && b == quote && c == quote then
      match rest with
      | d :: e :: more =>
        if d == quote && e == quote then some ([d, e], more)
        else if d == quote then some ([d], e :: more)
        else some ([], rest)
      | [d] => if d == quote then some ([d], []) else some ([], rest)
      | [] => some ([], [])
    else none
  | _ => none

/-- What follows a backslash at the end of a line, and the white space behind it. -/
def joinedLine? (cs : List Char) : Option (List Char) :=
  (lineBreak? (cs.dropWhile isBlank)).map skipWhite

/-- A string in three double quotes behind the opening ones, in at most `fuel` steps. -/
def longBasicString : Nat → List Char → Option (Taken (List Char))
  | 0, _ | _, [] => none
  | fuel + 1, c :: cs =>
    match closing? '"' (c :: cs) with
    | some found => some found
    | none =>
      if c == '\\' then
        match joinedLine? cs with
        | some cs => longBasicString fuel cs
        | none => do
          let (c, cs) ← escape cs
          let (text, rest) ← longBasicString fuel cs
          return (c :: text, rest)
      else do
        guard (!(isForbidden c) || (lineBreak? (c :: cs)).isSome)
        let (text, rest) ← longBasicString fuel cs
        return (c :: text, rest)

/-- A string in three single quotes behind the opening ones. -/
def longLiteralString : List Char → Option (Taken (List Char))
  | [] => none
  | c :: cs =>
    match closing? '\'' (c :: cs) with
    | some found => some found
    | none => do
      guard (!(isForbidden c) || (lineBreak? (c :: cs)).isSome)
      let (text, rest) ← longLiteralString cs
      return (c :: text, rest)

/-- The text without a line break at its front. -/
def skipFirstBreak (cs : List Char) : List Char := (lineBreak? cs).getD cs

/-- A string of any kind. -/
def string : List Char → Option (Taken (List Char))
  | '"' :: '"' :: '"' :: cs => longBasicString (cs.length + 1) (skipFirstBreak cs)
  | '"' :: cs => basicString (cs.length + 1) cs
  | '\'' :: '\'' :: '\'' :: cs => longLiteralString (skipFirstBreak cs)
  | '\'' :: cs => literalString cs
  | _ => none

/-! ## Numbers -/

/-- The digits of a number; each underscore stands between two of them. -/
def digitsOf? (isOne : Char → Bool) : List Char → Option (List Char)
  | [] => none
  | [c] => if isOne c then some [c] else none
  | c :: '_' :: cs => if isOne c then (digitsOf? isOne cs).map (c :: ·) else none
  | c :: cs => if isOne c then (digitsOf? isOne cs).map (c :: ·) else none

/-- The value of digits of a base. -/
def valueIn (base : Nat) (cs : List Char) : Nat :=
  cs.foldl (fun n c => n * base + (hexDigit? c).getD 0) 0

/-- The digits of a decimal number without a sign, which has no zero in front. -/
def decimalDigits? (cs : List Char) : Option (List Char) := do
  let ds ← digitsOf? Char.isDigit cs
  guard (ds.head? != some '0' || ds.length == 1)
  return ds

/-- A decimal number without a sign. -/
def decimal? (cs : List Char) : Option Nat := (decimalDigits? cs).map (valueIn 10)

/-- An integer without a sign in another base. -/
def based? : List Char → Option Nat
  | '0' :: 'x' :: cs => (digitsOf? (fun c => (hexDigit? c).isSome) cs).map (valueIn 16)
  | '0' :: 'o' :: cs => (digitsOf? (fun c => '0' ≤ c ∧ c ≤ '7') cs).map (valueIn 8)
  | '0' :: 'b' :: cs => (digitsOf? (fun c => c == '0' || c == '1') cs).map (valueIn 2)
  | _ => none

/-- An integer. -/
def integer? : List Char → Option Int
  | '-' :: cs => (decimal? cs).map fun n => -(n : Int)
  | '+' :: cs => (decimal? cs).map Int.ofNat
  | cs => ((based? cs).or (decimal? cs)).map Int.ofNat

/-- The text behind a sign, if there is one. -/
def unsigned : List Char → List Char
  | '+' :: cs | '-' :: cs => cs
  | cs => cs

/-- Whether `digits * 10 ^ exponent` rounds to a finite number of binary64. With `k` digits, the
first one no zero, the number is at least `10 ^ (k + exponent - 1)` and below ten times that, which
decides all but one size. -/
def roundsFinite (digits : List Char) (exponent : Int) : Bool :=
  let digits := digits.dropWhile (· == '0')
  let size := digits.length + exponent
  if digits.isEmpty || size < 309 then true
  else if 309 < size then false
  else
    let n := valueIn 10 digits
    match exponent with
    | .ofNat k => (Binary64.round false (n * Nat.pow 10 k) 1).isSome
    | .negSucc k => (Binary64.round false n (Nat.pow 10 (k + 1))).isSome

/-- The exponent behind its mark. -/
def exponent? : List Char → Option Int
  | '-' :: cs => (digitsOf? Char.isDigit cs).map fun ds => -(valueIn 10 ds : Int)
  | cs => (digitsOf? Char.isDigit (unsigned cs)).map fun ds => valueIn 10 ds

/-- An exponent mark. -/
def isMark (c : Char) : Bool := c == 'e' || c == 'E'

/-- A float, of which is told whether it is in range. Besides the digits there is a point with more
digits behind it, or an exponent, or both. -/
def float? (cs : List Char) : Option Bool := do
  let cs := unsigned cs
  if cs == "inf".toList || cs == "nan".toList then return true
  let (whole, rest) := spanOf (fun c => c != '.' && !isMark c) cs
  let ds ← decimalDigits? whole
  match rest with
  | '.' :: rest =>
    let (places, rest) := spanOf (fun c => !isMark c) rest
    let places ← digitsOf? Char.isDigit places
    let e ← if rest.isEmpty then some 0 else exponent? (rest.drop 1)
    return roundsFinite (ds ++ places) (e - places.length)
  | _ :: rest => return roundsFinite ds (← exponent? rest)
  | [] => none

/-! ## Dates and times -/

/-- A number of two digits within limits, and the rest. -/
def twoDigits (least most : Nat) : List Char → Option (Taken Nat)
  | a :: b :: cs => do
    guard (a.isDigit && b.isDigit)
    let n := valueIn 10 [a, b]
    guard (least ≤ n && n ≤ most)
    return (n, cs)
  | _ => none

/-- What follows a date. -/
def date? (cs : List Char) : Option (List Char) := do
  let year := cs.take 4
  guard (year.length == 4 && year.all Char.isDigit)
  let cs ← literal "-" (cs.drop 4)
  let (month, cs) ← twoDigits 1 12 cs
  let (_, cs) ← twoDigits 1 (Instant.daysInMonth (valueIn 10 year) month) (← literal "-" cs)
  return cs

/-- What follows a fraction of a second, if there is one. -/
def fraction? : List Char → Option (List Char)
  | '.' :: cs =>
    match spanOf Char.isDigit cs with
    | ([], _) => none
    | (_, cs) => some cs
  | cs => some cs

/-- What follows a time of the day. The seconds may be left out. -/
def time? (cs : List Char) : Option (List Char) := do
  let (_, cs) ← twoDigits 0 23 cs
  let (_, cs) ← twoDigits 0 59 (← literal ":" cs)
  match cs with
  | ':' :: cs => do
    let (_, cs) ← twoDigits 0 60 cs
    fraction? cs
  | cs => some cs

/-- Whether a text is an offset, or nothing. -/
def isOffset : List Char → Bool
  | [] | ['Z'] | ['z'] => true
  | '+' :: cs | '-' :: cs =>
    (do
      let (_, cs) ← twoDigits 0 23 cs
      let (_, cs) ← twoDigits 0 59 (← literal ":" cs)
      guard cs.isEmpty).isSome
  | _ => false

/-- Whether a text is a date, a time, or both. -/
def isDate (cs : List Char) : Bool :=
  match date? cs with
  | some [] => true
  | some (c :: rest) =>
    (c == 'T' || c == 't' || c == ' ') && (time? rest).any isOffset
  | none => (time? cs).any (·.isEmpty)

/-! ## Values without quotes -/

/-- A character of a value without quotes. -/
def isBare (c : Char) : Bool :=
  c.isAlphanum || c == '+' || c == '-' || c == '_' || c == '.' || c == ':'

/-- A value without quotes as it is written. A blank may stand between a date and a time. -/
def bareText (cs : List Char) : List Char × List Char :=
  let (text, rest) := spanOf isBare cs
  match date? text, rest with
  | some [], ' ' :: c :: more =>
    if c.isDigit then
      let (time, rest) := spanOf isBare (c :: more)
      (text ++ ' ' :: time, rest)
    else (text, rest)
  | _, _ => (text, rest)

/-- The value that a text without quotes means. -/
def bareValue? (cs : List Char) : Option Toml :=
  if cs == "true".toList then some (.bool true)
  else if cs == "false".toList then some (.bool false)
  else
    match integer? cs, float? cs with
    | some n, _ => some (.int n)
    | none, some b => some (.float b)
    | none, none => if isDate cs then some .date else none

end ContractBuild.Toml
