import ContractBuild.Text.CharClass

/-!
# Points in time

An `Instant` counts seconds from the start of 1970 in universal time, with a fraction in
nanoseconds. `Instant.parse?` reads the common date and time notation with any offset, and
`Instant.text` writes it in universal time with as few places as lose nothing.
-/

namespace ContractBuild

open Text

/-- A point in time. A fraction of a second or more means a leap second. -/
structure Instant where
  seconds : Int
  nanos : Nat
  deriving Repr, DecidableEq, Inhabited

namespace Instant

/-! ## The calendar -/

/-- Whether a year has a leap day. -/
def isLeapYear (y : Int) : Bool := y % 4 == 0 && (y % 100 != 0 || y % 400 == 0)

/-- The number of days of a month, counted from one. -/
def daysInMonth (y : Int) (m : Nat) : Nat :=
  if m == 2 then (if isLeapYear y then 29 else 28)
  else if m == 4 || m == 6 || m == 9 || m == 11 then 30
  else 31

/-- Days from the start of 1970 to a date. Years count from March here, so that the leap day is the
last of its year. -/
def daysFromCivil (y : Int) (m d : Nat) : Int :=
  let y := if m ≤ 2 then y - 1 else y
  let era := y.fdiv 400
  let yoe := y - era * 400
  let mp : Int := if 2 < m then m - 3 else m + 9
  let doy := (153 * mp + 2).fdiv 5 + d - 1
  let doe := yoe * 365 + yoe.fdiv 4 - yoe.fdiv 100 + doy
  era * 146097 + doe - 719468

/-- The date a number of days after the start of 1970. -/
def civilFromDays (days : Int) : Int × Nat × Nat :=
  let z := days + 719468
  let era := z.fdiv 146097
  let doe := z - era * 146097
  let yoe := (doe - doe.fdiv 1460 + doe.fdiv 36524 - doe.fdiv 146096).fdiv 365
  let doy := doe - (365 * yoe + yoe.fdiv 4 - yoe.fdiv 100)
  let mp := (5 * doy + 2).fdiv 153
  let d := doy - (153 * mp + 2).fdiv 5 + 1
  let m := if mp < 10 then mp + 3 else mp - 9
  let y := yoe + era * 400
  (if m ≤ 2 then y + 1 else y, m.toNat, d.toNat)

/-! ## Writing -/

/-- A number with at least `width` digits. -/
def padded (width n : Nat) : String :=
  let ds := Nat.toDigits 10 n
  String.ofList (List.replicate (width - ds.length) '0' ++ ds)

/-- A year: four digits, and a sign outside of 0 to 9999. -/
def yearText (y : Int) : String :=
  if 0 ≤ y ∧ y ≤ 9999 then padded 4 y.toNat
  else (if y < 0 then "-" else "+") ++ padded 4 y.natAbs

/-- A fraction of a second with none, three, six or nine places. -/
def fractionText (nanos : Nat) : String :=
  if nanos == 0 then ""
  else if nanos % 1000000 == 0 then "." ++ padded 3 (nanos / 1000000)
  else if nanos % 1000 == 0 then "." ++ padded 6 (nanos / 1000)
  else "." ++ padded 9 nanos

/-- The time in universal time. -/
def text (t : Instant) : String :=
  let days := t.seconds.fdiv 86400
  let rest := (t.seconds - days * 86400).toNat
  let (y, m, d) := civilFromDays days
  let (extra, nanos) := if 1000000000 ≤ t.nanos then (1, t.nanos - 1000000000) else (0, t.nanos)
  let clock := ":".intercalate
    [padded 2 (rest / 3600), padded 2 (rest / 60 % 60), padded 2 (rest % 60 + extra)]
  s!"{yearText y}-{padded 2 m}-{padded 2 d}T{clock}{fractionText nanos}Z"

/-! ## Reading -/

/-- At most `width` digits, at least one: their value, how many they are, and what follows them. -/
def number? (width : Nat) (cs : List Char) : Option (Nat × Nat × List Char) :=
  let ds := (cs.take width).takeWhile Char.isDigit
  if ds.isEmpty then none
  else some (ds.foldl (fun n c => n * 10 + (c.toNat - 48)) 0, ds.length, cs.drop ds.length)

/-- A number behind spaces that may have up to two digits. -/
def field? (cs : List Char) : Option (Nat × List Char) :=
  (number? 2 (trimStart cs)).map fun (n, _, rest) => (n, rest)

/-- A year behind spaces: four digits, or any number of them behind a sign. -/
def year? (cs : List Char) : Option (Int × List Char) :=
  match trimStart cs with
  | '-' :: rest => (number? rest.length rest).map fun (n, _, rest) => (-(n : Int), rest)
  | '+' :: rest => (number? rest.length rest).map fun (n, _, rest) => ((n : Int), rest)
  | rest => (number? 4 rest).map fun (n, _, rest) => ((n : Int), rest)

/-- A separator behind spaces. -/
def separator? (c : Char) (cs : List Char) : Option (List Char) :=
  match trimStart cs with
  | d :: rest => if d == c then some rest else none
  | [] => none

/-- A fraction behind a point, if there is one; places behind the ninth do not count. -/
def fraction? (cs : List Char) : Option (Nat × List Char) :=
  match cs with
  | '.' :: rest =>
    (number? 9 rest).map fun (n, width, rest) =>
      (n * Nat.pow 10 (9 - width), rest.dropWhile Char.isDigit)
  | cs => some (0, cs)

/-- An offset from universal time in seconds. -/
def offset? (cs : List Char) : Option (Int × List Char) :=
  match cs with
  | 'Z' :: rest | 'z' :: rest => some (0, rest)
  | '+' :: rest => signed 1 rest
  | '-' :: rest | '−' :: rest => signed (-1) rest
  | cs => if asciiLower (String.ofList (cs.take 3)) == "utc" then some (0, cs.drop 3) else none
where
  /-- Two digits of hours and two of minutes. -/
  signed (sign : Int) (cs : List Char) : Option (Int × List Char) := do
    let (hours, width, rest) ← number? 2 cs
    guard (width == 2)
    let (minutes, width, rest) ← number? 2 (rest.dropWhile fun c => c == ':' || isSpace c)
    guard (width == 2 && minutes < 60)
    return (sign * (hours * 3600 + minutes * 60), rest)

/-- Reads a date, a `T` or a blank, a time and an offset. -/
def parse? (s : String) : Option Instant := do
  let (y, cs) ← year? s.toList
  let (m, cs) ← field? (← separator? '-' cs)
  let (d, cs) ← field? (← separator? '-' cs)
  let cs ← match cs with
    | 'T' :: cs | 't' :: cs | ' ' :: cs => some cs
    | _ => none
  let (hour, cs) ← field? cs
  let (minute, cs) ← field? (← separator? ':' cs)
  let (second, cs) ← field? (← separator? ':' cs)
  let (fraction, cs) ← fraction? cs
  let (offset, cs) ← offset? (trimStart cs)
  guard (trimStart cs).isEmpty
  guard (-262143 ≤ y ∧ y ≤ 262142)
  guard (1 ≤ m ∧ m ≤ 12 ∧ 1 ≤ d ∧ d ≤ daysInMonth y m)
  guard (hour < 24 ∧ minute < 60 ∧ second ≤ 60)
  guard (-86400 < offset ∧ offset < 86400)
  let (second, leap) := if second == 60 then (59, 1000000000) else (second, 0)
  return ⟨daysFromCivil y m d * 86400 + hour * 3600 + minute * 60 + second - offset,
    fraction + leap⟩

end Instant

end ContractBuild
