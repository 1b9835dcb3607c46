import ContractBuild.Number.Shortest

/-!
# JSON values and their text

An object keeps its fields in the order in which they are written. `Json.write` lays a value out
without any blanks or, in the `indented` layout, with one entry a line and two blanks a level.
-/

namespace ContractBuild

/-- A JSON number: an integer of the signed or unsigned 64-bit range, or a binary64 number. -/
inductive JsonNumber where
  | int (n : Int)
  | float (x : Binary64)
  deriving Repr, DecidableEq, Inhabited

/-- A JSON value. -/
inductive Json where
  | null
  | bool (b : Bool)
  | num (n : JsonNumber)
  | str (s : String)
  | arr (items : List Json)
  | obj (fields : List (String × Json))
  deriving Repr, Inhabited

/-- The text of a natural number in base ten. -/
def decimalChars (n : Nat) : List Char := Nat.toDigits 10 n

/-- The text of an integer in base ten. -/
def intChars : Int → List Char
  | .ofNat n => decimalChars n
  | .negSucc n => '-' :: decimalChars (n + 1)

namespace Binary64

/-- The text of a number in JSON: the shortest decimal, positional while the power of ten of its
first digit is from `-5` to `15`, and then with at least one place; scientific otherwise. -/
def jsonChars (x : Binary64) : List Char :=
  let d := x.shortest
  let sign := if x.negative then ['-'] else []
  let e := d.magnitude
  sign ++
    if x.isZero then ['0', '.', '0']
    else if -5 ≤ e ∧ e < 16 then
      let (whole, places) := d.positional
      whole ++ '.' :: (if places.isEmpty then ['0'] else places)
    else
      let mantissa := match d.digitChars with
        | first :: more => first :: (if more.isEmpty then [] else '.' :: more)
        | [] => []
      mantissa ++ 'e' :: (if e < 0 then intChars e else '+' :: intChars e)

/-- The text of a number without an exponent, and without a point where there are no places. -/
def plainChars (x : Binary64) : List Char :=
  (if x.negative then ['-'] else []) ++ if x.isZero then ['0'] else x.shortest.plain

end Binary64

/-- The text of a JSON number. -/
def JsonNumber.chars : JsonNumber → List Char
  | int n => intChars n
  | float x => x.jsonChars

namespace Json

/-! ## Equality -/

mutual

/-- Equality of values can be decided. -/
def decideEq : (a b : Json) → Decidable (a = b)
  | null, null => .isTrue rfl
  | bool a, bool b => decidable_of_iff (a = b) (by simp)
  | num a, num b => decidable_of_iff (a = b) (by simp)
  | str a, str b => decidable_of_iff (a = b) (by simp)
  | arr a, arr b =>
    match decideEqItems a b with
    | .isTrue h => .isTrue (h ▸ rfl)
    | .isFalse h => .isFalse fun e => h (by injection e)
  | obj a, obj b =>
    match decideEqFields a b with
    | .isTrue h => .isTrue (h ▸ rfl)
    | .isFalse h => .isFalse fun e => h (by injection e)
  | null, bool _ | null, num _ | null, str _ | null, arr _ | null, obj _
  | bool _, null | bool _, num _ | bool _, str _ | bool _, arr _ | bool _, obj _
  | num _, null | num _, bool _ | num _, str _ | num _, arr _ | num _, obj _
  | str _, null | str _, bool _ | str _, num _ | str _, arr _ | str _, obj _
  | arr _, null | arr _, bool _ | arr _, num _ | arr _, str _ | arr _, obj _
  | obj _, null | obj _, bool _ | obj _, num _ | obj _, str _ | obj _, arr _ =>
    .isFalse (by simp)

/-- Equality of items can be decided. -/
def decideEqItems : (a b : List Json) → Decidable (a = b)
  | [], [] => .isTrue rfl
  | [], _ :: _ | _ :: _, [] => .isFalse (by simp)
  | a :: as, b :: bs =>
    match decideEq a b, decideEqItems as bs with
    | .isTrue h, .isTrue h' => .isTrue (h ▸ h' ▸ rfl)
    | .isFalse h, _ => .isFalse fun e => h (by injection e)
    | _, .isFalse h => .isFalse fun e => h (by injection e)

/-- Equality of fields can be decided. -/
def decideEqFields : (a b : List (String × Json)) → Decidable (a = b)
  | [], [] => .isTrue rfl
  | [], _ :: _ | _ :: _, [] => .isFalse (by simp)
  | (k, a) :: as, (l, b) :: bs =>
    match decEq k l, decideEq a b, decideEqFields as bs with
    | .isTrue h, .isTrue h', .isTrue h'' => .isTrue (h ▸ h' ▸ h'' ▸ rfl)
    | .isFalse h, _, _ => .isFalse fun e => h (by injection e with e; injection e)
    | _, .isFalse h, _ => .isFalse fun e => h (by injection e with e; injection e)
    | _, _, .isFalse h => .isFalse fun e => h (by injection e)

end

instance : DecidableEq Json := decideEq

/-! ## Text -/

/-- How a value is laid out. -/
inductive Layout where
  | compact
  | indented
  deriving Repr, DecidableEq

namespace Layout

/-- What stands before an entry at a nesting depth. -/
def lineBreak (l : Layout) (depth : Nat) : List Char :=
  match l with
  | compact => []
  | indented => '\n' :: List.replicate (2 * depth) ' '

/-- What stands between a key and its value. -/
def colon : Layout → List Char
  | compact => [':']
  | indented => [':', ' ']

end Layout

/-- The digits of a control character in an escape. -/
def hexPair (n : Nat) : List Char :=
  [Nat.digitChar (n / 16), Nat.digitChar (n % 16)]

/-- A character inside a string. -/
def escape (c : Char) : List Char :=
  if c == '"' then ['\\', '"']
  else if c == '\\' then ['\\', '\\']
  else if c == '\n' then ['\\', 'n']
  else if c == '\r' then ['\\', 'r']
  else if c == '\t' then ['\\', 't']
  else if c == '\x08' then ['\\', 'b']
  else if c == '\x0c' then ['\\', 'f']
  else if c.toNat < 0x20 then ['\\', 'u', '0', '0'] ++ hexPair c.toNat
  else [c]

/-- A string in quotes. -/
def quote (s : String) : List Char := '"' :: (s.toList.flatMap escape ++ ['"'])

mutual

/-- The text of a value at a nesting depth. -/
def write (l : Layout) (depth : Nat) : Json → List Char
  | null => "null".toList
  | bool true => "true".toList
  | bool false => "false".toList
  | num n => n.chars
  | str s => quote s
  | arr [] => ['[', ']']
  | arr (v :: rest) =>
    '[' :: (l.lineBreak (depth + 1) ++ write l (depth + 1) v ++ writeItems l depth rest)
  | obj [] => ['\x7b', '\x7d']
  | obj ((k, v) :: rest) =>
    '\x7b' :: (l.lineBreak (depth + 1) ++ quote k ++ l.colon ++ write l (depth + 1) v ++
      writeFields l depth rest)

/-- The items behind the first one, and the bracket. -/
def writeItems (l : Layout) (depth : Nat) : List Json → List Char
  | [] => l.lineBreak depth ++ [']']
  | v :: rest =>
    ',' :: (l.lineBreak (depth + 1) ++ write l (depth + 1) v ++ writeItems l depth rest)

/-- The fields behind the first one, and the brace. -/
def writeFields (l : Layout) (depth : Nat) : List (String × Json) → List Char
  | [] => l.lineBreak depth ++ ['\x7d']
  | (k, v) :: rest =>
    ',' :: (l.lineBreak (depth + 1) ++ quote k ++ l.colon ++ write l (depth + 1) v ++
      writeFields l depth rest)

end

/-- The text of a value. -/
def text (l : Layout) (v : Json) : String := String.ofList (write l 0 v)

/-- The text of a value without blanks. -/
def compact (v : Json) : String := v.text .compact

/-- The text of a value with one entry a line. -/
def pretty (v : Json) : String := v.text .indented

/-- A natural number. -/
def ofNat (n : Nat) : Json := num (.int n)

/-- A list of strings. -/
def ofStrings (ss : List String) : Json := arr (ss.map str)

/-- A string, or null. -/
def ofString? : Option String → Json
  | some s => str s
  | none => null

/-- The field of an object under a name. -/
def field? (v : Json) (name : String) : Option Json :=
  match v with
  | obj fields => (fields.find? (·.1 == name)).map (·.2)
  | _ => none

end Json

end ContractBuild
