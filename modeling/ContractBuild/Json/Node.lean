import ContractBuild.Json.Fault
import ContractBuild.Text.CharClass

/-!
# A JSON text as far as it could be read

A reader that expects a certain shape has to report the first thing that is wrong in the order of
the text, be it a broken text or a value of another shape. So a text is first read into a `Node`,
which holds everything up to the place where reading had to stop, with the fault found there, and a
shape is then looked for in the node, front to back.

A value that nobody asks for is skipped with fewer checks than one that is read. Where the two
differ a node holds both answers: `strict` for reading, `lenient` for skipping.
-/

namespace ContractBuild.Json

open Text (hexDigit?)

/-- A value without parts. -/
inductive Scalar where
  | null
  | bool (b : Bool)
  | num (n : JsonNumber)
  | str (s : String)
  deriving Repr, DecidableEq

/-- How a list of items or fields ends. -/
inductive Tail where
  /-- With its bracket, which ends at the byte `stop`. -/
  | closed (stop : Nat)
  /-- With its bracket, in a value that was read whole before. -/
  | known (stop : Nat)
  /-- With a fault: what a reader says, what a skipper says, and what one says who expects the
  bracket, or the name of a variant, right here. -/
  | broken (strict lenient finish : Fault)
  /-- Inside its last entry, which holds the fault. -/
  | cut
  deriving Repr, DecidableEq

/-- A key of an object. -/
structure Key where
  /-- Where its opening quote stands. -/
  start : Nat
  text : Except Fault String
  /-- Where its closing quote ends. -/
  stop : Nat
  /-- Where the blanks behind the key end. -/
  after : Nat

/-- A value as far as it could be read. Places are numbers of bytes from the start of the text. -/
inductive Node where
  /-- A value without parts: what it says when it is read, and where it ends when it is skipped. -/
  | scalar (start : Nat) (strict : Except Fault Scalar) (lenient : Except Fault Nat)
  /-- A list. It is `deep` if more lists and objects enclose it than a reader follows. -/
  | arr (start : Nat) (deep : Bool) (items : List Node) (tail : Tail)
  /-- An object. -/
  | obj (start : Nat) (deep : Bool) (fields : List (Key × Node)) (tail : Tail)
  /-- No value starts here. -/
  | bad (fault : Fault)

instance : Inhabited Node := ⟨.bad ⟨.endInValue, 0⟩⟩

/-- Where a value starts. -/
def Node.start : Node → Nat
  | scalar n _ _ | arr n _ _ _ | obj n _ _ _ => n
  | bad f => f.offset - 1

/-- The part of a text that is still to be read, with the number of bytes before it; nothing if
reading had to stop. -/
abbrev Rest := Option (Nat × List Char)

/-! ## Blanks, words and strings -/

/-- The blanks of JSON. -/
def isJsonBlank (c : Char) : Bool := c == ' ' || c == '\t' || c == '\n' || c == '\r'

/-- The place and the text behind blanks. -/
def skipBlanks (pos : Nat) : List Char → Nat × List Char
  | c :: cs => if isJsonBlank c then skipBlanks (pos + 1) cs else (pos, c :: cs)
  | [] => (pos, [])

/-- The rest of a word whose first letter was read. -/
def readWord (pos : Nat) : List Char → List Char → Except Fault (Nat × List Char)
  | [], cs => .ok (pos, cs)
  | _ :: _, [] => .error ⟨.endInValue, pos⟩
  | w :: ws, c :: cs => if c == w then readWord (pos + 1) ws cs else .error ⟨.noWord, pos + 1⟩

/-- The value of four hexadecimal digits. -/
def hexFour? (a b c d : Char) : Option Nat := do
  return ((← hexDigit? a) * 16 + (← hexDigit? b)) * 256 + ((← hexDigit? c) * 16 + (← hexDigit? d))

/-- The character that a one-letter escape stands for. -/
def escaped? : Char → Option Char
  | '"' => some '"'
  | '\\' => some '\\'
  | '/' => some '/'
  | 'b' => some '\x08'
  | 'f' => some '\x0c'
  | 'n' => some '\n'
  | 'r' => some '\r'
  | 't' => some '\t'
  | _ => none

/-- The fault of an escape with fewer than four digits. -/
def shortHex (pos : Nat) (cs : List Char) : Fault :=
  let bytes := cs.foldl (· + ·.utf8Size) 0
  if bytes < 4 then ⟨.endInString, pos + bytes⟩ else ⟨.badEscape, pos + 4⟩

/-- A code unit that opens a surrogate pair. -/
def opensPair (n : Nat) : Bool := 0xd800 ≤ n && n ≤ 0xdbff

/-- A code unit that closes a surrogate pair. -/
def closesPair (n : Nat) : Bool := 0xdc00 ≤ n && n ≤ 0xdfff

/-- The character of a surrogate pair. -/
def pairChar (high low : Nat) : Char :=
  Char.ofNat ((high - 0xd800) * 0x400 + (low - 0xdc00) + 0x10000)

/-- Reads a string behind its opening quote, up to and with the closing one. -/
def readString (pos : Nat) : List Char → Except Fault (List Char × Nat × List Char)
  | [] => .error ⟨.endInString, pos⟩
  | '"' :: cs => .ok ([], pos + 1, cs)
  | '\\' :: 'u' :: a :: b :: c :: d :: cs =>
    match hexFour? a b c d with
    | none => .error ⟨.badEscape, pos + 6⟩
    | some n =>
      if closesPair n then .error ⟨.loneSurrogate, pos + 6⟩
      else if opensPair n then
        match cs with
        | '\\' :: 'u' :: e :: f :: g :: h :: cs =>
          match hexFour? e f g h with
          | none => .error ⟨.badEscape, pos + 12⟩
          | some m =>
            if closesPair m then do
              let (text, rest) ← readString (pos + 12) cs
              return (pairChar n m :: text, rest)
            else .error ⟨.loneSurrogate, pos + 12⟩
        | '\\' :: 'u' :: short => .error (shortHex (pos + 8) short)
        | '\\' :: _ :: _ => .error ⟨.brokenPair, pos + 8⟩
        | ['\\'] => .error ⟨.endInString, pos + 7⟩
        | _ :: _ => .error ⟨.brokenPair, pos + 7⟩
        | [] => .error ⟨.endInString, pos + 6⟩
      else do
        let (text, rest) ← readString (pos + 6) cs
        return (Char.ofNat n :: text, rest)
  | '\\' :: 'u' :: short => .error (shortHex (pos + 2) short)
  | ['\\'] => .error ⟨.endInString, pos + 1⟩
  | '\\' :: c :: cs =>
    match escaped? c with
    | some e => do
      let (text, rest) ← readString (pos + 2) cs
      return (e :: text, rest)
    | none => .error ⟨.badEscape, pos + 2⟩
  | c :: cs =>
    if c.toNat < 0x20 then .error ⟨.rawControl, pos + 1⟩
    else do
      let (text, rest) ← readString (pos + c.utf8Size) cs
      return (c :: text, rest)

/-- Skips a string behind its opening quote. Surrogates are not looked at. -/
def skipString (pos : Nat) : List Char → Except Fault (Nat × List Char)
  | [] => .error ⟨.endInString, pos⟩
  | '"' :: cs => .ok (pos + 1, cs)
  | '\\' :: 'u' :: a :: b :: c :: d :: cs =>
    match hexFour? a b c d with
    | none => .error ⟨.badEscape, pos + 6⟩
    | some _ => skipString (pos + 6) cs
  | '\\' :: 'u' :: short => .error (shortHex (pos + 2) short)
  | ['\\'] => .error ⟨.endInString, pos + 1⟩
  | '\\' :: c :: cs =>
    if (escaped? c).isSome then skipString (pos + 2) cs else .error ⟨.badEscape, pos + 2⟩
  | c :: cs =>
    if c.toNat < 0x20 then .error ⟨.rawControl, pos⟩ else skipString (pos + c.utf8Size) cs

/-! ## Numbers -/

/-- The digits at the front of a text, and what follows them. -/
def spanDigits (cs : List Char) : List Char × List Char :=
  (cs.takeWhile Char.isDigit, cs.dropWhile Char.isDigit)

/-- The value of an ASCII digit. -/
def digitValue (c : Char) : Nat := c.toNat - '0'.toNat

/-- Appends digits to a significand while it stays within 64 bits; also tells how many digits were
taken. -/
def takeDigits (significand : Nat) : List Char → Nat × Nat
  | [] => (significand, 0)
  | c :: cs =>
    let next := significand * 10 + digitValue c
    if next < UInt64.size then
      let (s, n) := takeDigits next cs
      (s, n + 1)
    else (significand, 0)

/-- The number `significand * 10 ^ exponent`, computed with at most one rounded multiplication or
division by a power of ten for exponents up to 308, and by steps below that. -/
def scaleFloat (significand : Nat) (exponent : Int) : Option Binary64 := do
  let f ← Binary64.ofNat? significand
  match exponent with
  | .ofNat k =>
    if f.isZero then return f
    else if k ≤ 308 then f.mul (← Binary64.powerOfTen k)
    else none
  | .negSucc k => shrink 4 f (k + 1)
where
  /-- Divides by `10 ^ k`, a factor of `10 ^ 308` at a time. -/
  shrink : Nat → Binary64 → Nat → Option Binary64
    | 0, f, _ => some (.zero f.negative)
    | fuel + 1, f, k =>
      if k ≤ 308 then do f.div (← Binary64.powerOfTen k)
      else if f.isZero then some f
      else do shrink fuel (← f.div (← Binary64.powerOfTen 308)) (k - 308)

/-- A float with a sign, or a fault at `pos`. -/
def floatAt (pos : Nat) (negative : Bool) (significand : Nat) (exponent : Int) :
    Except Fault JsonNumber :=
  match scaleFloat significand exponent with
  | some x => .ok (.float { x with negative })
  | none => .error ⟨.hugeNumber, pos⟩

/-- The greatest exponent that is looked at. -/
def exponentLimit : Nat := 2147483647

/-- How many digits it takes until the number they make, behind `value`, is above a limit. -/
def digitsAbove (limit value : Nat) : List Char → Option Nat
  | [] => none
  | c :: cs =>
    let next := value * 10 + digitValue c
    if limit < next then some 1 else (digitsAbove limit next cs).map (· + 1)

/-- The number after `significand` and an exponent mark, with the text behind the mark. A number is
given up at the digit that makes its exponent too large, if that makes it large and not small. -/
def readExponent (pos : Nat) (negative : Bool) (significand : Nat) (exponent : Int)
    (cs : List Char) : Except Fault (JsonNumber × Nat × List Char) :=
  let (down, pos, cs) := match cs with
    | '+' :: cs => (false, pos + 1, cs)
    | '-' :: cs => (true, pos + 1, cs)
    | cs => (false, pos, cs)
  match spanDigits cs with
  | ([], []) => .error ⟨.endInValue, pos⟩
  | ([], _ :: _) => .error ⟨.badNumber, pos + 1⟩
  | (ds, rest) =>
    let stop := pos + ds.length
    match digitsAbove exponentLimit 0 ds with
    | some count =>
      if significand != 0 && !down then .error ⟨.hugeNumber, pos + count⟩
      else .ok (.float (.zero negative), stop, rest)
    | none => do
      let e := ds.foldl (fun e c => e * 10 + digitValue c) 0
      let total := if down then exponent - e else exponent + e
      return (← floatAt stop negative significand total, stop, rest)

/-- The number after `significand` and a point, with the text behind the point. -/
def readPlaces (pos : Nat) (negative : Bool) (significand : Nat) (exponent : Int)
    (cs : List Char) : Except Fault (JsonNumber × Nat × List Char) :=
  match spanDigits cs with
  | ([], []) => .error ⟨.endInValue, pos⟩
  | ([], _ :: _) => .error ⟨.badNumber, pos + 1⟩
  | (ds, rest) =>
    let stop := pos + ds.length
    let (significand, taken) := takeDigits significand ds
    let exponent := exponent - taken
    match rest with
    | 'e' :: rest | 'E' :: rest => readExponent (stop + 1) negative significand exponent rest
    | rest => do return (← floatAt stop negative significand exponent, stop, rest)

/-- An integer with a sign. Zero with a minus sign and integers below the signed range are floats.
-/
def integerAt (pos : Nat) (negative : Bool) (n : Nat) : Except Fault JsonNumber :=
  if !negative then .ok (.int n)
  else if n == 0 || Nat.pow 2 63 < n then floatAt pos true n 0
  else .ok (.int (-n))

/-- Reads a number behind its sign. Of a long number only the digits that fit in 64 bits count; the
others are zeros. -/
def readNumber (pos : Nat) (negative : Bool) (cs : List Char) :
    Except Fault (JsonNumber × Nat × List Char) :=
  match spanDigits cs with
  | ([], []) => .error ⟨.endInValue, pos⟩
  | ([], _ :: _) => .error ⟨.badNumber, pos + 1⟩
  | ('0' :: _ :: _, _) => .error ⟨.badNumber, pos + 2⟩
  | (ds, rest) =>
    let stop := pos + ds.length
    let (significand, taken) := takeDigits 0 ds
    let dropped := ds.length - taken
    match rest with
    | '.' :: rest => readPlaces (stop + 1) negative significand dropped rest
    | 'e' :: rest | 'E' :: rest => readExponent (stop + 1) negative significand dropped rest
    | rest => do
      if dropped == 0 then return (← integerAt stop negative significand, stop, rest)
      else return (← floatAt stop negative significand dropped, stop, rest)

/-- Skips an exponent behind its mark. -/
def skipExponent (pos : Nat) (cs : List Char) : Except Fault (Nat × List Char) :=
  let (pos, cs) := match cs with
    | '+' :: cs | '-' :: cs => (pos + 1, cs)
    | cs => (pos, cs)
  match spanDigits cs with
  | ([], _) => .error ⟨.badNumber, pos + 1⟩
  | (ds, rest) => .ok (pos + ds.length, rest)

/-- Skips a number behind its sign. Its size is not looked at. -/
def skipNumber (pos : Nat) (cs : List Char) : Except Fault (Nat × List Char) :=
  match spanDigits cs with
  | ([], _) => .error ⟨.badNumber, pos + 1⟩
  | ('0' :: _ :: _, _) => .error ⟨.badNumber, pos + 2⟩
  | (ds, '.' :: rest) =>
    let pos := pos + ds.length + 1
    match spanDigits rest with
    | ([], _) => .error ⟨.badNumber, pos + 1⟩
    | (places, 'e' :: rest) | (places, 'E' :: rest) => skipExponent (pos + places.length + 1) rest
    | (places, rest) => .ok (pos + places.length, rest)
  | (ds, 'e' :: rest) | (ds, 'E' :: rest) => skipExponent (pos + ds.length + 1) rest
  | (ds, rest) => .ok (pos + ds.length, rest)

/-! ## Values -/

/-- A scalar node, and what follows it. -/
def scalarNode (start : Nat) (strict : Except Fault Scalar)
    (lenient : Except Fault (Nat × List Char)) : Node × Rest :=
  (.scalar start strict (lenient.map (·.1)), lenient.toOption)

/-- A word that is a value. -/
def wordNode (start : Nat) (word : String) (value : Scalar) (cs : List Char) : Node × Rest :=
  let read := readWord (start + 1) word.toList cs
  scalarNode start (read.map fun _ => value) read

/-- A string whose opening quote stands at `start`. -/
def stringNode (start : Nat) (cs : List Char) : Node × Rest :=
  scalarNode start ((readString (start + 1) cs).map fun r => .str (String.ofList r.1))
    (skipString (start + 1) cs)

/-- A number whose digits start at `pos`. -/
def numberNode (start pos : Nat) (negative : Bool) (cs : List Char) : Node × Rest :=
  scalarNode start ((readNumber pos negative cs).map fun r => .num r.1) (skipNumber pos cs)

/-- A value that is neither a list nor an object. -/
def plainNode (pos : Nat) : List Char → Node × Rest
  | [] => (.bad ⟨.endInValue, pos⟩, none)
  | 'n' :: cs => wordNode pos "ull" .null cs
  | 't' :: cs => wordNode pos "rue" (.bool true) cs
  | 'f' :: cs => wordNode pos "alse" (.bool false) cs
  | '"' :: cs => stringNode pos cs
  | '-' :: cs => numberNode pos (pos + 1) true cs
  | c :: cs =>
    if c.isDigit then numberNode pos pos false (c :: cs) else (.bad ⟨.noValue, pos + 1⟩, none)

/-- How many lists and objects a reader follows into each other. -/
def depthLimit : Nat := 127

mutual

/-- Reads a value that stands inside `depth` lists and objects. -/
def readValue : Nat → Nat → Nat → List Char → Node × Rest
  | 0, _, pos, _ => (.bad ⟨.endInValue, pos⟩, none)
  | fuel + 1, depth, pos, cs =>
    match skipBlanks pos cs with
    | (pos, '[' :: cs) =>
      let (items, tail, rest) := readItems fuel (depth + 1) true (pos + 1) cs
      (.arr pos (depthLimit ≤ depth) items tail, rest)
    | (pos, '\x7b' :: cs) =>
      let (fields, tail, rest) := readFields fuel (depth + 1) true (pos + 1) cs
      (.obj pos (depthLimit ≤ depth) fields tail, rest)
    | (pos, cs) => plainNode pos cs

/-- Reads the items of a list, up to its bracket. -/
def readItems : Nat → Nat → Bool → Nat → List Char → List Node × Tail × Rest
  | 0, _, _, _, _ => ([], .cut, none)
  | fuel + 1, depth, first, pos, cs =>
    match skipBlanks pos cs with
    | (pos, []) =>
      let f : Fault := ⟨.endInList, pos⟩
      ([], .broken f f f, none)
    | (pos, ']' :: cs) => ([], .closed (pos + 1), some (pos + 1, cs))
    | (pos, c :: cs) =>
      if first then readItem fuel depth pos (c :: cs)
      else if c == ',' then
        match skipBlanks (pos + 1) cs with
        | (pos, []) =>
          let f : Fault := ⟨.endInValue, pos⟩
          ([], .broken f f ⟨.trailingText, pos⟩, none)
        | (pos, ']' :: _) =>
          let f : Fault := ⟨.trailingComma, pos + 1⟩
          ([], .broken f ⟨.noValue, pos + 1⟩ f, none)
        | (pos, cs) => readItem fuel depth pos cs
      else
        let f : Fault := ⟨.noListComma, pos + 1⟩
        ([], .broken f f ⟨.trailingText, pos + 1⟩, none)

/-- Reads one item of a list and those behind it. -/
def readItem : Nat → Nat → Nat → List Char → List Node × Tail × Rest
  | 0, _, _, _ => ([], .cut, none)
  | fuel + 1, depth, pos, cs =>
    match readValue fuel depth pos cs with
    | (node, none) => ([node], .cut, none)
    | (node, some (pos, cs)) =>
      let (items, tail, rest) := readItems fuel depth false pos cs
      (node :: items, tail, rest)

/-- Reads the fields of an object, up to its brace. -/
def readFields : Nat → Nat → Bool → Nat → List Char → List (Key × Node) × Tail × Rest
  | 0, _, _, _, _ => ([], .cut, none)
  | fuel + 1, depth, first, pos, cs =>
    match skipBlanks pos cs with
    | (pos, []) =>
      let f : Fault := ⟨.endInObject, pos⟩
      ([], .broken f f f, none)
    | (pos, '\x7d' :: cs) => ([], .closed (pos + 1), some (pos + 1, cs))
    | (pos, c :: cs) =>
      if first then
        if c == '"' then readField fuel depth pos cs
        else
          let f : Fault := ⟨.keyNotString, pos + 1⟩
          ([], .broken f f f, none)
      else if c == ',' then
        match skipBlanks (pos + 1) cs with
        | (pos, []) =>
          ([], .broken ⟨.endInValue, pos⟩ ⟨.endInObject, pos⟩ ⟨.noValue, pos⟩, none)
        | (pos, '"' :: cs) => readField fuel depth pos cs
        | (pos, '\x7d' :: _) =>
          ([], .broken ⟨.trailingComma, pos + 1⟩ ⟨.keyNotString, pos + 1⟩ ⟨.noValue, pos⟩, none)
        | (pos, _ :: _) =>
          let f : Fault := ⟨.keyNotString, pos + 1⟩
          ([], .broken f f ⟨.noValue, pos⟩, none)
      else
        let f : Fault := ⟨.noObjectComma, pos + 1⟩
        ([], .broken f f ⟨.noValue, pos⟩, none)

/-- Reads one field of an object, whose opening quote stands at `start`, and those behind it. -/
def readField : Nat → Nat → Nat → List Char → List (Key × Node) × Tail × Rest
  | 0, _, _, _ => ([], .cut, none)
  | fuel + 1, depth, start, cs =>
    let text := (readString (start + 1) cs).map fun r => String.ofList r.1
    match skipString (start + 1) cs with
    | .error f =>
      let strict := match text with
        | .error e => e
        | .ok _ => f
      ([], .broken strict f strict, none)
    | .ok (stop, cs) =>
      let (pos, cs) := skipBlanks stop cs
      let key : Key := ⟨start, text, stop, pos⟩
      match cs with
      | ':' :: cs =>
        match readValue fuel depth (pos + 1) cs with
        | (node, none) => ([(key, node)], .cut, none)
        | (node, some (pos, cs)) =>
          let (fields, tail, rest) := readFields fuel depth false pos cs
          ((key, node) :: fields, tail, rest)
      | [] => ([(key, .bad ⟨.endInObject, pos⟩)], .cut, none)
      | _ :: _ => ([(key, .bad ⟨.noColon, pos + 1⟩)], .cut, none)

end

/-- A whole text: its value, and the fault of what follows the value. -/
structure Document where
  node : Node
  trailing : Except Fault Unit

/-- Reads a whole text. -/
def readDocument (cs : List Char) : Document :=
  match readValue (4 * cs.length + 4) 0 0 cs with
  | (node, none) => ⟨node, .ok ()⟩
  | (node, some (pos, cs)) =>
    match skipBlanks pos cs with
    | (_, []) => ⟨node, .ok ()⟩
    | (pos, _ :: _) => ⟨node, .error ⟨.trailingText, pos + 1⟩⟩

end ContractBuild.Json
