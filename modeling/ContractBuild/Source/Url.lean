import ContractBuild.Text.CharClass

/-!
# Addresses

`Url.read` reads an address with a scheme and puts it in its standard spelling: steps to the parent
are followed, though never above the root, and what may not stand in an address is written as
percent signs with the bytes of its UTF-8 form. Addresses of the web (`Url.webText`) always have a
host and a path, and a backslash is a slash in them.
-/

namespace ContractBuild

open Text

/-- An address in its standard spelling. -/
structure Url where
  scheme : String
  /-- All that follows the colon. -/
  rest : String
  deriving Repr, DecidableEq

namespace Url

/-- The address as it is written. -/
def text (u : Url) : String := u.scheme ++ ":" ++ u.rest

/-! ## Percent signs -/

/-- One hexadecimal digit. -/
def hexChar (n : Nat) : Char := if n < 10 then Char.ofNat (48 + n) else Char.ofNat (55 + n)

/-- A byte behind a percent sign. -/
def percentByte (b : UInt8) : List Char := ['%', hexChar (b.toNat / 16), hexChar (b.toNat % 16)]

/-- A character as percent signs with the bytes of its UTF-8 form. -/
def percentChar (c : Char) : List Char := (String.singleton c).toUTF8.toList.flatMap percentByte

/-- A control character, or one beyond ASCII. -/
def isHidden (c : Char) : Bool := c.toNat < 0x20 || 0x7e < c.toNat

/-- Text with percent signs for hidden characters and for those of a set. -/
def encode (set : String) (cs : List Char) : List Char :=
  cs.flatMap fun c => if isHidden c || set.toList.contains c then percentChar c else [c]

/-- The characters that may not stand in a path. -/
def pathSet : String := " \"#<>?`\x7b\x7d"

/-- The characters that may not stand in a query; on the web there is one more. -/
def querySet (web : Bool) : String := if web then " \"#<>'" else " \"#<>"

/-- The characters that may not stand in a fragment. -/
def fragmentSet : String := " \"<>`"

/-- The characters that may not stand in the name or the password of a user. -/
def userSet : String := " \"#<>?`\x7b\x7d/:;=@[\\]^|"

/-! ## Paths -/

/-- Whether a stretch is a dot, in any spelling. -/
def isDot (s : List Char) : Bool := [".", "%2e", "%2E"].any (·.toList == s)

/-- Whether a stretch is two dots, in any spelling. -/
def isDotDot (s : List Char) : Bool :=
  ["..", ".%2e", ".%2E", "%2e.", "%2E.", "%2e%2e", "%2e%2E", "%2E%2e", "%2E%2E"].any (·.toList == s)

/-- Follows the stretches of a path. Dots at the end leave an empty stretch there. -/
def resolveDots (before : List (List Char)) : List (List Char) → List (List Char)
  | [] => before
  | s :: rest =>
    let isLast := rest.isEmpty
    if isDotDot s then resolveDots (before.dropLast ++ if isLast then [[]] else []) rest
    else if isDot s then resolveDots (before ++ if isLast then [[]] else []) rest
    else resolveDots (before ++ [s]) rest

/-- A slash, which on the web may be a backslash. -/
def isSlash (web : Bool) (c : Char) : Bool := c == '/' || web && c == '\\'

/-- The standard spelling of a path behind its first slash. -/
def pathText (web : Bool) (cs : List Char) : List Char :=
  let stretches := (splitWhere (isSlash web) cs).map (encode pathSet)
  (resolveDots [] stretches).flatMap ('/' :: ·)

/-! ## Hosts -/

/-- Why a text is no address. -/
inductive Fault where
  | noScheme
  | emptyHost
  | badPort
  deriving Repr, DecidableEq

/-- The wording of a fault. -/
def Fault.message : Fault → String
  | noScheme => "RelativeUrlWithoutBase: relative URL without a base"
  | emptyHost => "EmptyHost: empty host"
  | badPort => "InvalidPort: invalid port number"

/-- The schemes of the web, with their usual ports. -/
def usualPorts : List (String × Nat) :=
  [("http", 80), ("https", 443), ("ws", 80), ("wss", 443), ("ftp", 21)]

/-- The name and the password in front of a host. -/
def userText (cs : List Char) : List Char :=
  let (name, rest) := spanOf (· != ':') cs
  let password := rest.drop 1
  if name.isEmpty && password.isEmpty then []
  else encode userSet name ++ (if password.isEmpty then [] else ':' :: encode userSet password) ++
    ['@']

/-- A port with its colon, without zeros in front. The usual one is left out. -/
def portText (usual : Nat) (digits : List Char) : Except Fault (List Char) :=
  let port := digits.foldl (fun n d => 10 * n + (d.toNat - '0'.toNat)) 0
  if !digits.all (·.isDigit) || 65535 < port then .error .badPort
  else .ok (if digits.isEmpty || port == usual then [] else ':' :: Nat.toDigits 10 port)

/-- A host in small letters, with its port. It is neither decoded nor read as numbers. -/
def hostText (usual : Nat) (cs : List Char) : Except Fault (List Char) := do
  -- the colons of a host in brackets are its own
  let (host, port) := match spanOf (fun c => c != ':' && c != ']') cs.reverse with
    | (digits, ':' :: name) => (name.reverse, digits.reverse)
    | _ => (cs, [])
  if host.isEmpty then throw .emptyHost
  return encode "" (host.map Char.toLower) ++ (← portText usual port)

/-- An authority: a user in front of the last at sign, and a host. -/
def authorityText (usual : Nat) (cs : List Char) : Except Fault (List Char) := do
  let (host, user) := spanOf (· != '@') cs.reverse
  return userText (user.drop 1).reverse ++ (← hostText usual host.reverse)

/-! ## Addresses -/

/-- Whether a character can stand in a scheme. -/
def isSchemeChar (c : Char) : Bool := c.isAlphanum || c == '+' || c == '-' || c == '.'

/-- The scheme of an address in small letters, and what follows its colon. -/
def scheme? (cs : List Char) : Option (String × List Char) :=
  match cs, spanOf isSchemeChar cs with
  | c :: _, (name, ':' :: rest) =>
    if c.isAlpha then some (asciiLower (String.ofList name), rest) else none
  | _, _ => none

/-- Query and fragment, each with its mark. -/
def tailText (web : Bool) (cs : List Char) : List Char :=
  match cs with
  | '?' :: rest =>
    let (query, rest) := spanOf (· != '#') rest
    '?' :: encode (querySet web) query ++ fragmentText rest
  | rest => fragmentText rest
where
  /-- The fragment with its mark. -/
  fragmentText : List Char → List Char
    | '#' :: rest => '#' :: encode fragmentSet rest
    | _ => []

/-- Splits at the query or the fragment. -/
def splitTail (cs : List Char) : List Char × List Char := spanOf (fun c => c != '?' && c != '#') cs

/-- What follows the colon of a web address in front of the query: any number of slashes, an
authority, and a path, which is a slash at least. -/
def webText (usual : Nat) (cs : List Char) : Except Fault (List Char) := do
  let (authority, path) := spanOf (!isSlash true ·) (cs.dropWhile (isSlash true))
  return '/' :: '/' :: (← authorityText usual authority) ++ pathText true (path.drop 1)

/-- What follows the colon of any other address: an authority behind two slashes, then a path, or a
text without structure if there is no slash at all. -/
def plainText (cs : List Char) : List Char :=
  match cs with
  | '/' :: '/' :: rest =>
    match spanOf (· != '/') rest with
    | (authority, '/' :: path) => '/' :: '/' :: encode "" authority ++ pathText false path
    | (authority, _) => '/' :: '/' :: encode "" authority
  | '/' :: path => pathText false path
  | plain => encode "" plain

/-- What follows the colon, in its standard spelling. -/
def restText (scheme : String) (cs : List Char) : Except Fault (List Char) := do
  let (main, tail) := splitTail cs
  match usualPorts.lookup scheme with
  | some usual => return (← webText usual main) ++ tailText true tail
  | none => return plainText main ++ tailText false tail

/-- A control character or a space. -/
def isMargin (c : Char) : Bool := c.toNat ≤ 0x20

/-- The text without margins, and without tabs and line breaks anywhere. -/
def cleaned (s : String) : List Char :=
  (dropEndWhile isMargin (s.toList.dropWhile isMargin)).filter fun c =>
    c != '\t' && c != '\n' && c != '\r'

/-- Reads an address. -/
def read (s : String) : Except Fault Url := do
  let some (scheme, rest) := scheme? (cleaned s) | throw .noScheme
  return ⟨scheme, String.ofList (← restText scheme rest)⟩

/-- The address that a text is, if it is one. -/
def parse? (s : String) : Option Url := (read s).toOption

end Url

end ContractBuild
