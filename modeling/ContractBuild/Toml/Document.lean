import ContractBuild.Toml.Scalar

/-!
# TOML documents

`Toml.parse?` reads a document into its root table. A document with anything wrong in it is none:
what is wrong is not told.
-/

namespace ContractBuild.Toml

open Text

/-! ## Blanks, comments and keys -/

/-- The text behind blanks. -/
def skipBlanks (cs : List Char) : List Char := cs.dropWhile isBlank

/-- What follows a comment, if there is one. A control character is none of a comment. -/
def skipComment : List Char → Option (List Char)
  | '#' :: cs =>
    let (comment, rest) := spanOf (· != '\n') cs
    let comment := if rest.isEmpty then comment else
      if comment.getLast? == some '\r' then comment.dropLast else comment
    if comment.any isForbidden then none else some rest
  | cs => some cs

/-- What follows the end of a line: blanks, a comment, and a line break or the end. -/
def lineEnd? (cs : List Char) : Option (List Char) := do
  let cs ← skipComment (skipBlanks cs)
  if cs.isEmpty then return cs else lineBreak? cs

/-- What follows blanks, comments and line breaks, in at most `fuel` lines. -/
def skipLines : Nat → List Char → Option (List Char)
  | 0, cs => some cs
  | fuel + 1, cs => do
    let cs ← skipComment (skipBlanks cs)
    match lineBreak? cs with
    | some cs => skipLines fuel cs
    | none => return cs

/-- What follows all blanks, comments and line breaks. -/
def skipAll (cs : List Char) : Option (List Char) := skipLines cs.length cs

/-- A character of a key without quotes. -/
def isKeyChar (c : Char) : Bool := c.isAlphanum || c == '_' || c == '-'

/-- One part of a key. -/
def keyPart : List Char → Option (Taken String)
  | '"' :: cs => (basicString (cs.length + 1) cs).map fun (k, rest) => (String.ofList k, rest)
  | '\'' :: cs => (literalString cs).map fun (k, rest) => (String.ofList k, rest)
  | cs =>
    match spanOf isKeyChar cs with
    | ([], _) => none
    | (k, rest) => some (String.ofList k, rest)

/-- A key: parts with dots between them, at most `fuel`. The last part comes apart from those before
it; blanks behind the key are skipped. -/
def dottedKey (before : List String) : Nat → List Char → Option (Taken (List String × String))
  | 0, _ => none
  | fuel + 1, cs => do
    let (part, cs) ← keyPart (skipBlanks cs)
    match skipBlanks cs with
    | '.' :: cs => dottedKey (before ++ [part]) fuel cs
    | cs => return ((before, part), cs)

/-- How many parts a key may have. -/
def keyLimit : Nat := 80

/-- A whole key. -/
def key (cs : List Char) : Option (Taken (List String × String)) := dottedKey [] keyLimit cs

/-! ## Values -/

/-- How deep lists and braces may be nested. -/
def depthLimit : Nat := 80

mutual

/-- A value, inside `depth` lists and braces. -/
def value : Nat → Nat → List Char → Option (Taken Toml)
  | 0, _, _ => none
  | fuel + 1, depth, cs =>
    match cs with
    | '[' :: cs => do
      guard (depth < depthLimit)
      let (items, rest) ← listItems fuel (depth + 1) cs
      return (.arr items, rest)
    | '\x7b' :: cs => do
      guard (depth < depthLimit)
      let (braces, rest) ← braceFields fuel (depth + 1) (.table .header []) cs
      match braces with
      | .table _ fields => return (.table .braces fields, rest)
      | _ => none
    | '"' :: _ | '\'' :: _ => do
      let (text, rest) ← string cs
      return (.str (String.ofList text), rest)
    | _ => do
      let (text, rest) := bareText cs
      return (← bareValue? text, rest)

/-- The items of a list up to its bracket. A comma may follow the last one. -/
def listItems : Nat → Nat → List Char → Option (Taken (List Toml))
  | 0, _, _ => none
  | fuel + 1, depth, cs => do
    match ← skipAll cs with
    | ']' :: cs => return ([], cs)
    | cs =>
      let (item, cs) ← value fuel depth cs
      match ← skipAll cs with
      | ',' :: cs =>
        let (items, rest) ← listItems fuel depth cs
        return (item :: items, rest)
      | ']' :: cs => return ([item], cs)
      | _ => none

/-- The fields in braces up to the closing one. A comma may follow the last one, and a field may be
broken into lines around its sign. -/
def braceFields : Nat → Nat → Toml → List Char → Option (Taken Toml)
  | 0, _, _, _ => none
  | fuel + 1, depth, before, cs => do
    match ← skipAll cs with
    | '\x7d' :: cs => return (before, cs)
    | cs =>
      let ((path, name), cs) ← key cs
      let (v, cs) ← value fuel depth (← skipAll (← literal "=" (← skipAll cs)))
      let fields ← addField path name v before
      match ← skipAll cs with
      | ',' :: cs => braceFields fuel depth fields cs
      | '\x7d' :: cs => return (fields, cs)
      | _ => none

end

/-! ## Documents -/

/-- What was read of a document: the root table, and the header that is open. -/
structure Progress where
  root : Toml := .table .header []
  header : List String := []

/-- A header in brackets behind the opening ones: the path and the name of the table. -/
def header (close : String) (cs : List Char) : Option (Taken (List String × String)) := do
  let (name, cs) ← key cs
  return (name, ← lineEnd? (← literal close cs))

/-- Reads one line that is not empty. -/
def line (p : Progress) : List Char → Option (Taken Progress)
  | '[' :: '[' :: cs => do
    let ((path, name), rest) ← header "]]" cs
    return (⟨← openListed path name p.root, path ++ [name]⟩, rest)
  | '[' :: cs => do
    let ((path, name), rest) ← header "]" cs
    return (⟨← openTable path name p.root, path ++ [name]⟩, rest)
  | cs => do
    let ((path, name), cs) ← key cs
    let (v, cs) ← value (2 * cs.length + 2) 0 (skipBlanks (← literal "=" cs))
    return (⟨← addUnder p.header path name v p.root, p.header⟩, ← lineEnd? cs)

/-- Reads lines, at most `fuel` of them. -/
def lines : Nat → Progress → List Char → Option Toml
  | 0, _, _ => none
  | fuel + 1, p, cs => do
    match ← skipAll cs with
    | [] => return p.root
    | cs =>
      let (p, rest) ← line p cs
      lines fuel p rest

/-- Reads a document. A byte order mark in front is skipped. -/
def parse? (text : String) : Option Toml :=
  let cs := match text.toList with
    | '﻿' :: cs => cs
    | cs => cs
  lines (cs.length + 1) {} cs

end ContractBuild.Toml
