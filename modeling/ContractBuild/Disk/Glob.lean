import ContractBuild.Disk.Tree

/-!
# Patterns of paths

A `GlobPattern` matches the name of a file: `*` stands for any text, `?` for any character, and
brackets for a choice of characters. The pattern `**` stands for any number of directories.
`Disk.glob` finds the paths that match patterns with slashes between them.

Names are looked at in ascending order. A directory comes before what is in it, and that before the
next name.
-/

namespace ContractBuild

open Text

/-- A character, or all from one to another. -/
inductive CharRange where
  | one (c : Char)
  | upTo (first last : Char)
  deriving Repr, DecidableEq

/-- Whether a character is in a range. -/
def CharRange.has (c : Char) : CharRange → Bool
  | one d => c == d
  | upTo first last => first ≤ c && c ≤ last

/-- A part of a pattern. -/
inductive GlobToken where
  | char (c : Char)
  | anyChar
  | anyText
  /-- Any number of directories. -/
  | anyDirectories
  | within (ranges : List CharRange)
  | except (ranges : List CharRange)
  deriving Repr, DecidableEq

/-- What is wrong with a pattern. -/
inductive GlobFault where
  /-- Three stars or more. -/
  | stars
  /-- Two stars beside something else. -/
  | strayStars
  /-- A bracket without an end. -/
  | openBracket
  deriving Repr, DecidableEq

/-- A fault, and the number of characters before it. -/
structure GlobError where
  position : Nat
  fault : GlobFault
  deriving Repr, DecidableEq

/-- The wording of an error. -/
def GlobError.message (e : GlobError) : String :=
  let what := match e.fault with
    | .stars => "wildcards are either regular `*` or recursive `**`"
    | .strayStars => "recursive wildcards must form a single path component"
    | .openBracket => "invalid range pattern"
  s!"Pattern syntax error near position {e.position}: {what}"

/-- A pattern. -/
abbrev GlobPattern := List GlobToken

namespace GlobPattern

/-! ## Reading -/

/-- The choices between brackets. -/
def ranges : List Char → List CharRange
  | first :: '-' :: last :: rest => .upTo first last :: ranges rest
  | c :: rest => .one c :: ranges rest
  | [] => []

/-- A bracket behind its opening: what is in it, and what follows it. The first character never
closes it. -/
def bracket? : List Char → Option (List Char × List Char)
  | [] => none
  | first :: rest =>
    match spanOf (· != ']') rest with
    | (more, ']' :: rest) => some (first :: more, rest)
    | _ => none

/-- A choice behind its opening bracket, and what follows it. -/
def choice? : List Char → Option (GlobToken × List Char)
  | '!' :: rest => (bracket? rest).map fun (inner, rest) => (.except (ranges inner), rest)
  | rest => (bracket? rest).map fun (inner, rest) => (.within (ranges inner), rest)

/-- Reads a pattern behind `position` characters, the last of which was `before`, in at most `fuel`
steps. -/
def readFrom : Nat → Nat → Option Char → List Char → Except GlobError GlobPattern
  | 0, _, _, _ | _, _, _, [] => .ok []
  | fuel + 1, position, before, c :: rest => do
    match c with
    | '?' => return .anyChar :: (← readFrom fuel (position + 1) (some c) rest)
    | '*' =>
      match rest with
      | '*' :: '*' :: _ => throw ⟨position + 2, .stars⟩
      | '*' :: rest =>
        if before.any (· != '/') then throw ⟨position - 1, .strayStars⟩
        match rest with
        | [] => return [.anyDirectories]
        | '/' :: rest =>
          return .anyDirectories :: (← readFrom fuel (position + 3) (some '/') rest)
        | _ => throw ⟨position + 2, .strayStars⟩
      | _ => return .anyText :: (← readFrom fuel (position + 1) (some c) rest)
    | '[' =>
      match choice? rest with
      | some (token, behind) =>
        return token :: (← readFrom fuel (position + 1 + (rest.length - behind.length)) (some ']')
          behind)
      | none => throw ⟨position, .openBracket⟩
    | _ => return .char c :: (← readFrom fuel (position + 1) (some c) rest)

/-- Reads a pattern. -/
def read (cs : List Char) : Except GlobError GlobPattern := readFrom cs.length 0 none cs

/-! ## Matching -/

/-- Whether a token that stands for one character stands for this one. -/
def fits (c : Char) : GlobToken → Bool
  | .char d => c == d
  | .anyChar => true
  | .within rs => rs.any (·.has c)
  | .except rs => !rs.any (·.has c)
  | .anyText | .anyDirectories => false

/-- Whether a test holds of the text or of what is left of it behind some characters. -/
def anyEnd (test : List Char → Bool) : List Char → Bool
  | [] => test []
  | c :: cs => test (c :: cs) || anyEnd test cs

/-- Whether a pattern matches the whole of a name. -/
def accepts : GlobPattern → List Char → Bool
  | [], cs => cs.isEmpty
  | .anyText :: rest, cs | .anyDirectories :: rest, cs => anyEnd (accepts rest) cs
  | token :: rest, c :: cs => fits c token && accepts rest cs
  | _ :: _, [] => false

/-- The text of a pattern that has only one. -/
def literal? : GlobPattern → Option (List Char)
  | [] => some []
  | .char c :: rest => (literal? rest).map (c :: ·)
  | _ :: _ => none

/-- Whether a pattern stands for any number of directories. -/
def isRecursive (p : GlobPattern) : Bool := p.contains .anyDirectories

end GlobPattern

namespace Disk

open GlobPattern

/-- A path one step further; from the working directory itself a bare name. -/
def further (path : Path) (name : String) : Path :=
  if path.sameSteps ⟨"."⟩ then ⟨name⟩ else path.join ⟨name⟩

/-- What is in a directory, by name. -/
def children (d : Disk) (path : Path) : List (String × Path) :=
  match d.locate path with
  | .ok place => (d.names place).map fun name => (name, further path name)
  | .error _ => []

mutual

/-- The paths below a directory that match patterns, in at most `fuel` steps. -/
def globIn (d : Disk) : Nat → Path → List GlobPattern → List Path
  | 0, _, _ | _, _, [] => []
  | fuel + 1, path, p :: rest =>
    match literal? p with
    | some name =>
      let next := further path (String.ofList name)
      let found := if isDots name then d.isDirectory path else d.hasPath next
      if found then globDone d fuel next rest else []
    | none =>
      if !d.isDirectory path then []
      else
        let dots := if p.head? == some (.char '.') then ["..", "."].filter (accepts p ·.toList)
          else []
        dots.flatMap (fun name => globDone d fuel (path.join ⟨name⟩) rest) ++
          (d.children path).flatMap fun (name, child) => globAt d fuel name child p rest

/-- A path that matched, or the paths below it if there are more patterns. -/
def globDone (d : Disk) : Nat → Path → List GlobPattern → List Path
  | 0, _, _ => []
  | _, path, [] => [path]
  | fuel + 1, path, rest => globIn d fuel path rest

/-- The paths that match from something in a directory on. -/
def globAt (d : Disk) : Nat → String → Path → GlobPattern → List GlobPattern → List Path
  | 0, _, _, _, _ => []
  | fuel + 1, name, path, p, rest =>
    if p.isRecursive then
      let rest := rest.dropWhile (·.isRecursive)
      let own := match rest with
        | [] => if d.isDirectory path then [path] else []
        | q :: rest => if accepts q name.toList then globDone d fuel path rest else []
      let below := if d.isDirectory path then
          (d.children path).flatMap fun (name, child) => globAt d fuel name child p rest
        else []
      own ++ below
    else if accepts p name.toList then globDone d fuel path rest
    else []

end

/-- The stretches between slashes, without an empty one at the end. -/
def globSegments (cs : List Char) : List (List Char) :=
  let all := Path.segments cs
  if all.getLast? == some [] then all.dropLast else all

/-- The paths that match a pattern. -/
def glob (d : Disk) (pattern : String) : Except GlobError (List Path) := do
  let _ ← GlobPattern.read pattern.toList
  let (start, cs) : Path × List Char := match pattern.toList with
    | '/' :: rest => (⟨"/"⟩, rest)
    | cs => (⟨"."⟩, cs)
  let patterns ← (globSegments cs).mapM GlobPattern.read
  -- Each step goes one level down or uses up a pattern.
  return d.globIn (2 * (patterns.length + 1) * (d.entries.size + 2)) start patterns

end Disk

end ContractBuild
