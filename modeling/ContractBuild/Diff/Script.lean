/-!
# Edit scripts

A `Script` turns one list of lines into another: stretches of lines that stay, go or come.
`Script.before` and `Script.after` are the two lists it relates. `Script.ofLists` finds a shortest
one by searching for a middle snake from both ends and dividing there.
-/

namespace ContractBuild.Diff

/-- A stretch of an edit script. -/
inductive Stretch where
  | same (lines : List String)
  | removed (lines : List String)
  | added (lines : List String)
  deriving Repr, DecidableEq

/-- Stretches in the order of the lines. -/
abbrev Script := List Stretch

namespace Stretch

/-- The lines of a stretch. -/
def lines : Stretch → List String
  | same l | removed l | added l => l

/-- The lines of a stretch in the list before. -/
def before : Stretch → List String
  | same l | removed l => l
  | added _ => []

/-- The lines of a stretch in the list after. -/
def after : Stretch → List String
  | same l | added l => l
  | removed _ => []

end Stretch

/-- The list a script starts from. -/
def Script.before (s : Script) : List String := s.flatMap Stretch.before

/-- The list a script leads to. -/
def Script.after (s : Script) : List String := s.flatMap Stretch.after

/-- The length of the longest common front. -/
def commonFront : List String → List String → Nat
  | a :: as, b :: bs => if a == b then commonFront as bs + 1 else 0
  | _, _ => 0

/-- The length of the longest common end. -/
def commonEnd (a b : List String) : Nat := commonFront a.reverse b.reverse

/-! ## The middle snake -/

/-- For each diagonal from `-offset` on, how far a search has come on it. -/
structure Reach where
  offset : Int
  far : Array Nat

namespace Reach

/-- Nothing reached yet. -/
def start (size : Nat) : Reach := ⟨size + 1, Array.replicate (2 * size + 3) 0⟩

/-- How far the search has come on a diagonal. -/
def get (r : Reach) (k : Int) : Nat := r.far.getD (k + r.offset).toNat 0

/-- The search has come to `x` on a diagonal. -/
def set (r : Reach) (k : Int) (x : Nat) : Reach :=
  { r with far := r.far.setIfInBounds (k + r.offset).toNat x }

/-- Where the `d`-th round of a search enters a diagonal: from the neighbour that is further. -/
def entry (r : Reach) (d : Nat) (k : Int) : Nat :=
  if k == -d || (k != d && r.get (k - 1) < r.get (k + 1)) then r.get (k + 1)
  else r.get (k - 1) + 1

end Reach

/-- How many lines of `a` from `x` on equal those of `b` from `y` on. -/
def slide (a b : Array String) (x y : Nat) : Nat :=
  commonFront (a.extract x a.size).toList (b.extract y b.size).toList

/-- How many lines of `a` before the last `x` equal those of `b` before the last `y`. -/
def slideBack (a b : Array String) (x y : Nat) : Nat :=
  commonEnd (a.extract 0 (a.size - x)).toList (b.extract 0 (b.size - y)).toList

/-- The diagonals of the `d`-th round, from `d` down to `-d`. -/
def diagonals (d : Nat) : List Int :=
  (List.range (d + 1)).map fun (i : Nat) => (d : Int) - 2 * (i : Int)

/-- One round of the forward search: the point where it meets the backward one, or its reach. -/
def forwardRound (a b : Array String) (d : Nat) (backward : Reach) :
    List Int → Reach → Except (Nat × Nat) Reach
  | [], forward => .ok forward
  | k :: ks, forward =>
    let delta : Int := (a.size : Int) - b.size
    let x := forward.entry d k
    let y := ((x : Int) - k).toNat
    let reached := if x ≤ a.size && y ≤ b.size then x + slide a b x y else x
    let forward := forward.set k reached
    if delta % 2 != 0 && (k - delta).natAbs + 1 ≤ d &&
        a.size ≤ reached + backward.get (-(k - delta)) then .error (x, y)
    else forwardRound a b d backward ks forward

/-- One round of the backward search: the point where it meets the forward one, or its reach. -/
def backwardRound (a b : Array String) (d : Nat) (forward : Reach) :
    List Int → Reach → Except (Nat × Nat) Reach
  | [], backward => .ok backward
  | k :: ks, backward =>
    let delta : Int := (a.size : Int) - b.size
    let x := backward.entry d k
    let y := ((x : Int) - k).toNat
    let more := if x < a.size && y < b.size then slideBack a b x y else 0
    let reached := x + more
    let backward := backward.set k reached
    if delta % 2 == 0 && (k - delta).natAbs ≤ d &&
        a.size ≤ reached + forward.get (-(k - delta)) then
      .error (a.size - reached, b.size - (y + more))
    else backwardRound a b d forward ks backward

/-- Searches from both ends, round by round, for a point on a shortest path. -/
def search (a b : Array String) : Nat → Nat → Reach → Reach → Option (Nat × Nat)
  | 0, _, _, _ => none
  | rounds + 1, d, forward, backward =>
    match forwardRound a b d backward (diagonals d) forward with
    | .error point => some point
    | .ok forward =>
      match backwardRound a b d forward (diagonals d) backward with
      | .error point => some point
      | .ok backward => search a b rounds (d + 1) forward backward

/-- A point on a shortest path between two lists that are not empty. -/
def middle? (a b : List String) : Option (Nat × Nat) :=
  let size := a.length + b.length
  search a.toArray b.toArray (size + 1) 0 (.start size) (.start size)

/-- A stretch, unless it is empty. -/
def stretch (kind : List String → Stretch) (lines : List String) : Script :=
  if lines.isEmpty then [] else [kind lines]

/-- A shortest script from one list to another. The bound is on the depth of the division; each
division leaves fewer lines on either side of it. -/
def divide : Nat → List String → List String → Script
  | 0, a, b => stretch .removed a ++ stretch .added b
  | bound + 1, a, b =>
    let front := commonFront a b
    let head := stretch .same (a.take front)
    let (a, b) := (a.drop front, b.drop front)
    let back := commonEnd a b
    let tail := stretch .same (a.drop (a.length - back))
    let (a, b) := (a.take (a.length - back), b.take (b.length - back))
    let body :=
      if a.isEmpty then stretch .added b
      else if b.isEmpty then stretch .removed a
      else
        match middle? a b with
        | some (x, y) =>
          divide bound (a.take x) (b.take y) ++ divide bound (a.drop x) (b.drop y)
        | none => stretch .removed a ++ stretch .added b
    head ++ body ++ tail

/-- A shortest script from one list to another. -/
def Script.ofLists (a b : List String) : Script := divide (a.length + b.length + 1) a b

end ContractBuild.Diff
