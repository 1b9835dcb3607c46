import ContractBuild.Diff.Script

/-!
# Gathering edits

Lines that go or come next to lines like them can be shifted: the same edit is then written at
another place. Every edit is shifted up as far as it goes and then down, and edits of one kind that
meet are joined, so that a script has few and late edits.
-/

namespace ContractBuild.Diff

/-- A place in a script: the stretches before it, nearest first, the stretch there, and those behind
it. -/
structure Place where
  above : List Stretch
  here : Stretch
  below : List Stretch

/-- A stretch of the same kind with other lines. -/
def Stretch.withLines : Stretch → List String → Stretch
  | .same _, l => .same l
  | .removed _, l => .removed l
  | .added _, l => .added l

/-- Whether two stretches are of one kind. -/
def Stretch.alike : Stretch → Stretch → Bool
  | .same _, .same _ | .removed _, .removed _ | .added _, .added _ => true
  | _, _ => false

/-- Puts lines that stay in front of stretches. -/
def prependSame (lines : List String) : List Stretch → List Stretch
  | .same l :: rest => .same (lines ++ l) :: rest
  | rest => .same lines :: rest

/-- Puts lines that stay behind stretches, of which the nearest comes first. -/
def appendSame (lines : List String) : List Stretch → List Stretch
  | .same l :: rest => .same (l ++ lines) :: rest
  | rest => .same lines :: rest

/-- Shifts the edit at a place up as far as it goes. -/
def shiftUp : Nat → Place → Place
  | 0, p => p
  | bound + 1, p =>
    match p.above with
    | [] => p
    | .same l :: rest =>
      let own := p.here.lines
      let n := commonEnd own l
      let kept := l.take (l.length - n)
      if n != 0 then
        let moved := own.drop (own.length - n)
        shiftUp bound
          { above := if kept.isEmpty then rest else .same kept :: rest
            here := p.here.withLines (moved ++ own.take (own.length - n))
            below := prependSame moved p.below }
      else if l.isEmpty then shiftUp bound { p with above := rest }
      else p
    | other :: rest =>
      if other.alike p.here then
        shiftUp bound
          { p with above := rest, here := p.here.withLines (other.lines ++ p.here.lines) }
      else shiftUp bound { p with above := rest, below := other :: p.below }

/-- Shifts the edit at a place down as far as it goes. -/
def shiftDown : Nat → Place → Place
  | 0, p => p
  | bound + 1, p =>
    match p.below with
    | [] => p
    | .same l :: rest =>
      let own := p.here.lines
      let n := commonFront own l
      let kept := l.drop n
      if n != 0 then
        let moved := own.take n
        shiftDown bound
          { above := appendSame moved p.above
            here := p.here.withLines (own.drop n ++ moved)
            below := if kept.isEmpty then rest else .same kept :: rest }
      else if l.isEmpty then shiftDown bound { p with below := rest }
      else p
    | other :: rest =>
      if other.alike p.here then
        shiftDown bound
          { p with here := p.here.withLines (p.here.lines ++ other.lines), below := rest }
      else shiftDown bound { p with above := other :: p.above, below := rest }

/-- The number of stretches and lines: more than an edit can be shifted. -/
def weight (stretches : List Stretch) : Nat :=
  stretches.foldl (fun n s => n + s.lines.length + 1) 1

/-- Shifts an edit up and then down. -/
def settle (p : Place) : Place :=
  let p := shiftUp (weight p.above) p
  shiftDown (weight p.below) p

/-- Settles every edit that `chosen` tells, front to back. -/
def settleAll (chosen : Stretch → Bool) : Nat → List Stretch → List Stretch → Script
  | 0, above, below => above.reverse ++ below
  | _, above, [] => above.reverse
  | bound + 1, above, s :: below =>
    if chosen s then
      let p := settle ⟨above, s, below⟩
      settleAll chosen bound (p.here :: p.above) p.below
    else settleAll chosen bound (s :: above) below

/-- Whether a stretch is of lines that go. -/
def Stretch.isRemoved : Stretch → Bool
  | .removed _ => true
  | _ => false

/-- Whether a stretch is of lines that come. -/
def Stretch.isAdded : Stretch → Bool
  | .added _ => true
  | _ => false

/-- The script with all edits gathered: first the lines that go, then those that come. -/
def Script.compact (s : Script) : Script :=
  let bound := weight s * weight s
  settleAll Stretch.isAdded bound [] (settleAll Stretch.isRemoved bound [] s)

end ContractBuild.Diff
