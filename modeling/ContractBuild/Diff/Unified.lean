import ContractBuild.Diff.Compaction

/-!
# Unified diffs

A diff is written as hunks: edits that lie close together, with up to three lines of context around
and between them. A line keeps its line break, so that a last line without one differs from the
same line with one.
-/

namespace ContractBuild.Diff

/-- The lines of a text, each with its line break. -/
def linesOf (cs : List Char) : List (List Char) :=
  match cs with
  | [] => []
  | c :: rest =>
    if c == '\n' then [c] :: linesOf rest
    else match linesOf rest with
      | [] => [[c]]
      | l :: ls => (c :: l) :: ls

/-- An edit: lines of the old text from `oldStart` on give way to lines of the new text from
`newStart` on. -/
structure Edit where
  oldStart : Nat
  removed : List String
  newStart : Nat
  added : List String

namespace Edit

/-- One past the last line of the old text. -/
def oldEnd (e : Edit) : Nat := e.oldStart + e.removed.length

/-- One past the last line of the new text. -/
def newEnd (e : Edit) : Nat := e.newStart + e.added.length

end Edit

/-- The edits of a script. `current` is the edit that is not finished yet, and `old` and `new` are
the numbers of lines before the rest of the script. -/
def editsFrom (old new : Nat) (current : Option Edit) : Script → List Edit
  | [] => current.toList
  | .same l :: rest => current.toList ++ editsFrom (old + l.length) (new + l.length) none rest
  | .removed l :: rest =>
    let e := current.getD ⟨old, [], new, []⟩
    editsFrom (old + l.length) new (some { e with removed := e.removed ++ l }) rest
  | .added l :: rest =>
    let e := current.getD ⟨old, [], new, []⟩
    editsFrom old (new + l.length) (some { e with added := e.added ++ l }) rest

/-- The edits of a script. -/
def Script.edits (s : Script) : List Edit := editsFrom 0 0 none s

/-- The number of lines of context. -/
def contextLines : Nat := 3

/-- A line of a hunk. -/
inductive HunkLine where
  | context (line : String)
  | removed (line : String)
  | added (line : String)

/-- A hunk: where it lies in both texts, and its lines. -/
structure Hunk where
  oldStart : Nat
  oldEnd : Nat
  newStart : Nat
  newEnd : Nat
  lines : List HunkLine

/-- The number of lines of context behind an edit. -/
def contextAfter (oldSize newSize : Nat) (e : Edit) : Nat :=
  min contextLines (min (oldSize - e.oldEnd) (newSize - e.newEnd))

/-- The lines of an edit: those that go before those that come. -/
def Edit.lines (e : Edit) : List HunkLine := e.removed.map .removed ++ e.added.map .added

/-- Lines of the new text as context. -/
def contextOf (new : List String) (start stop : Nat) : List HunkLine :=
  ((new.drop start).take (stop - start)).map .context

/-- Extends a hunk that ends with the edit `last` by the edits that lie close behind it. -/
def growHunk (oldSize : Nat) (new : List String) (h : Hunk) (last : Edit) :
    List Edit → Hunk × Edit × List Edit
  | [] => (h, last, [])
  | next :: rest =>
    if min next.oldStart (oldSize - 1) - contextLines < h.oldEnd then
      let after := contextAfter oldSize new.length next
      let between := min (next.oldStart - last.oldEnd) (next.newStart - last.newEnd)
      growHunk oldSize new
        { h with
          oldEnd := next.oldEnd + after
          newEnd := next.newEnd + after
          lines := h.lines ++ contextOf new last.newEnd (last.newEnd + between) ++ next.lines }
        next rest
    else (h, last, next :: rest)

/-- The hunks of some edits, of which there are at most `count`. -/
def hunks (oldSize : Nat) (new : List String) : Nat → List Edit → List Hunk
  | 0, _ => []
  | _, [] => []
  | count + 1, e :: rest =>
    let after := contextAfter oldSize new.length e
    let newStart := e.newStart - contextLines
    let h : Hunk :=
      { oldStart := e.oldStart - contextLines
        oldEnd := e.oldEnd + after
        newStart
        newEnd := e.newEnd + after
        lines := contextOf new newStart e.newStart ++ e.lines }
    let (h, last, rest) := growHunk oldSize new h e rest
    { h with lines := h.lines ++ contextOf new last.newEnd h.newEnd } ::
      hunks oldSize new count rest

/-- Where a hunk lies in a text. -/
def rangeText (start stop : Nat) : String :=
  let size := stop - start
  let first := if size == 0 then start else start + 1
  if size == 1 then toString first else s!"{first},{size}"

/-- A line behind its mark. -/
def markedLine (mark : String) (line : String) : String :=
  mark ++ line ++ if line.endsWith "\n" then "" else "\n\\ No newline at end of file\n"

/-- The text of a line of a hunk. A context line without anything on it has no mark. -/
def HunkLine.text : HunkLine → String
  | context line => if line == "\n" then line else markedLine " " line
  | removed line => markedLine "-" line
  | added line => markedLine "+" line

/-- The text of a hunk. -/
def Hunk.text (h : Hunk) : String :=
  s!"@@ -{rangeText h.oldStart h.oldEnd} +{rangeText h.newStart h.newEnd} @@\n" ++
    String.join (h.lines.map (·.text))

/-- The unified diff from one text to another; nothing if they are equal. -/
def unified (before after : String) : String :=
  if before == after then ""
  else
    let old := (linesOf before.toList).map String.ofList
    let new := (linesOf after.toList).map String.ofList
    let edits := (Script.ofLists old new).compact.edits
    "--- original\n+++ modified\n" ++
      String.join ((hunks old.length new edits.length edits).map (·.text))

end ContractBuild.Diff
