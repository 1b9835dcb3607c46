import ContractBuild.Text.CharClass

/-!
# Patterns and the pieces they cut a text into

A `Pattern` says what stands at one position of a text. `Pattern.pieces` searches a text from left
to right: where the pattern recognises something, that stretch is a `hit` and the search goes on
behind it; any other character is a `gap`.

Main statement: `Pattern.text_pieces`, the pieces put together again are the text.
-/

namespace ContractBuild.Text

/-- What a pattern recognised: a value, and the number of characters it stands for. A hit stands
for at least one character: a `size` of zero counts as one. -/
structure Hit (α : Type) where
  value : α
  size : Nat

/-- The hit that leaves `rest` of `cs`. -/
def Hit.upTo {α : Type} (value : α) (cs rest : List Char) : Hit α :=
  ⟨value, cs.length - rest.length⟩

/-- A pattern looks at the character before a position, if there is one, and at the text from the
position on. -/
abbrev Pattern (α : Type) := Option Char → List Char → Option (Hit α)

/-- A stretch of a searched text. -/
inductive Piece (α : Type) where
  | gap (c : Char)
  | hit (value : α) (text : List Char)
  deriving Repr, DecidableEq

namespace Piece

variable {α : Type}

/-- The characters of a piece. -/
def text : Piece α → List Char
  | gap c => [c]
  | hit _ t => t

/-- What was recognised in a piece, if anything was. -/
def value? : Piece α → Option α
  | gap _ => none
  | hit v _ => some v

/-- The characters of a piece that is not a hit. -/
def gapText : Piece α → List Char
  | gap c => [c]
  | hit _ _ => []

end Piece

namespace Pattern

variable {α : Type}

/-- Searches a text that follows the character `before`. -/
def pieces (p : Pattern α) (before : Option Char) : List Char → List (Piece α)
  | [] => []
  | c :: cs =>
    match p before (c :: cs) with
    | some h =>
      let more := cs.take (h.size - 1)
      .hit h.value (c :: more) :: pieces p (some (more.getLastD c)) (cs.drop (h.size - 1))
    | none => .gap c :: pieces p (some c) cs
termination_by cs => cs.length
decreasing_by all_goals (simp; try omega)

/-- The pieces of a whole text. -/
def split (p : Pattern α) (cs : List Char) : List (Piece α) := p.pieces none cs

/-- The values of all hits, in order. -/
def values (p : Pattern α) (cs : List Char) : List α := (p.split cs).filterMap Piece.value?

/-- The number of hits. -/
def count (p : Pattern α) (cs : List Char) : Nat := (p.values cs).length

/-- The text without its hits. -/
def erase (p : Pattern α) (cs : List Char) : List Char := (p.split cs).flatMap Piece.gapText

/-- The text with each hit replaced. -/
def replace (p : Pattern α) (f : α → List Char → List Char) (cs : List Char) : List Char :=
  (p.split cs).flatMap fun
    | .gap c => [c]
    | .hit v t => f v t

/-- Positions of the hits among pieces that start at `start`: first character, and one past the
last. -/
def rangesFrom (start : Nat) : List (Piece α) → List (Nat × Nat)
  | [] => []
  | .gap _ :: ps => rangesFrom (start + 1) ps
  | .hit _ t :: ps => (start, start + t.length) :: rangesFrom (start + t.length) ps

/-- Positions of the hits in a text. -/
def ranges (p : Pattern α) (cs : List Char) : List (Nat × Nat) := rangesFrom 0 (p.split cs)

/-- **The pieces of a text, put together again, are the text.** -/
theorem text_pieces (p : Pattern α) (before : Option Char) (cs : List Char) :
    (p.pieces before cs).flatMap Piece.text = cs := by
  fun_induction pieces p before cs with
  | case1 => rfl
  | case2 before c cs h hp more ih =>
    simp only [List.flatMap_cons, Piece.text, ih, more, List.cons_append, List.take_append_drop]
  | case3 before c cs hp ih => simp [Piece.text, ih]

end Pattern

/-! ## Parts that patterns are made of

Each takes the text from a position on and gives what follows the part, or nothing. -/

/-- A fixed text. -/
def literal (s : String) (cs : List Char) : Option (List Char) := s.toList.isPrefixOf? cs

/-- At least one space, and all that follow it. -/
def spaces : List Char → Option (List Char)
  | c :: cs => if isSpace c then some (trimStart cs) else none
  | [] => none

/-- At least one blank, and all that follow it. -/
def blanks : List Char → Option (List Char)
  | c :: cs => if isBlank c then some (cs.dropWhile isBlank) else none
  | [] => none

/-- An identifier. -/
def identifier : List Char → Option (List Char)
  | c :: cs => if isIdentStart c then some (cs.dropWhile isIdentPart) else none
  | [] => none

/-- At least one decimal digit: the digits, and what follows them. -/
def digits (cs : List Char) : Option (List Char × List Char) :=
  match spanOf isDigit cs with
  | ([], _) => none
  | found => some found

/-- A word may start here: the character before, if any, is not part of a word. -/
def wordStart (before : Option Char) : Bool := !before.any isWord

/-- A word ends here: the next character, if any, is not part of a word. -/
def wordEnd (cs : List Char) : Bool := !cs.head?.any isWord

/-- A line starts here. -/
def lineStart (before : Option Char) : Bool := before.all (· == '\n')

/-- The rest of the line, and what follows it; the line break belongs to what follows. -/
def restOfLine (cs : List Char) : List Char × List Char := spanOf (· != '\n') cs

/-- What follows a line break, if one stands here. -/
def skipLineBreak : List Char → List Char
  | '\n' :: cs => cs
  | cs => cs

/-- A whole word that stands at this position. -/
def wholeWord (w : String) : Pattern Unit := fun before cs => do
  guard (wordStart before)
  let rest ← literal w cs
  guard (wordEnd rest)
  return .upTo () cs rest

/-- Whether `part` occurs in `text`. -/
def contains (text part : List Char) : Bool :=
  part.isPrefixOf text || match text with
    | [] => false
    | _ :: rest => contains rest part

end ContractBuild.Text
