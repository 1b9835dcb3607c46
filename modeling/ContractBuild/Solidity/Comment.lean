import ContractBuild.Text.Pattern

/-!
# Comments and string literals

A source text is scanned from left to right for comments and string literals together, so that
slashes inside a literal open no comment and quotes inside a comment open no literal.
`commentMask` marks the characters that stand in comments, and `inCode` takes back the hits of a
pattern that start at a marked character.
-/

namespace ContractBuild.Solidity

open Text

/-- What is scanned as one unit. -/
inductive Lexeme where
  | comment
  | literal
  deriving Repr, DecidableEq

/-- The rest of a string literal that was opened by `quote`, if the literal is closed on its line. A
backslash takes the next character of the line with it. -/
def literalEnd (quote : Char) : List Char → Option (List Char)
  | [] => none
  | '\\' :: c :: rest => if c == '\n' then none else literalEnd quote rest
  | c :: rest =>
    if c == quote then some rest
    else if c == '\n' || c == '\\' then none
    else literalEnd quote rest

/-- What follows the end of a block comment; a comment that is never closed takes all. -/
def blockEnd : List Char → List Char
  | [] => []
  | '*' :: '/' :: rest => rest
  | _ :: rest => blockEnd rest

/-- A comment or a string literal. -/
def commentOrLiteral : Pattern Lexeme := fun _ cs =>
  match cs with
  | '"' :: rest => (literalEnd '"' rest).map (.upTo .literal cs)
  | '\'' :: rest => (literalEnd '\'' rest).map (.upTo .literal cs)
  | '/' :: '/' :: rest => some (.upTo .comment cs (restOfLine rest).2)
  | '/' :: '*' :: rest => some (.upTo .comment cs (blockEnd rest))
  | _ => none

/-- For each character of a text, whether it stands in a comment. -/
def commentMask (cs : List Char) : List Bool :=
  (commentOrLiteral.split cs).flatMap fun
    | .hit .comment t => t.map fun _ => true
    | piece => piece.text.map fun _ => false

/-- The string literals of a text, quotes included, in order. -/
def literals (cs : List Char) : List (List Char) :=
  (commentOrLiteral.split cs).filterMap fun
    | .hit .literal t => some t
    | _ => none

/-- The comments of a text, in order. -/
def comments (cs : List Char) : List (List Char) :=
  (commentOrLiteral.split cs).filterMap fun
    | .hit .comment t => some t
    | _ => none

/-- The pieces with every hit that starts at a marked character turned back into gaps. -/
def unmarked {α : Type} : List Bool → List (Piece α) → List (Piece α)
  | _, [] => []
  | mask, .gap c :: ps => .gap c :: unmarked mask.tail ps
  | mask, .hit v t :: ps =>
    (if mask.headD false then t.map .gap else [.hit v t]) ++ unmarked (mask.drop t.length) ps

/-- The pieces of a text in which only hits that start outside comments count. A match inside a
comment still takes its characters from later matches. -/
def inCode {α : Type} (p : Pattern α) (cs : List Char) : List (Piece α) :=
  unmarked (commentMask cs) (p.split cs)

/-- The values a pattern finds outside comments. -/
def valuesInCode {α : Type} (p : Pattern α) (cs : List Char) : List α :=
  (inCode p cs).filterMap Piece.value?

/-- The text without what a pattern finds outside comments. -/
def eraseInCode {α : Type} (p : Pattern α) (cs : List Char) : List Char :=
  (inCode p cs).flatMap Piece.gapText

end ContractBuild.Solidity
