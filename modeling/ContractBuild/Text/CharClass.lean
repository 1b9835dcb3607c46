import ContractBuild.Text.CharTable

/-!
# Character classes

`isSpace`, `isDigit` and `isWord` are the Unicode classes that the directive and rule patterns are
written in. The ASCII part of each class is decided without looking at a table. `trim` and `words`
cut a text at spaces, and `spanOf` takes the longest front in a class (`spanOf_append`).
-/

namespace ContractBuild.Text

/-- Membership of a code point in a list of inclusive ranges. -/
def inRanges (ranges : List (Nat × Nat)) (n : Nat) : Bool :=
  ranges.any fun r => r.1 ≤ n && n ≤ r.2

/-- The `White_Space` property: the ASCII blanks and line breaks (vertical tab and form feed among
them), next line, no-break space and the typographic spaces and separators. -/
def isSpace (c : Char) : Bool :=
  let n := c.toNat
  (9 ≤ n && n ≤ 13) || n == 0x20 || n == 0x85 || n == 0xa0 || n == 0x1680 ||
    (0x2000 ≤ n && n ≤ 0x200a) || n == 0x2028 || n == 0x2029 || n == 0x202f || n == 0x205f ||
    n == 0x3000

/-- A blank inside a line: space or tab. -/
def isBlank (c : Char) : Bool := c == ' ' || c == '\t'

/-- A decimal digit of any script. -/
def isDigit (c : Char) : Bool :=
  if c.toNat < 128 then c.isDigit else inRanges decimalDigits c.toNat

/-- A character that words are made of. -/
def isWord (c : Char) : Bool :=
  if c.toNat < 128 then c.isAlphanum || c == '_' else inRanges wordCharacters c.toNat

/-- A character that may start an identifier: an ASCII letter, underscore or dollar. -/
def isIdentStart (c : Char) : Bool := c.isAlpha || c == '_' || c == '$'

/-- A character that may continue an identifier: a word character or a dollar. -/
def isIdentPart (c : Char) : Bool := isWord c || c == '$'

/-- The value of a hexadecimal digit. -/
def hexDigit? (c : Char) : Option Nat :=
  if '0' ≤ c ∧ c ≤ '9' then some (c.toNat - '0'.toNat)
  else if 'a' ≤ c ∧ c ≤ 'f' then some (c.toNat - 'a'.toNat + 10)
  else if 'A' ≤ c ∧ c ≤ 'F' then some (c.toNat - 'A'.toNat + 10)
  else none

/-- Lower case for the ASCII letters; every other character stays. -/
def asciiLower (s : String) : String := s.map Char.toLower

/-- The text without the spaces at its front. -/
def trimStart (cs : List Char) : List Char := cs.dropWhile isSpace

/-- The text without the characters of a class at its end. -/
def dropEndWhile (p : Char → Bool) (cs : List Char) : List Char :=
  (cs.reverse.dropWhile p).reverse

/-- The text without the spaces at its end. -/
def trimEnd (cs : List Char) : List Char := dropEndWhile isSpace cs

/-- The text without the spaces around it. -/
def trim (cs : List Char) : List Char := trimEnd (trimStart cs)

/-- The text cut at every character of a class; the cuts themselves are dropped. -/
def splitWhere (p : Char → Bool) : List Char → List (List Char)
  | [] => [[]]
  | c :: cs =>
    if p c then [] :: splitWhere p cs
    else match splitWhere p cs with
      | [] => [[c]]
      | w :: ws => (c :: w) :: ws

theorem splitWhere_ne_nil (p : Char → Bool) (cs : List Char) : splitWhere p cs ≠ [] := by
  cases cs with
  | nil => simp [splitWhere]
  | cons c cs =>
    rw [splitWhere]
    split
    · simp
    · split <;> simp

/-- A text is cut at every character of the class. -/
theorem splitWhere_append_cut {p : Char → Bool} {x : Char} (hx : p x = true) (a b : List Char) :
    splitWhere p (a ++ x :: b) = splitWhere p a ++ splitWhere p b := by
  induction a with
  | nil => simp [splitWhere, hx]
  | cons c a ih =>
    rw [List.cons_append, splitWhere, splitWhere, ih]
    split
    · rfl
    · cases hs : splitWhere p a with
      | nil => exact absurd hs (splitWhere_ne_nil p a)
      | cons w ws => rfl

/-- Only the characters of a text say where it is cut. -/
theorem splitWhere_congr {p q : Char → Bool} {cs : List Char} (h : ∀ c ∈ cs, p c = q c) :
    splitWhere p cs = splitWhere q cs := by
  induction cs with
  | nil => rfl
  | cons c cs ih =>
    obtain ⟨hc, hcs⟩ := List.forall_mem_cons.mp h
    rw [splitWhere, splitWhere, hc, ih hcs]

/-- The maximal runs of characters that are not spaces. -/
def words (cs : List Char) : List (List Char) := (splitWhere isSpace cs).filter (! ·.isEmpty)

theorem words_append_space (a b : List Char) : words (a ++ ' ' :: b) = words a ++ words b := by
  rw [words, splitWhere_append_cut rfl, List.filter_append, words, words]

/-- The longest front of the text in a class, and what follows it. -/
def spanOf (p : Char → Bool) (cs : List Char) : List Char × List Char :=
  (cs.takeWhile p, cs.dropWhile p)

theorem spanOf_append (p : Char → Bool) (cs : List Char) :
    (spanOf p cs).1 ++ (spanOf p cs).2 = cs :=
  List.takeWhile_append_dropWhile

end ContractBuild.Text
