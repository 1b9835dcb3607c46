import ContractBuild.Text.CharClass
import ContractBuild.Text.Unprintable

/-!
# Text in quotes

`quoted` writes a text in double quotes so that every character of it can be seen: quotes and
backslashes get a backslash, line breaks and tabs their letters, and any other character that does
not show is written by its number.
-/

namespace ContractBuild.Text

/-- Whether a character shows. Of ASCII only the controls do not. -/
def isPrintable (c : Char) : Bool :=
  if c.toNat < 0x7f then 0x20 ≤ c.toNat else !inRanges unprintable c.toNat

/-- A character as it is written in quotes. -/
def visible (c : Char) : List Char :=
  match c with
  | '"' => ['\\', '"']
  | '\\' => ['\\', '\\']
  | '\n' => ['\\', 'n']
  | '\r' => ['\\', 'r']
  | '\t' => ['\\', 't']
  | '\x00' => ['\\', '0']
  | c =>
    if isPrintable c then [c] else ['\\', 'u', '\x7b'] ++ Nat.toDigits 16 c.toNat ++ ['\x7d']

/-- A text in quotes. -/
def quoted (cs : List Char) : List Char := '"' :: (cs.flatMap visible ++ ['"'])

end ContractBuild.Text
