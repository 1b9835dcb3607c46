import ContractBuild.Json.Form
import ContractBuild.Text.Utf8

/-!
# JSON in bytes

Bytes that are no text can still be JSON as far as strings are skipped. A byte that is part of no
character is taken for a letter, which is wrong wherever the byte would be, but for strings: one
that is read must not hold such a byte.
-/

namespace ContractBuild.Json

open Text

/-- Bytes as text, with a letter for each byte that is part of no character. -/
def standIn (bytes : ByteArray) : List Char := (charsOf bytes.toList).map (·.getD 'x')

/-- The places of what is no character. -/
def strayPlaces (pos : Nat) : List (Option Char) → List Nat
  | [] => []
  | none :: rest => pos :: strayPlaces (pos + 1) rest
  | some c :: rest => strayPlaces (pos + c.utf8Size) rest

/-- Whether one of some places lies between two others. -/
def anyBetween (places : List Nat) (start stop : Nat) : Bool :=
  places.any fun p => start < p && p < stop

/-- A key that holds none of some places. -/
def Key.spoil (places : List Nat) (k : Key) : Key :=
  match k.text with
  | .ok _ =>
    if anyBetween places k.start k.stop then { k with text := .error ⟨.notUnicode, k.stop⟩ } else k
  | .error _ => k

namespace Node

mutual

/-- The node in which no string that is read holds one of some places. -/
def spoil (places : List Nat) : Node → Node
  | scalar start (.ok (.str s)) (.ok stop) =>
    if anyBetween places start stop then scalar start (.error ⟨.notUnicode, stop⟩) (.ok stop)
    else scalar start (.ok (.str s)) (.ok stop)
  | scalar start strict lenient => scalar start strict lenient
  | arr start deep items tail => arr start deep (spoilItems places items) tail
  | obj start deep fields tail => obj start deep (spoilFields places fields) tail
  | bad f => bad f

/-- The same for the items of a list. -/
def spoilItems (places : List Nat) : List Node → List Node
  | [] => []
  | n :: rest => spoil places n :: spoilItems places rest

/-- The same for the fields of an object. -/
def spoilFields (places : List Nat) : List (Key × Node) → List (Key × Node)
  | [] => []
  | (k, n) :: rest => (k.spoil places, spoil places n) :: spoilFields places rest

end

end Node

/-- Reads bytes as a value of a type. -/
def readBytes (α : Type) [JsonForm α] (bytes : ByteArray) : Except Fault α :=
  match String.fromUTF8? bytes with
  | some text => read α text
  | none => do
    let document := readDocument (standIn bytes)
    let v ← shapeOf α (document.node.spoil (strayPlaces 0 (charsOf bytes.toList)))
    document.trailing
    return v

end ContractBuild.Json
