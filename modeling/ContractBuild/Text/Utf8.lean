/-!
# Bytes as text

`Text.lossy` reads bytes as UTF-8 and puts the replacement character for what is not: one for each
longest piece that could have started a character. `Text.charsOf` tells the bytes that are part of
no character apart from the characters.
-/

namespace ContractBuild.Text

/-- A text of ASCII characters has as many bytes as characters. -/
theorem utf8ByteSize_ofList {cs : List Char} (h : ∀ c ∈ cs, c.toNat < 128) :
    (String.ofList cs).utf8ByteSize = cs.length := by
  induction cs with
  | nil => rfl
  | cons c cs ih =>
    obtain ⟨hc, hcs⟩ := List.forall_mem_cons.mp h
    have hle : c.val ≤ 127 := UInt32.le_iff_toNat_le.mpr (Nat.le_of_lt_succ hc)
    have hsize : c.utf8Size = 1 := if_pos hle
    rw [String.ofList_cons, String.utf8ByteSize_append, String.utf8ByteSize_singleton, hsize,
      ih hcs, List.length_cons, Nat.add_comm]

/-- A character of which some bytes were read: its bits so far, how many bytes it still needs, and
the range of the next one. -/
structure PartialChar where
  bits : Nat
  left : Nat
  least : Nat := 0x80
  most : Nat := 0xbf
  deriving Repr, DecidableEq

/-- The replacement character. -/
def replacement : Char := '�'

/-- What a first byte says: a whole character, the start of one, or nothing. -/
def firstByte (b : Nat) : Option (Char ⊕ PartialChar) :=
  if b < 0x80 then some (.inl (Char.ofNat b))
  else if b < 0xc2 then none
  else if b < 0xe0 then some (.inr { bits := b - 0xc0, left := 1 })
  else if b == 0xe0 then some (.inr { bits := 0, left := 2, least := 0xa0 })
  else if b == 0xed then some (.inr { bits := 0xd, left := 2, most := 0x9f })
  else if b < 0xf0 then some (.inr { bits := b - 0xe0, left := 2 })
  else if b == 0xf0 then some (.inr { bits := 0, left := 3, least := 0x90 })
  else if b < 0xf4 then some (.inr { bits := b - 0xf0, left := 3 })
  else if b == 0xf4 then some (.inr { bits := 4, left := 3, most := 0x8f })
  else none

/-- Reads bytes behind the start of a character, if there is one. -/
def lossyFrom (start : Option PartialChar) : List UInt8 → List Char
  | [] => if start.isSome then [replacement] else []
  | b :: rest =>
    let fits := start.all fun p => p.least ≤ b.toNat && b.toNat ≤ p.most
    match start, fits with
    | some p, true =>
      let bits := p.bits * 64 + (b.toNat - 0x80)
      if p.left == 1 then Char.ofNat bits :: lossyFrom none rest
      else lossyFrom (some { bits, left := p.left - 1 }) rest
    | _, _ =>
      let before := if fits then [] else [replacement]
      match firstByte b.toNat with
      | some (.inl c) => before ++ c :: lossyFrom none rest
      | some (.inr p) => before ++ lossyFrom (some p) rest
      | none => before ++ replacement :: lossyFrom none rest

/-- Bytes as text, with replacement characters for what is not UTF-8. -/
def lossy (bytes : ByteArray) : String := String.ofList (lossyFrom none bytes.toList)

/-- The character at the front of some bytes, and the number of its bytes. -/
def firstChar? (bytes : List UInt8) : Option (Char × Nat) :=
  [1, 2, 3, 4].findSome? fun n =>
    if n ≤ bytes.length then
      (String.fromUTF8? ⟨(bytes.take n).toArray⟩).bind fun s => s.toList.head?.map fun c => (c, n)
    else none

/-- The characters of some bytes; a byte that is part of none counts as nothing. -/
def charsOf : List UInt8 → List (Option Char)
  | [] => []
  | b :: rest =>
    match firstChar? (b :: rest) with
    | some (c, n) => some c :: charsOf (rest.drop (n - 1))
    | none => none :: charsOf rest
termination_by bytes => bytes.length
decreasing_by all_goals (simp; try omega)

end ContractBuild.Text
