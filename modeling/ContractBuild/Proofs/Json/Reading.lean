import ContractBuild.Json.Form
import Mathlib.Tactic.SplitIfs

/-!
# Reading what was written

The text of a value is read back as a node that says the value (`Json.SaidBy`), in either layout and
whatever follows it, as long as that does not go on with a number (`Json.Parted`).

- **Strings** (`readString_escaped`, `skipString_escaped`): every character is read back from its
  escape, by a reader and by a skipper.
- **Numbers** (`readNumber_decimal`): an integer of the 64-bit ranges is read back from its digits.
- **Values** (`readValue_write`): lists and objects, as deep as a reader follows them (`Json.Fits`).
- **Whole texts** (`decode_text`): a shape is looked for in a node that says the value.
-/

namespace ContractBuild.Json

/-! ## Blanks and what parts values -/

/-- Behind blanks reading goes on at the first character that is none. -/
theorem skipBlanks_append {blanks : List Char} (hblanks : ∀ c ∈ blanks, isJsonBlank c = true)
    {c : Char} (hc : isJsonBlank c = false) (pos : Nat) (cs : List Char) :
    skipBlanks pos (blanks ++ c :: cs) = (pos + blanks.length, c :: cs) := by
  induction blanks generalizing pos with
  | nil => simp [skipBlanks, hc]
  | cons b blanks ih =>
    have hb : isJsonBlank b = true := hblanks b (by simp)
    simp only [List.cons_append, skipBlanks, hb, if_true, List.length_cons]
    rw [ih (fun x hx => hblanks x (by simp [hx]))]
    congr 1
    omega

theorem skipBlanks_cons {c : Char} (hc : isJsonBlank c = false) (pos : Nat) (cs : List Char) :
    skipBlanks pos (c :: cs) = (pos, c :: cs) :=
  skipBlanks_append (List.forall_mem_nil _) hc pos cs

theorem isJsonBlank_of_mem_lineBreak {l : Layout} {depth : Nat} {c : Char}
    (h : c ∈ l.lineBreak depth) : isJsonBlank c = true := by
  cases l with
  | compact => simp [Layout.lineBreak] at h
  | indented =>
    simp only [Layout.lineBreak, List.mem_cons, List.mem_replicate] at h
    rcases h with rfl | ⟨-, rfl⟩ <;> rfl

/-- Behind a line break reading goes on at the first character that is no blank. -/
theorem skipBlanks_lineBreak (l : Layout) (depth : Nat) {c : Char} (hc : isJsonBlank c = false)
    (pos : Nat) (cs : List Char) :
    ∃ pos', skipBlanks pos (l.lineBreak depth ++ c :: cs) = (pos', c :: cs) :=
  ⟨_, skipBlanks_append (fun _ => isJsonBlank_of_mem_lineBreak) hc pos cs⟩

/-- Whether a number cannot go on with a character. -/
def partsNumbers (c : Char) : Bool := !(c.isDigit || c == '.' || c == 'e' || c == 'E')

/-- A text that does not go on with a number that stands before it. -/
def Parted (rest : List Char) : Prop := rest.head?.all partsNumbers = true

theorem Parted.cons {c : Char} (h : partsNumbers c = true) (cs : List Char) : Parted (c :: cs) := by
  simpa [Parted] using h

/-! ## Strings -/

theorem hexDigit?_digitChar : ∀ n < 16, Text.hexDigit? (Nat.digitChar n) = some n := by decide

/-- Four digits of which the first two are zeros. -/
theorem hexFour?_hexPair {n : Nat} (h : n < 256) :
    hexFour? '0' '0' (Nat.digitChar (n / 16)) (Nat.digitChar (n % 16)) = some n := by
  have hzero : Text.hexDigit? '0' = some 0 := by decide
  simp only [hexFour?, hzero, hexDigit?_digitChar _ (show n / 16 < 16 by omega),
    hexDigit?_digitChar _ (show n % 16 < 16 by omega), Option.pure_def, Option.bind_eq_bind,
    Option.bind_some]
  congr 1
  omega

theorem readString_letter {letter c : Char} (h : escaped? letter = some c) (pos : Nat)
    (cs : List Char) :
    readString pos ('\\' :: letter :: cs) =
      (readString (pos + 2) cs).map fun r => (c :: r.1, r.2) := by
  have hu : letter ≠ 'u' := by
    rintro rfl
    cases h
  rw [readString]
  · rw [h]
    cases readString (pos + 2) cs <;> rfl
  all_goals simp [hu]

theorem skipString_letter {letter c : Char} (h : escaped? letter = some c) (pos : Nat)
    (cs : List Char) : skipString pos ('\\' :: letter :: cs) = skipString (pos + 2) cs := by
  have hu : letter ≠ 'u' := by
    rintro rfl
    cases h
  rw [skipString]
  · rw [h]; rfl
  all_goals simp [hu]

theorem readString_hexPair {n : Nat} (h : n < 0x20) (pos : Nat) (cs : List Char) :
    readString pos (['\\', 'u', '0', '0'] ++ hexPair n ++ cs) =
      (readString (pos + 6) cs).map fun r => (Char.ofNat n :: r.1, r.2) := by
  simp only [hexPair, List.cons_append, List.nil_append]
  rw [readString, hexFour?_hexPair (by omega)]
  have hcloses : closesPair n = false := by simp [closesPair]; omega
  have hopens : opensPair n = false := by simp [opensPair]; omega
  simp only [hcloses, hopens, Bool.false_eq_true, if_false]
  cases readString (pos + 6) cs <;> rfl

theorem skipString_hexPair {n : Nat} (h : n < 0x20) (pos : Nat) (cs : List Char) :
    skipString pos (['\\', 'u', '0', '0'] ++ hexPair n ++ cs) = skipString (pos + 6) cs := by
  simp only [hexPair, List.cons_append, List.nil_append]
  rw [skipString, hexFour?_hexPair (by omega)]

theorem readString_plain {c : Char} (hquote : c ≠ '"') (hslash : c ≠ '\\') (h : 0x20 ≤ c.toNat)
    (pos : Nat) (cs : List Char) :
    readString pos (c :: cs) =
      (readString (pos + c.utf8Size) cs).map fun r => (c :: r.1, r.2) := by
  rw [readString]
  · rw [if_neg (by omega)]
    cases readString (pos + c.utf8Size) cs <;> rfl
  all_goals simp [hquote, hslash]

theorem skipString_plain {c : Char} (hquote : c ≠ '"') (hslash : c ≠ '\\') (h : 0x20 ≤ c.toNat)
    (pos : Nat) (cs : List Char) :
    skipString pos (c :: cs) = skipString (pos + c.utf8Size) cs := by
  rw [skipString]
  · rw [if_neg (by omega)]
  all_goals simp [hquote, hslash]

/-- `Escaped c text`: in a string the character `c` is written as `text`. -/
inductive Escaped (c : Char) : List Char → Prop where
  | letter {letter : Char} : escaped? letter = some c → Escaped c ['\\', letter]
  | control : c.toNat < 0x20 → Escaped c (['\\', 'u', '0', '0'] ++ hexPair c.toNat)
  | plain : c ≠ '"' → c ≠ '\\' → 0x20 ≤ c.toNat → Escaped c [c]

theorem escaped_escape (c : Char) : Escaped c (escape c) := by
  simp only [escape, beq_iff_eq]
  split_ifs with hquote hslash hline hreturn htab hback hfeed hcontrol
  · subst hquote
    exact .letter rfl
  · subst hslash
    exact .letter rfl
  · subst hline
    exact .letter rfl
  · subst hreturn
    exact .letter rfl
  · subst htab
    exact .letter rfl
  · subst hback
    exact .letter rfl
  · subst hfeed
    exact .letter rfl
  · exact .control hcontrol
  · exact .plain hquote hslash (Nat.le_of_not_lt hcontrol)

/-- A string is read back. -/
theorem readString_escaped (s : List Char) (pos : Nat) (rest : List Char) :
    ∃ stop, readString pos (s.flatMap escape ++ '"' :: rest) = .ok (s, stop, rest) := by
  induction s generalizing pos with
  | nil => exact ⟨pos + 1, by rw [List.flatMap_nil, List.nil_append, readString]⟩
  | cons c s ih =>
    rw [List.flatMap_cons, List.append_assoc]
    generalize s.flatMap escape ++ '"' :: rest = cs at ih ⊢
    have hread (next : Nat) : ∃ stop, (readString next cs).map (fun r => (c :: r.1, r.2)) =
        .ok (c :: s, stop, rest) := by
      obtain ⟨stop, hstop⟩ := ih next
      exact ⟨stop, by rw [hstop]; rfl⟩
    have hc := escaped_escape c
    generalize escape c = text at hc
    cases hc with
    | letter h =>
      rw [List.cons_append, List.singleton_append, readString_letter h]
      exact hread _
    | control h =>
      rw [readString_hexPair h, Char.ofNat_toNat]
      exact hread _
    | plain hquote hslash h =>
      rw [List.singleton_append, readString_plain hquote hslash h]
      exact hread _

/-- A string is skipped. -/
theorem skipString_escaped (s : List Char) (pos : Nat) (rest : List Char) :
    ∃ stop, skipString pos (s.flatMap escape ++ '"' :: rest) = .ok (stop, rest) := by
  induction s generalizing pos with
  | nil => exact ⟨pos + 1, by rw [List.flatMap_nil, List.nil_append, skipString]⟩
  | cons c s ih =>
    rw [List.flatMap_cons, List.append_assoc]
    have hc := escaped_escape c
    generalize escape c = text at hc
    cases hc with
    | letter h =>
      rw [List.cons_append, List.singleton_append, skipString_letter h]
      exact ih _
    | control h =>
      rw [skipString_hexPair h]
      exact ih _
    | plain hquote hslash h =>
      rw [List.singleton_append, skipString_plain hquote hslash h]
      exact ih _

/-! ## Numbers -/

theorem le_ofDigitChars (ds : List Char) (n : Nat) : n ≤ Nat.ofDigitChars 10 ds n := by
  induction ds generalizing n with
  | nil => simp
  | cons d ds ih =>
    rw [Nat.ofDigitChars_cons]
    exact Nat.le_trans (by omega) (ih _)

/-- Digits are all taken while the number they make stays within 64 bits. -/
theorem takeDigits_eq {ds : List Char} {n : Nat} (h : Nat.ofDigitChars 10 ds n < UInt64.size) :
    takeDigits n ds = (Nat.ofDigitChars 10 ds n, ds.length) := by
  induction ds generalizing n with
  | nil => rfl
  | cons d ds ih =>
    rw [Nat.ofDigitChars_cons] at h ⊢
    have hnext : n * 10 + digitValue d = 10 * n + (d.toNat - '0'.toNat) := by
      rw [Nat.mul_comm, digitValue]
    have hle := le_ofDigitChars ds (10 * n + (d.toNat - '0'.toNat))
    rw [takeDigits, hnext]
    dsimp only
    rw [if_pos (by omega), ih h]
    rfl

theorem head?_toDigits {n : Nat} (h : 0 < n) : (Nat.toDigits 10 n).head? ≠ some '0' := by
  induction n using Nat.strongRecOn with
  | ind n ih =>
    rw [Nat.toDigits_eq_if (by omega)]
    split
    · rename_i hlt
      simp [Nat.digitChar_eq_zero]
      omega
    · have hhead := ih (n / 10) (by omega) (by omega)
      rw [List.head?_append]
      cases hds : (Nat.toDigits 10 (n / 10)).head? with
      | none => simp at hds
      | some d => simpa [hds] using hhead

/-- No number starts with a zero that it could do without. -/
theorem decimalChars_ne_zero_cons (n : Nat) (d : Char) (ds : List Char) :
    decimalChars n ≠ '0' :: d :: ds := by
  intro h
  rcases Nat.eq_zero_or_pos n with rfl | hn
  · simp [decimalChars] at h
  · exact head?_toDigits hn (by rw [← decimalChars, h]; rfl)

/-- The digits of a number end where it is parted from the rest. -/
theorem spanDigits_append {ds rest : List Char} (hds : ∀ c ∈ ds, c.isDigit = true)
    (hrest : Parted rest) : spanDigits (ds ++ rest) = (ds, rest) := by
  have hhead : rest.takeWhile Char.isDigit = [] ∧ rest.dropWhile Char.isDigit = rest := by
    cases rest with
    | nil => exact ⟨rfl, rfl⟩
    | cons c rest =>
      have hc : c.isDigit = false := by
        simp [Parted, partsNumbers] at hrest
        exact hrest.1.1.1
      simp [hc]
  rw [spanDigits, List.takeWhile_append_of_pos hds, List.dropWhile_append_of_pos hds, hhead.1,
    hhead.2, List.append_nil]

theorem isDigit_of_mem_decimalChars {n : Nat} {c : Char} (h : c ∈ decimalChars n) :
    c.isDigit = true :=
  Nat.isDigit_of_mem_toDigits (by omega) (by omega) h

/-- A number is read back as the integer that its digits and its sign make. -/
theorem readNumber_decimal {n : Nat} (hn : n < UInt64.size) {rest : List Char}
    (hrest : Parted rest) (pos : Nat) (negative : Bool) :
    ∃ stop, readNumber pos negative (decimalChars n ++ rest) =
      (integerAt stop negative n).map fun x => (x, stop, rest) := by
  have hvalue : Nat.ofDigitChars 10 (decimalChars n) 0 = n := Nat.ofDigitChars_ten_toDigits
  have htake : takeDigits 0 (decimalChars n) = (n, (decimalChars n).length) := by
    rw [takeDigits_eq (by rwa [hvalue]), hvalue]
  have hspan := spanDigits_append (fun c => isDigit_of_mem_decimalChars (n := n)) hrest
  have hne : decimalChars n ≠ [] := Nat.toDigits_ne_nil
  have hzero := decimalChars_ne_zero_cons n
  generalize decimalChars n = ds at hspan hne hzero htake
  refine ⟨pos + ds.length, ?_⟩
  unfold readNumber
  rw [hspan]
  split
  · simp_all
  · simp_all
  · simp_all
  · rename_i heq
    simp only [Prod.mk.injEq] at heq
    obtain ⟨rfl, rfl⟩ := heq
    simp only [htake, Nat.sub_self]
    split
    · simp [Parted, partsNumbers] at hrest
    · simp [Parted, partsNumbers] at hrest
    · simp [Parted, partsNumbers] at hrest
    · cases integerAt (pos + ds.length) negative n <;> rfl

/-- A number is skipped. -/
theorem skipNumber_decimal (n : Nat) {rest : List Char} (hrest : Parted rest) (pos : Nat) :
    ∃ stop, skipNumber pos (decimalChars n ++ rest) = .ok (stop, rest) := by
  have hspan := spanDigits_append (fun c => isDigit_of_mem_decimalChars (n := n)) hrest
  have hne : decimalChars n ≠ [] := Nat.toDigits_ne_nil
  have hzero := decimalChars_ne_zero_cons n
  generalize decimalChars n = ds at hspan hne hzero
  refine ⟨pos + ds.length, ?_⟩
  unfold skipNumber
  rw [hspan]
  split
  · simp_all
  · simp_all
  · simp_all [Parted, partsNumbers]
  · simp_all [Parted, partsNumbers]
  · simp_all [Parted, partsNumbers]
  · simp_all

/-! ## What a node says -/

/-- A list or an object that ends with its bracket. -/
def Tail.IsWhole : Tail → Prop
  | .closed _ => True
  | .known _ => True
  | _ => False

mutual

/-- `v.SaidBy n`: the node `n` was read whole, and says `v`. -/
def SaidBy : Json → Node → Prop
  | null, n => ∃ start stop, n = .scalar start (.ok .null) (.ok stop)
  | bool b, n => ∃ start stop, n = .scalar start (.ok (.bool b)) (.ok stop)
  | num x, n => ∃ start stop, n = .scalar start (.ok (.num x)) (.ok stop)
  | str s, n => ∃ start stop, n = .scalar start (.ok (.str s)) (.ok stop)
  | arr vs, n => ∃ start items tail,
      n = .arr start false items tail ∧ tail.IsWhole ∧ ItemsSaidBy vs items
  | obj kvs, n => ∃ start fields tail,
      n = .obj start false fields tail ∧ tail.IsWhole ∧ FieldsSaidBy kvs fields

/-- The nodes of a list say its items. -/
def ItemsSaidBy : List Json → List Node → Prop
  | [], ns => ns = []
  | v :: vs, ns => ∃ n rest, ns = n :: rest ∧ SaidBy v n ∧ ItemsSaidBy vs rest

/-- The keys and nodes of an object say its fields. -/
def FieldsSaidBy : List (String × Json) → List (Key × Node) → Prop
  | [], fs => fs = []
  | (k, v) :: kvs, fs => ∃ key n rest,
      fs = (key, n) :: rest ∧ key.text = .ok k ∧ SaidBy v n ∧ FieldsSaidBy kvs rest

end

mutual

/-- `v.Fits room`: the numbers of `v` are integers of the 64-bit ranges, and at most `room` lists
and objects are nested in it. -/
def Fits : Json → Nat → Prop
  | num (.int n), _ => -(Nat.pow 2 63 : Nat) ≤ n ∧ n < UInt64.size
  | num (.float _), _ => False
  | arr vs, room => 0 < room ∧ ItemsFit vs (room - 1)
  | obj kvs, room => 0 < room ∧ FieldsFit kvs (room - 1)
  | _, _ => True

/-- The items of a list fit. -/
def ItemsFit : List Json → Nat → Prop
  | [], _ => True
  | v :: vs, room => Fits v room ∧ ItemsFit vs room

/-- The fields of an object fit. -/
def FieldsFit : List (String × Json) → Nat → Prop
  | [], _ => True
  | (_, v) :: kvs, room => Fits v room ∧ FieldsFit kvs room

end

/-! ## Values -/

theorem decimalChars_eq_cons (n : Nat) : ∃ c cs, decimalChars n = c :: cs ∧ c.isDigit = true := by
  obtain ⟨c, cs, hcs⟩ := List.exists_cons_of_ne_nil (show decimalChars n ≠ [] from
    Nat.toDigits_ne_nil)
  exact ⟨c, cs, hcs, isDigit_of_mem_decimalChars (n := n) (by simp [hcs])⟩

/-- Values without parts. -/
def isScalar : Json → Bool
  | arr _ | obj _ => false
  | _ => true

/-- The characters that values without parts start with. -/
def startsScalar (c : Char) : Bool :=
  c.isDigit || c == '-' || c == '"' || c == 'n' || c == 't' || c == 'f'

theorem startsScalar_ne {c d : Char} (hc : startsScalar c = true) (hd : startsScalar d = false) :
    c ≠ d := by
  rintro rfl
  rw [hc] at hd
  cases hd

theorem isJsonBlank_of_startsScalar {c : Char} (h : startsScalar c = true) :
    isJsonBlank c = false := by
  simp only [isJsonBlank, Bool.or_eq_false_iff, beq_eq_false_iff_ne]
  exact ⟨⟨⟨startsScalar_ne h rfl, startsScalar_ne h rfl⟩, startsScalar_ne h rfl⟩,
    startsScalar_ne h rfl⟩

/-- A value without parts starts with one of the characters for it. -/
theorem write_scalar_eq_cons {v : Json} (hv : v.isScalar = true) {room : Nat} (h : v.Fits room)
    (l : Layout) (d : Nat) : ∃ c cs, write l d v = c :: cs ∧ startsScalar c = true := by
  cases v with
  | null => exact ⟨'n', _, rfl, rfl⟩
  | bool b => cases b <;> exact ⟨_, _, rfl, rfl⟩
  | str s => exact ⟨'"', _, rfl, rfl⟩
  | num x =>
    cases x with
    | float x => exact absurd h (by simp [Fits])
    | int n =>
      cases n with
      | ofNat n =>
        obtain ⟨c, cs, hcs, hc⟩ := decimalChars_eq_cons n
        exact ⟨c, cs, hcs, by simp [startsScalar, hc]⟩
      | negSucc n => exact ⟨'-', _, rfl, rfl⟩
  | arr vs => cases hv
  | obj kvs => cases hv

/-- A value starts with a character that is neither a blank nor a closing bracket. -/
theorem write_eq_cons {v : Json} {room : Nat} (h : v.Fits room) (l : Layout) (d : Nat) :
    ∃ c cs, write l d v = c :: cs ∧ isJsonBlank c = false ∧ c ≠ ']' := by
  cases hv : v.isScalar with
  | true =>
    obtain ⟨c, cs, hcs, hc⟩ := write_scalar_eq_cons hv h l d
    exact ⟨c, cs, hcs, isJsonBlank_of_startsScalar hc, startsScalar_ne hc rfl⟩
  | false =>
    cases v with
    | arr vs => cases vs <;> exact ⟨'[', _, rfl, rfl, by decide⟩
    | obj kvs => cases kvs <;> exact ⟨'\x7b', _, rfl, rfl, by decide⟩
    | _ => cases hv

/-- Blanks before a value are skipped. -/
theorem readValue_blanks {blanks cs : List Char} (hblanks : ∀ c ∈ blanks, isJsonBlank c = true)
    (hcs : ∃ c rest, cs = c :: rest ∧ isJsonBlank c = false) (fuel depth pos : Nat) :
    ∃ pos', readValue fuel depth pos (blanks ++ cs) = readValue fuel depth pos' cs := by
  obtain ⟨c, rest, rfl, hc⟩ := hcs
  cases fuel with
  | zero => exact ⟨pos, by rw [readValue, readValue]⟩
  | succ fuel =>
    refine ⟨pos + blanks.length, ?_⟩
    rw [readValue, readValue, skipBlanks_append hblanks hc, skipBlanks_cons hc]

/-- The text behind an item or a field starts with a comma, a line break or a bracket. -/
theorem parted_writeItems (l : Layout) (depth : Nat) (vs : List Json) (rest : List Char) :
    Parted (writeItems l depth vs ++ rest) := by
  cases vs with
  | nil => cases l <;> exact .cons rfl _
  | cons v vs => exact .cons rfl _

theorem parted_writeFields (l : Layout) (depth : Nat) (kvs : List (String × Json))
    (rest : List Char) : Parted (writeFields l depth kvs ++ rest) := by
  cases kvs with
  | nil => cases l <;> exact .cons rfl _
  | cons kv kvs => exact .cons rfl _

/-- `Returns v result rest`: a value was read whole, says `v`, and `rest` is left. -/
def Returns (v : Json) (result : Node × Rest) (rest : List Char) : Prop :=
  ∃ n stop, result = (n, some (stop, rest)) ∧ v.SaidBy n

/-- `ReturnsItems vs result rest`: the items of a list were read whole and say `vs`. -/
def ReturnsItems (vs : List Json) (result : List Node × Tail × Rest) (rest : List Char) : Prop :=
  ∃ items tail stop, result = (items, tail, some (stop, rest)) ∧ tail.IsWhole ∧
    ItemsSaidBy vs items

/-- `ReturnsFields kvs result rest`: the fields of an object were read whole and say `kvs`. -/
def ReturnsFields (kvs : List (String × Json)) (result : List (Key × Node) × Tail × Rest)
    (rest : List Char) : Prop :=
  ∃ fields tail stop, result = (fields, tail, some (stop, rest)) ∧ tail.IsWhole ∧
    FieldsSaidBy kvs fields

theorem plainNode_digit {c : Char} (h : c.isDigit = true) (pos : Nat) (cs : List Char) :
    plainNode pos (c :: cs) = numberNode pos pos false (c :: cs) := by
  rw [plainNode, if_pos h]
  all_goals
    rintro rfl
    cases h

/-- The node of a number says the integer that its digits and its sign make. -/
theorem numberNode_decimal {n : Nat} (hn : n < UInt64.size) {rest : List Char} (hrest : Parted rest)
    {x : JsonNumber} {negative : Bool} (hx : ∀ stop, integerAt stop negative n = .ok x)
    (start pos : Nat) :
    Returns (num x) (numberNode start pos negative (decimalChars n ++ rest)) rest := by
  obtain ⟨stop, hread⟩ := readNumber_decimal hn hrest pos negative
  obtain ⟨stop', hskip⟩ := skipNumber_decimal n hrest pos
  refine ⟨.scalar start (.ok (.num x)) (.ok stop'), stop', ?_, start, stop', rfl⟩
  simp only [numberNode, scalarNode, hread, hskip, hx]
  rfl

theorem integerAt_negSucc {n : Nat} (hn : n + 1 ≤ Nat.pow 2 63) (stop : Nat) :
    integerAt stop true (n + 1) = .ok (.int (.negSucc n)) := by
  have hsmall : (n + 1 == 0 || decide (Nat.pow 2 63 < n + 1)) = false := by
    rw [decide_eq_false (Nat.not_lt.2 hn)]
    rfl
  unfold integerAt
  rw [hsmall]
  rfl

/-- A value without parts is read back. -/
theorem plainNode_write {v : Json} (hv : v.isScalar = true) {room : Nat} (h : v.Fits room)
    (l : Layout) (d pos : Nat) {rest : List Char} (hrest : Parted rest) :
    Returns v (plainNode pos (write l d v ++ rest)) rest := by
  cases v with
  | null => exact ⟨_, _, rfl, _, _, rfl⟩
  | bool b => cases b <;> exact ⟨_, _, rfl, _, _, rfl⟩
  | str s =>
    obtain ⟨stop, hread⟩ := readString_escaped s.toList (pos + 1) rest
    obtain ⟨stop', hskip⟩ := skipString_escaped s.toList (pos + 1) rest
    refine ⟨.scalar pos (.ok (.str s)) (.ok stop'), stop', ?_, pos, stop', rfl⟩
    simp only [write, quote, List.cons_append, List.append_assoc, List.nil_append, plainNode,
      stringNode, scalarNode, hread, hskip]
    simp [Except.map, Except.toOption]
  | num x =>
    cases x with
    | float x => exact absurd h (by simp [Fits])
    | int n =>
      obtain ⟨hlow, hhigh⟩ := h
      cases n with
      | ofNat n =>
        have hread := numberNode_decimal (Int.ofNat_lt.1 hhigh) hrest
          (show ∀ stop, integerAt stop false n = .ok (.int n) from fun _ => rfl) pos pos
        obtain ⟨c, cs, hcs, hc⟩ := decimalChars_eq_cons n
        simp only [write, JsonNumber.chars, intChars, hcs, List.cons_append] at hread ⊢
        rw [plainNode_digit hc]
        exact hread
      | negSucc n =>
        have hn : n + 1 ≤ Nat.pow 2 63 := by omega
        exact numberNode_decimal (Nat.lt_of_le_of_lt hn (by decide)) hrest
          (integerAt_negSucc hn) pos (pos + 1)
  | arr vs => cases hv
  | obj kvs => cases hv

/-- The items from one on are read back, if the item is and those behind it are. -/
theorem readItem_write {l : Layout} {fuel depth d pos : Nat} {v : Json} {vs : List Json}
    {rest : List Char}
    (hv : Returns v (readValue fuel depth pos (write l (d + 1) v ++ (writeItems l d vs ++ rest)))
      (writeItems l d vs ++ rest))
    (hvs : ∀ pos,
      ReturnsItems vs (readItems fuel depth false pos (writeItems l d vs ++ rest)) rest) :
    ReturnsItems (v :: vs)
      (readItem (fuel + 1) depth pos (write l (d + 1) v ++ (writeItems l d vs ++ rest))) rest := by
  obtain ⟨n, next, hread, hn⟩ := hv
  obtain ⟨items, tail, stop, hitems, htail, hsaid⟩ := hvs next
  refine ⟨n :: items, tail, stop, ?_, htail, n, items, rfl, hn, hsaid⟩
  rw [readItem, hread]
  simp only [hitems]

/-- The fields from one on are read back, if the value of the field is and the fields behind it
are. -/
theorem readField_write {l : Layout} {fuel depth d : Nat} {k : String} {v : Json}
    {kvs : List (String × Json)} {rest : List Char} {room : Nat} (hfits : v.Fits room)
    (hv : ∀ pos, Returns v
      (readValue fuel depth pos (write l (d + 1) v ++ (writeFields l d kvs ++ rest)))
      (writeFields l d kvs ++ rest))
    (hkvs : ∀ pos,
      ReturnsFields kvs (readFields fuel depth false pos (writeFields l d kvs ++ rest)) rest)
    (start : Nat) :
    ReturnsFields ((k, v) :: kvs)
      (readField (fuel + 1) depth start (k.toList.flatMap escape ++
        '"' :: (l.colon ++ (write l (d + 1) v ++ (writeFields l d kvs ++ rest))))) rest := by
  obtain ⟨c, cs, hcs, hc, -⟩ := write_eq_cons hfits l (d + 1)
  obtain ⟨blanks, hcolon, hblanks⟩ : ∃ blanks, l.colon = ':' :: blanks ∧
      ∀ c ∈ blanks, isJsonBlank c = true := by
    cases l with
    | compact => exact ⟨[], rfl, by simp⟩
    | indented => exact ⟨[' '], rfl, by simp [isJsonBlank]⟩
  rw [hcolon, List.cons_append]
  generalize hafter : blanks ++ (write l (d + 1) v ++ (writeFields l d kvs ++ rest)) = after
  obtain ⟨stop₁, htext⟩ := readString_escaped k.toList (start + 1) (':' :: after)
  obtain ⟨stop₂, hskip⟩ := skipString_escaped k.toList (start + 1) (':' :: after)
  have hvalue : write l (d + 1) v ++ (writeFields l d kvs ++ rest) =
      c :: (cs ++ (writeFields l d kvs ++ rest)) := by rw [hcs, List.cons_append]
  obtain ⟨pos, hpos⟩ := readValue_blanks hblanks ⟨c, _, hvalue, hc⟩ fuel depth (stop₂ + 1)
  obtain ⟨n, next, hread, hn⟩ := hv pos
  obtain ⟨fields, tail, stop, hfields, htail, hsaid⟩ := hkvs next
  refine ⟨(⟨start, .ok k, stop₂, stop₂⟩, n) :: fields, tail, stop, ?_, htail,
    _, n, fields, rfl, rfl, hn, hsaid⟩
  rw [readField]
  simp only [htext, hskip, skipBlanks_cons (c := ':') rfl]
  rw [← hafter, hpos, hread]
  simp only [hfields]
  simp [Except.map]

/-! ## Lists and objects -/

/-- Behind a line break the first item is read. -/
theorem readItems_first {v : Json} {room : Nat} (hv : v.Fits room) (l : Layout)
    (d fuel depth pos : Nat) (rest : List Char) :
    ∃ pos', readItems (fuel + 1) depth true pos (l.lineBreak d ++ (write l d v ++ rest)) =
      readItem fuel depth pos' (write l d v ++ rest) := by
  obtain ⟨c, cs, hcs, hc, hclose⟩ := write_eq_cons hv l d
  rw [hcs, List.cons_append]
  obtain ⟨pos', hpos⟩ := skipBlanks_lineBreak l d hc pos (cs ++ rest)
  refine ⟨pos', ?_⟩
  rw [readItems, hpos]
  simp

/-- Behind a comma and a line break the next item is read. -/
theorem readItems_comma {v : Json} {room : Nat} (hv : v.Fits room) (l : Layout)
    (d fuel depth pos : Nat) (rest : List Char) :
    ∃ pos', readItems (fuel + 1) depth false pos (',' :: (l.lineBreak d ++ (write l d v ++ rest))) =
      readItem fuel depth pos' (write l d v ++ rest) := by
  obtain ⟨c, cs, hcs, hc, hclose⟩ := write_eq_cons hv l d
  rw [hcs, List.cons_append]
  obtain ⟨pos', hpos⟩ := skipBlanks_lineBreak l d hc (pos + 1) (cs ++ rest)
  refine ⟨pos', ?_⟩
  rw [readItems, skipBlanks_cons rfl]
  simp [hpos, hclose]

theorem readItems_close (l : Layout) (d fuel depth : Nat) (first : Bool) (pos : Nat)
    (rest : List Char) :
    ReturnsItems [] (readItems (fuel + 1) depth first pos (l.lineBreak d ++ ']' :: rest)) rest := by
  obtain ⟨pos', hpos⟩ := skipBlanks_lineBreak l d (c := ']') rfl pos rest
  refine ⟨[], .closed (pos' + 1), pos' + 1, ?_, trivial, rfl⟩
  rw [readItems, hpos]
  rfl

theorem readFields_first (l : Layout) (d fuel depth pos : Nat) (cs : List Char) :
    ∃ pos', readFields (fuel + 1) depth true pos (l.lineBreak d ++ '"' :: cs) =
      readField fuel depth pos' cs := by
  obtain ⟨pos', hpos⟩ := skipBlanks_lineBreak l d (c := '"') rfl pos cs
  refine ⟨pos', ?_⟩
  rw [readFields, hpos]
  simp

theorem readFields_comma (l : Layout) (d fuel depth pos : Nat) (cs : List Char) :
    ∃ pos', readFields (fuel + 1) depth false pos (',' :: (l.lineBreak d ++ '"' :: cs)) =
      readField fuel depth pos' cs := by
  obtain ⟨pos', hpos⟩ := skipBlanks_lineBreak l d (c := '"') rfl (pos + 1) cs
  refine ⟨pos', ?_⟩
  rw [readFields, skipBlanks_cons rfl]
  simp [hpos]

theorem readFields_close (l : Layout) (d fuel depth : Nat) (first : Bool) (pos : Nat)
    (rest : List Char) :
    ReturnsFields [] (readFields (fuel + 1) depth first pos (l.lineBreak d ++ '\x7d' :: rest))
      rest := by
  obtain ⟨pos', hpos⟩ := skipBlanks_lineBreak l d (c := '\x7d') rfl pos rest
  refine ⟨[], .closed (pos' + 1), pos' + 1, ?_, trivial, rfl⟩
  rw [readFields, hpos]
  rfl

theorem readValue_scalar {v : Json} (hv : v.isScalar = true) {room : Nat} (h : v.Fits room)
    {l : Layout} {fuel d : Nat} (hfuel : 4 * (write l d v).length ≤ fuel) (depth pos : Nat)
    {rest : List Char} (hrest : Parted rest) :
    Returns v (readValue fuel depth pos (write l d v ++ rest)) rest := by
  have hread := plainNode_write hv h l d pos hrest
  obtain ⟨c, cs, hcs, hc⟩ := write_scalar_eq_cons hv h l d
  rw [hcs, List.length_cons] at hfuel
  obtain ⟨fuel, rfl⟩ : ∃ k, fuel = k + 1 := ⟨fuel - 1, by omega⟩
  rw [hcs, List.cons_append] at hread ⊢
  rw [readValue, skipBlanks_cons (isJsonBlank_of_startsScalar hc)]
  have harr : c ≠ '[' := startsScalar_ne hc rfl
  have hobj : c ≠ '\x7b' := startsScalar_ne hc rfl
  simpa [harr, hobj] using hread

/-- A list is read back, if its items are. -/
theorem readValue_arr {fuel depth : Nat} (hdepth : depth < depthLimit) {vs : List Json}
    {cs rest : List Char} (h : ∀ pos, ReturnsItems vs (readItems fuel (depth + 1) true pos cs) rest)
    (pos : Nat) : Returns (arr vs) (readValue (fuel + 1) depth pos ('[' :: cs)) rest := by
  obtain ⟨items, tail, stop, hitems, htail, hsaid⟩ := h (pos + 1)
  refine ⟨.arr pos false items tail, stop, ?_, pos, items, tail, rfl, htail, hsaid⟩
  rw [readValue, skipBlanks_cons rfl]
  simp [hitems, hdepth]

/-- An object is read back, if its fields are. -/
theorem readValue_obj {fuel depth : Nat} (hdepth : depth < depthLimit) {kvs : List (String × Json)}
    {cs rest : List Char}
    (h : ∀ pos, ReturnsFields kvs (readFields fuel (depth + 1) true pos cs) rest) (pos : Nat) :
    Returns (obj kvs) (readValue (fuel + 1) depth pos ('\x7b' :: cs)) rest := by
  obtain ⟨fields, tail, stop, hfields, htail, hsaid⟩ := h (pos + 1)
  refine ⟨.obj pos false fields tail, stop, ?_, pos, fields, tail, rfl, htail, hsaid⟩
  rw [readValue, skipBlanks_cons rfl]
  simp [hfields, hdepth]

mutual

/-- A value that fits is read back from its text. -/
theorem readValue_write (l : Layout) : ∀ (v : Json) {room depth : Nat} (d : Nat) {fuel : Nat}
    (pos : Nat) {rest : List Char}, v.Fits room → depth + room ≤ depthLimit →
    4 * (write l d v).length ≤ fuel → Parted rest →
    Returns v (readValue fuel depth pos (write l d v ++ rest)) rest
  | arr [], room, depth, d, fuel, pos, rest, hfits, hdepth, hfuel, _ => by
    obtain ⟨fuel, rfl⟩ : ∃ k, fuel = k + 2 := ⟨fuel - 2, by simp [write] at hfuel; omega⟩
    have hroom : 0 < room := hfits.1
    exact readValue_arr (by omega) (fun pos => readItems_close .compact 0 fuel _ true pos rest) pos
  | arr (v :: vs), room, depth, d, fuel, pos, rest, hfits, hdepth, hfuel, hrest => by
    obtain ⟨hroom, hv, hvs⟩ := hfits
    simp only [write, List.length_cons, List.length_append] at hfuel
    obtain ⟨fuel, rfl⟩ : ∃ k, fuel = k + 3 := ⟨fuel - 3, by omega⟩
    simp only [write, List.cons_append, List.append_assoc]
    refine readValue_arr (by omega) (fun pos => ?_) pos
    obtain ⟨pos, hpos⟩ := readItems_first hv l (d + 1) (fuel + 1) (depth + 1) pos
      (writeItems l d vs ++ rest)
    rw [hpos]
    exact readItem_write
      (readValue_write l v (d + 1) pos hv (by omega) (by omega) (parted_writeItems l d vs rest))
      (fun pos => readItems_write l vs d pos hvs (by omega) (by omega))
  | obj [], room, depth, d, fuel, pos, rest, hfits, hdepth, hfuel, _ => by
    obtain ⟨fuel, rfl⟩ : ∃ k, fuel = k + 2 := ⟨fuel - 2, by simp [write] at hfuel; omega⟩
    have hroom : 0 < room := hfits.1
    exact readValue_obj (by omega) (fun pos => readFields_close .compact 0 fuel _ true pos rest) pos
  | obj ((k, v) :: kvs), room, depth, d, fuel, pos, rest, hfits, hdepth, hfuel, hrest => by
    obtain ⟨hroom, hv, hkvs⟩ := hfits
    simp only [write, List.length_cons, List.length_append] at hfuel
    obtain ⟨fuel, rfl⟩ : ∃ k, fuel = k + 3 := ⟨fuel - 3, by omega⟩
    simp only [write, quote, List.cons_append, List.append_assoc, List.nil_append]
    refine readValue_obj (by omega) (fun pos => ?_) pos
    obtain ⟨pos, hpos⟩ := readFields_first l (d + 1) (fuel + 1) (depth + 1) pos _
    rw [hpos]
    exact readField_write hv
      (fun pos => readValue_write l v (d + 1) pos hv (by omega) (by omega)
        (parted_writeFields l d kvs rest))
      (fun pos => readFields_write l kvs d pos hkvs (by omega) (by omega)) pos
  | null, _, depth, _, _, pos, _, hfits, _, hfuel, hrest =>
    readValue_scalar rfl hfits hfuel depth pos hrest
  | bool b, _, depth, _, _, pos, _, hfits, _, hfuel, hrest =>
    readValue_scalar rfl hfits hfuel depth pos hrest
  | num x, _, depth, _, _, pos, _, hfits, _, hfuel, hrest =>
    readValue_scalar rfl hfits hfuel depth pos hrest
  | str s, _, depth, _, _, pos, _, hfits, _, hfuel, hrest =>
    readValue_scalar rfl hfits hfuel depth pos hrest

/-- The items behind the first one are read back, up to the bracket. -/
theorem readItems_write (l : Layout) : ∀ (vs : List Json) {room depth : Nat} (d : Nat) {fuel : Nat}
    (pos : Nat) {rest : List Char}, ItemsFit vs room → depth + room ≤ depthLimit →
    4 * (writeItems l d vs).length ≤ fuel →
    ReturnsItems vs (readItems fuel depth false pos (writeItems l d vs ++ rest)) rest
  | [], room, depth, d, fuel, pos, rest, _, _, hfuel => by
    simp only [writeItems, List.length_append, List.length_singleton] at hfuel
    obtain ⟨fuel, rfl⟩ : ∃ k, fuel = k + 1 := ⟨fuel - 1, by omega⟩
    simp only [writeItems, List.append_assoc, List.singleton_append]
    exact readItems_close l d fuel depth false pos rest
  | v :: vs, room, depth, d, fuel, pos, rest, ⟨hv, hvs⟩, hdepth, hfuel => by
    simp only [writeItems, List.length_cons, List.length_append] at hfuel
    obtain ⟨fuel, rfl⟩ : ∃ k, fuel = k + 2 := ⟨fuel - 2, by omega⟩
    simp only [writeItems, List.cons_append, List.append_assoc]
    obtain ⟨pos, hpos⟩ := readItems_comma hv l (d + 1) (fuel + 1) depth pos
      (writeItems l d vs ++ rest)
    rw [hpos]
    exact readItem_write
      (readValue_write l v (d + 1) pos hv hdepth (by omega) (parted_writeItems l d vs rest))
      (fun pos => readItems_write l vs d pos hvs hdepth (by omega))

/-- The fields behind the first one are read back, up to the brace. -/
theorem readFields_write (l : Layout) : ∀ (kvs : List (String × Json)) {room depth : Nat} (d : Nat)
    {fuel : Nat} (pos : Nat) {rest : List Char}, FieldsFit kvs room → depth + room ≤ depthLimit →
    4 * (writeFields l d kvs).length ≤ fuel →
    ReturnsFields kvs (readFields fuel depth false pos (writeFields l d kvs ++ rest)) rest
  | [], room, depth, d, fuel, pos, rest, _, _, hfuel => by
    simp only [writeFields, List.length_append, List.length_singleton] at hfuel
    obtain ⟨fuel, rfl⟩ : ∃ k, fuel = k + 1 := ⟨fuel - 1, by omega⟩
    simp only [writeFields, List.append_assoc, List.singleton_append]
    exact readFields_close l d fuel depth false pos rest
  | (k, v) :: kvs, room, depth, d, fuel, pos, rest, ⟨hv, hkvs⟩, hdepth, hfuel => by
    simp only [writeFields, List.length_cons, List.length_append] at hfuel
    obtain ⟨fuel, rfl⟩ : ∃ k, fuel = k + 2 := ⟨fuel - 2, by omega⟩
    simp only [writeFields, quote, List.cons_append, List.append_assoc, List.nil_append]
    obtain ⟨pos, hpos⟩ := readFields_comma l (d + 1) (fuel + 1) depth pos _
    rw [hpos]
    exact readField_write hv
      (fun pos => readValue_write l v (d + 1) pos hv hdepth (by omega)
        (parted_writeFields l d kvs rest))
      (fun pos => readFields_write l kvs d pos hkvs hdepth (by omega)) pos

end

/-- The text of a value is read whole, and nothing follows it. -/
theorem readDocument_write (l : Layout) {v : Json} (hfits : v.Fits depthLimit) :
    v.SaidBy (readDocument (write l 0 v)).node ∧
      (readDocument (write l 0 v)).trailing = .ok () := by
  have hread : Returns v (readValue (4 * (write l 0 v).length + 4) 0 0 (write l 0 v ++ [])) [] :=
    readValue_write l v 0 0 hfits (Nat.le_of_eq (Nat.zero_add _)) (by omega) rfl
  obtain ⟨n, stop, hread, hsaid⟩ := hread
  rw [List.append_nil] at hread
  rw [readDocument, hread]
  exact ⟨hsaid, rfl⟩

end ContractBuild.Json
