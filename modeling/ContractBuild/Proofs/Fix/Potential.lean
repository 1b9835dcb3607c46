import ContractBuild.Fix.Transform
import ContractBuild.Proofs.Recognition
import Mathlib.Data.List.Count
import Mathlib.Data.List.Infix

/-!
# The potential of a text

A measure of texts that no rule raises.

- **Weight** (`weight`): the characters that no rule adds. What removes one of them may do anything
  else to the text (`potential_lt_of_weight`).
- **Loose characters** (`loose`): those that a rule may still settle, by a mark behind `internal` or
  by a caret behind `solidity`. A change of the text keeps characters before it settled
  (`Keeps.of_solid`), although what settles them may reach into it.
- **Searches**: a replacement improves a text if it improves it at each hit (`improves_replace`),
  and makes it lighter if it makes each hit lighter (`lightens_replacePieces`).
-/

namespace ContractBuild.Fix

open Text

/-! ## The potential of a text -/

/-- The characters that no rule ever adds. -/
def isHeavy (c : Char) : Bool := c == 'e' || c == 'n' || c == 'y'

/-- The number of characters that no rule ever adds. -/
def weight (cs : List Char) : Nat := cs.countP isHeavy

/-- What follows the last `n` of a word `internal` that is marked as virtual. -/
def isMarked (rest : List Char) : Bool := (literal "al virtual" rest).any wordEnd

/-- What follows the word `solidity` in a pragma for a caret range. -/
def isRelaxed (rest : List Char) : Bool := (trimStart rest).head? == some '^'

/-- A character that a rule may still settle: an `n` that marks no virtual function, or a `y`
without a caret behind it. -/
def isLoose (c : Char) (rest : List Char) : Bool :=
  c == 'n' && !isMarked rest || c == 'y' && !isRelaxed rest

/-- The number of characters that a rule may still settle. -/
def loose : List Char → Nat
  | [] => 0
  | c :: cs => (if isLoose c cs then 1 else 0) + loose cs

/-- The potential of a text. -/
def potential (cs : List Char) : Nat := weight cs * weight cs + loose cs

theorem weight_append (a b : List Char) : weight (a ++ b) = weight a + weight b :=
  List.countP_append

theorem weight_cons (c : Char) (cs : List Char) :
    weight (c :: cs) = weight cs + if isHeavy c then 1 else 0 :=
  List.countP_cons

theorem loose_le_weight (cs : List Char) : loose cs ≤ weight cs := by
  induction cs with
  | nil => exact Nat.le_refl 0
  | cons c cs ih =>
    have hc : (if isLoose c cs then 1 else 0) ≤ if isHeavy c then 1 else 0 := by
      unfold isLoose isHeavy
      split
      · rename_i h
        simp only [Bool.or_eq_true, Bool.and_eq_true, beq_iff_eq] at h
        rcases h with ⟨rfl, -⟩ | ⟨rfl, -⟩ <;> decide
      · exact Nat.zero_le _
    rw [loose, weight_cons]
    omega

/-- Exactly the heavy characters count. -/
theorem weight_eq_zero {a : List Char} : weight a = 0 ↔ ∀ c ∈ a, isHeavy c = false := by
  simp [weight]

theorem weight_append_of_light {a : List Char} (h : ∀ c ∈ a, isHeavy c = false) (cs : List Char) :
    weight (a ++ cs) = weight cs := by
  rw [weight_append, weight_eq_zero.mpr h, Nat.zero_add]

theorem loose_append_of_light {a : List Char} (h : ∀ c ∈ a, isHeavy c = false) (cs : List Char) :
    loose (a ++ cs) = loose cs := by
  induction a with
  | nil => rfl
  | cons c a ih =>
    obtain ⟨hc, ha⟩ := List.forall_mem_cons.mp h
    have hloose : isLoose c (a ++ cs) = false := by
      simp only [isHeavy, Bool.or_eq_false_iff, beq_eq_false_iff_ne] at hc
      simp [isLoose, hc]
    rw [List.cons_append, loose, ih ha, hloose]
    simp

/-- A text that becomes lighter has a smaller potential, whatever comes loose in it. -/
theorem potential_lt_of_weight {cs cs' : List Char} (h : weight cs' < weight cs) :
    potential cs' < potential cs := by
  calc potential cs'
      ≤ weight cs' * weight cs' + weight cs' := Nat.add_le_add_left (loose_le_weight cs') _
    _ = weight cs' * (weight cs' + 1) := (Nat.mul_succ ..).symm
    _ ≤ weight cs' * weight cs := Nat.mul_le_mul_left _ h
    _ < weight cs * weight cs := Nat.mul_lt_mul_of_pos_right h (Nat.zero_lt_of_lt h)
    _ ≤ potential cs := Nat.le_add_right _ _

/-! ## Changes that settle characters -/

/-- `Keeps z z'`: in front of `z'` nothing is loose that is settled in front of `z`. -/
def Keeps (z z' : List Char) : Prop :=
  ∀ c x, isLoose c (x ++ z') = true → isLoose c (x ++ z) = true

theorem Keeps.append_left {z z' : List Char} (h : Keeps z z') (t : List Char) :
    Keeps (t ++ z) (t ++ z') := by
  intro c x
  simpa only [List.append_assoc] using h c (x ++ t)

theorem Keeps.loose_append {z z' : List Char} (h : Keeps z z') (x : List Char) :
    loose (x ++ z') + loose z ≤ loose (x ++ z) + loose z' := by
  induction x with
  | nil => exact Nat.le_of_eq (Nat.add_comm ..)
  | cons c x ih =>
    have hc : (if isLoose c (x ++ z') then 1 else 0) ≤ if isLoose c (x ++ z) then 1 else 0 := by
      cases hl : isLoose c (x ++ z') with
      | false => exact Nat.zero_le _
      | true => rw [h c x hl]
    rw [List.cons_append, List.cons_append, loose, loose]
    omega

/-- A front with which no part of what settles a character goes on: it begins with a character of a
word, and nothing that is left of the marking of a function begins like it. -/
def isSolid (front : List Char) : Bool :=
  front.head?.any (fun c => isWord c && !isSpace c && c != '^') &&
    "al virtual".toList.tails.all fun s =>
      s.isEmpty || !(s.isPrefixOf front || front.isPrefixOf s)

theorem isSolid_iff {front : List Char} : isSolid front = true ↔
    (∃ c cs, front = c :: cs ∧ isWord c = true ∧ isSpace c = false ∧ c ≠ '^') ∧
    ∀ s, s <:+ "al virtual".toList → s ≠ [] → ¬ (s <+: front ∨ front <+: s) := by
  have hhead : front.head?.any (fun c => isWord c && !isSpace c && c != '^') = true ↔
      ∃ c cs, front = c :: cs ∧ isWord c = true ∧ isSpace c = false ∧ c ≠ '^' := by
    cases front with
    | nil => simp
    | cons c cs => simp [and_assoc]
  simp only [isSolid, Bool.and_eq_true, hhead, List.all_eq_true, List.mem_tails, Bool.or_eq_true,
    List.isEmpty_iff, Bool.not_eq_true', ← Bool.not_eq_true, List.isPrefixOf_iff_prefix,
    or_iff_not_imp_left, ne_eq]

theorem isMarked_iff {rest : List Char} :
    isMarked rest = true ↔ ∃ more, rest = "al virtual".toList ++ more ∧ wordEnd more = true := by
  simp only [isMarked, Option.any_eq_true, literal_eq_some]

theorem isMarked_of_solid {front x r : List Char} (hf : isSolid front = true)
    (h : isMarked (x ++ (front ++ r)) = true) (z' : List Char) : isMarked (x ++ z') = true := by
  obtain ⟨⟨c, cs, rfl, hc, -⟩, hsolid⟩ := isSolid_iff.mp hf
  obtain ⟨more, heq, hend⟩ := isMarked_iff.mp h
  have hword : wordEnd (c :: cs ++ r) = false := by simp [wordEnd, hc]
  rcases List.append_eq_append_iff.mp heq with ⟨s, hs, hfront⟩ | ⟨s, rfl, rfl⟩
  · -- the marking would end in the stretch, or right before it
    by_cases hnil : s = []
    · rw [hnil, List.nil_append] at hfront
      rw [← hfront, hword] at hend
      cases hend
    · have hs' : s <+: c :: cs ++ r := ⟨more, hfront.symm⟩
      exact absurd (List.prefix_or_prefix_of_prefix hs' (List.prefix_append ..))
        (hsolid s ⟨x, hs.symm⟩ hnil)
  · by_cases hnil : s = []
    · rw [hnil, List.nil_append, hword] at hend
      cases hend
    · refine isMarked_iff.mpr ⟨s ++ z', List.append_assoc .., ?_⟩
      rwa [wordEnd_append hnil] at hend ⊢

theorem isRelaxed_of_solid {front x r : List Char} (hf : isSolid front = true)
    (h : isRelaxed (x ++ (front ++ r)) = true) (z' : List Char) : isRelaxed (x ++ z') = true := by
  obtain ⟨⟨c, cs, rfl, -, hspace, hne⟩, -⟩ := isSolid_iff.mp hf
  unfold isRelaxed trimStart at h ⊢
  induction x with
  | nil => simp [hspace, hne] at h
  | cons d x ih =>
    rw [List.cons_append, List.dropWhile_cons] at h ⊢
    split
    · rename_i hd
      rw [if_pos hd] at h
      exact ih h
    · rename_i hd
      rw [if_neg hd] at h
      exact h

/-- In front of a solid stretch nothing is settled by it. -/
theorem Keeps.of_solid {front : List Char} (hf : isSolid front = true) (r z' : List Char) :
    Keeps (front ++ r) z' := by
  intro c x hl
  simp only [isLoose, Bool.or_eq_true, Bool.and_eq_true, Bool.not_eq_true'] at hl ⊢
  refine hl.imp (And.imp_right fun hl => ?_) (And.imp_right fun hl => ?_)
  · cases hm : isMarked (x ++ (front ++ r)) with
    | false => rfl
    | true => rw [← hl, isMarked_of_solid hf hm]
  · cases hm : isRelaxed (x ++ (front ++ r)) with
    | false => rfl
    | true => rw [← hl, isRelaxed_of_solid hf hm]

/-! ## Rewriting that settles characters -/

/-- `Improves z z'`: `z'` has the weight of `z`, and it is the same text or less is loose in it. The
other two facts let it stand for `z` behind a front. -/
structure Improves (z z' : List Char) : Prop where
  head : z'.head? = z.head?
  keeps : Keeps z z'
  weight : weight z' = weight z
  loose : z' = z ∨ loose z' < loose z

namespace Improves

theorem refl (z : List Char) : Improves z z := ⟨rfl, fun _ _ h => h, rfl, .inl rfl⟩

variable {z z' : List Char}

theorem loose_le (h : Improves z z') : Fix.loose z' ≤ Fix.loose z := by
  rcases h.loose with rfl | hlt
  · exact Nat.le_refl _
  · exact Nat.le_of_lt hlt

theorem append_left (h : Improves z z') (t : List Char) : Improves (t ++ z) (t ++ z') where
  head := by rw [List.head?_append, List.head?_append, h.head]
  keeps := h.keeps.append_left t
  weight := by rw [weight_append, weight_append, h.weight]
  loose := by
    rcases h.loose with rfl | hlt
    · exact .inl rfl
    · have := h.keeps.loose_append t
      exact .inr (by omega)

theorem potential_lt (h : Improves z z') (hne : z' ≠ z) : potential z' < potential z := by
  have hlt := h.loose.resolve_left hne
  rw [potential, potential, h.weight]
  omega

end Improves

/-- A replacement improves a text if it improves it at each hit. -/
theorem improves_replace {α : Type} {p : Pattern α}
    {P : Option Char → α → List Char → List Char → Prop} (hp : p.Takes P)
    {f : α → List Char → List Char}
    (hf : ∀ before v t rest, P before v t rest → ∀ r', Improves rest r' →
      Improves (t ++ rest) (f v t ++ r')) (cs : List Char) : Improves cs (p.replace f cs) := by
  rw [Pattern.replace_eq]
  refine hp.induction (motive := fun _ cs pieces => Improves cs (pieces.flatMap (Piece.replaced f)))
    ?_ ?_ ?_ none cs
  · exact fun _ => .refl []
  · exact fun _ c _ _ ih => ih.append_left [c]
  · exact fun before v t rest _ hP ih => hf before v t rest hP _ ih

/-! ## Rewriting that makes a text lighter -/

/-- A text in which nothing was replaced, or that is lighter than it was. -/
def Lightens (z z' : List Char) : Prop := z' = z ∨ weight z' < weight z

theorem Lightens.append {t t' z z' : List Char} (ht : Lightens t t') (hz : Lightens z z') :
    Lightens (t ++ z) (t' ++ z') := by
  rcases ht with rfl | ht <;> rcases hz with rfl | hz
  · exact .inl rfl
  all_goals
    refine .inr ?_
    rw [weight_append, weight_append]
    omega

theorem Lightens.potential_lt {z z' : List Char} (h : Lightens z z') (hne : z' ≠ z) :
    potential z' < potential z :=
  potential_lt_of_weight (h.resolve_left hne)

section
variable {α : Type} {p : Pattern α} {P : Option Char → α → List Char → List Char → Prop}

/-- A replacement makes a text lighter if it makes each hit lighter. -/
theorem lightens_replacePieces (hp : p.Takes P) {f : α → List Char → List Char}
    (hf : ∀ before v t rest, P before v t rest → Lightens t (f v t))
    (before : Option Char) (cs : List Char) :
    Lightens cs ((p.pieces before cs).flatMap (Piece.replaced f)) := by
  refine hp.induction (motive := fun _ cs pieces => Lightens cs (pieces.flatMap (Piece.replaced f)))
    ?_ ?_ ?_ before cs
  · exact fun _ => .inl rfl
  · exact fun _ c _ _ ih => .append (t := [c]) (.inl rfl) ih
  · exact fun before v t rest _ hP ih => .append (hf before v t rest hP) ih

theorem lightens_erasePieces (hp : p.Takes fun _ _ t _ => 0 < weight t)
    (before : Option Char) (cs : List Char) :
    Lightens cs ((p.pieces before cs).flatMap Piece.gapText) := by
  rw [Piece.gapText_eq_replaced]
  exact lightens_replacePieces hp (f := fun _ _ => []) (fun _ _ _ _ ht => .inr ht) before cs

theorem lightens_keepFirst (hp : p.Takes fun _ _ t _ => 0 < weight t)
    (before : Option Char) (cs : List Char) : Lightens cs (keepFirst (p.pieces before cs)) := by
  refine hp.induction (motive := fun _ cs pieces => Lightens cs (keepFirst pieces)) ?_ ?_ ?_
    before cs
  · exact fun _ => .inl rfl
  · exact fun _ c _ _ ih => .append (t := [c]) (.inl rfl) ih
  · exact fun _ _ t rest _ _ _ => .append (.inl rfl) (lightens_erasePieces hp _ rest)

end

end ContractBuild.Fix
