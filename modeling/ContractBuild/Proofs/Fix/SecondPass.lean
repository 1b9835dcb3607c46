import ContractBuild.Fix.Rule
import ContractBuild.Proofs.Fix.ExactPragma
import ContractBuild.Proofs.Fix.Header
import ContractBuild.Proofs.Fix.LicenseLines
import ContractBuild.Proofs.Fix.Qualifiers

/-!
# A rule that is applied again

- **Headers** (`headersApart`): where the word `internal` does not stand before the parameters of a
  header that is rewritten, the rewritten header is a header that needs no rewriting
  (`Header.exists_addVirtual`, `lacksVirtual_addVirtual`). A second search finds the same headers
  (`pieces_marked`).
- **All rules** (`FixRule.standsApart`): what a rule removes or rewrites stands apart from the text
  around it.

Main statement: `transform_idempotent`. What happens without the condition is
`transform_not_idempotent`.
-/

namespace ContractBuild

open ContractBuild.Fix Text

namespace Fix

/-! ## Rewritten headers -/

/-- A rewritten header needs no rewriting. -/
theorem lacksVirtual_addVirtual (header : List Char) :
    lacksVirtual (addVirtual header) = false := by
  cases hlacks : lacksVirtual header with
  | false => rwa [addVirtual_of_not_lacksVirtual hlacks]
  | true =>
    obtain ⟨front, rest, -, -, hend, hnew, -⟩ := exists_of_lacksVirtual hlacks
    have hword : HasWord "virtual" (addVirtual header) := by
      refine ⟨front ++ "internal ".toList, rest, ?_, ?_, hend⟩
      · rw [hnew, List.append_assoc]
        rfl
      · rw [List.getLast?_append_of_ne_nil _ (by decide)]
        rfl
    rw [← Bool.not_eq_true, lacksVirtual_iff]
    exact fun h => h.2 hword

theorem addVirtual_addVirtual (header : List Char) :
    addVirtual (addVirtual header) = addVirtual header :=
  addVirtual_of_not_lacksVirtual (lacksVirtual_addVirtual header)

/-- Rewriting a header keeps its first and its last character. -/
theorem ends_addVirtual (header : List Char) :
    (addVirtual header).head? = header.head? ∧ (addVirtual header).getLast? = header.getLast? := by
  cases hlacks : lacksVirtual header with
  | false =>
    rw [addVirtual_of_not_lacksVirtual hlacks]
    exact ⟨rfl, rfl⟩
  | true =>
    obtain ⟨front, rest, hheader, -, -, hnew, -⟩ := exists_of_lacksVirtual hlacks
    rw [hnew, hheader]
    constructor
    · cases front <;> rfl
    · have hword : "internal virtual".toList.getLast? = "internal".toList.getLast? := by decide
      simp only [List.getLast?_append, hword]

/-- A stretch that neither closes the parameters nor ends the header may be put behind its
opening. -/
theorem header_insert {opening params tail a b new : List Char} (hopening : Opening opening)
    (hparams : ')' ∉ params) (htail : ∀ c ∈ tail, ¬ EndsHeader c)
    (heq : params ++ (")".toList ++ tail) = a ++ b) (hclose : ')' ∉ new)
    (hnew : ∀ c ∈ new, ¬ EndsHeader c) : Header (opening ++ (a ++ (new ++ b))) := by
  rcases List.append_eq_append_iff.mp heq with ⟨more, rfl, hmore⟩ | ⟨more, rfl, rfl⟩
  · cases more with
    | nil =>
      obtain rfl : ")".toList ++ tail = b := hmore
      have hform : Header (opening ++ ((params ++ new) ++ (")".toList ++ tail))) :=
        .form hopening (by simp [hparams, hclose]) htail
      simpa only [List.append_assoc, List.append_nil] using hform
    | cons c more =>
      obtain rfl : ')' = c := (List.cons.inj hmore).1
      obtain rfl : tail = more ++ b := (List.cons.inj hmore).2
      rw [List.forall_mem_append] at htail
      have hform : Header (opening ++ (params ++ (")".toList ++ (more ++ (new ++ b))))) := by
        refine .form hopening hparams ?_
        simp only [List.forall_mem_append]
        exact ⟨htail.1, hnew, htail.2⟩
      rw [List.append_assoc]
      exact hform
  · have hform : Header (opening ++ ((a ++ (new ++ more)) ++ (")".toList ++ tail))) := by
      refine .form hopening ?_ htail
      simp only [List.mem_append, not_or] at hparams ⊢
      exact ⟨hparams.1, hclose, hparams.2⟩
    simpa only [List.append_assoc] using hform

/-- Whether the word `internal` does not stand in front of the parameters of a header. -/
def namePlain (header : List Char) : Bool :=
  (wholeWord "internal").count (header.takeWhile (· != '(')) == 0

/-- The text up to the first opening parenthesis. -/
theorem takeWhile_parenthesis {front : List Char} (hfront : '(' ∉ front) (rest : List Char) :
    (front ++ "(".toList ++ rest).takeWhile (· != '(') = front := by
  rw [List.append_assoc, List.takeWhile_append_of_pos]
  · exact List.append_nil front
  · exact fun c hc => by simpa using ne_of_mem_of_not_mem hc hfront

theorem not_hasWord_opening {opening rest : List Char} (hopening : Opening opening)
    (h : namePlain (opening ++ rest) = true) : ¬ HasWord "internal" opening := by
  obtain ⟨front, rfl, hfront⟩ := hopening.exists_append
  rw [namePlain, takeWhile_parenthesis hfront, beq_iff_eq, Pattern.count, List.length_eq_zero_iff,
    values_wholeWord_eq_nil_iff (by decide)] at h
  rintro ⟨a, b, heq, hstart, hend⟩
  have hmem : '(' ∈ b := by
    refine mem_of_getLast? (a := a) (by decide) ?_
    rw [← heq, List.getLast?_append_of_ne_nil _ (by decide)]
    rfl
  rw [← List.append_assoc] at heq
  rcases List.append_eq_append_iff.mp heq with ⟨more, hmore, hlast⟩ | ⟨more, rfl, rfl⟩
  · cases more with
    | nil =>
      rw [List.append_nil] at hmore
      exact h ⟨a, [], by rw [← hmore, List.append_nil], hstart, rfl⟩
    | cons c more =>
      have hnil := (List.append_eq_nil_iff.mp (List.cons.inj hlast).2.symm).2
      rw [hnil] at hmem
      cases hmem
  · refine h ⟨a, more, List.append_assoc .., hstart, ?_⟩
    cases more with
    | nil => rfl
    | cons c more => exact hend

theorem Header.ne_nil {t : List Char} (h : Header t) : t ≠ [] := by
  obtain ⟨hopening, -, -⟩ := h
  obtain ⟨front, rfl, -⟩ := hopening.exists_append
  simp

/-- A header that is rewritten behind its opening is a header with the same opening. -/
theorem Header.exists_addVirtual {header : List Char} (h : Header header)
    (hplain : (!lacksVirtual header || namePlain header) = true) :
    ∃ opening z z', Opening opening ∧ ')' ∈ z ∧ header = opening ++ z ∧
      addVirtual header = opening ++ z' ∧ Header (addVirtual header) := by
  obtain @⟨opening, params, tail, hopening, hparams, htail⟩ := h
  cases hlacks : lacksVirtual (opening ++ (params ++ (")".toList ++ tail))) with
  | false =>
    rw [addVirtual_of_not_lacksVirtual hlacks]
    exact ⟨opening, _, _, hopening, by simp, rfl, rfl, .form hopening hparams htail⟩
  | true =>
    rw [hlacks, Bool.not_true, Bool.false_or] at hplain
    obtain ⟨front, hfront, -⟩ := hopening.exists_append
    have hlast : opening.getLast? = some '(' := by
      rw [hfront, List.getLast?_append_of_ne_nil _ (by decide)]
      rfl
    have hends : ∀ c, ([] : List Char).head? = some c → EndsHeader c := by simp
    obtain ⟨a, b, hheader, hnew⟩ := addVirtual_behind hlacks hends hlast (by decide)
      (List.append_nil _) (not_hasWord_opening hopening hplain)
    have heq : params ++ (")".toList ++ tail) = a ++ "internal".toList ++ b :=
      (List.append_cancel_left hheader).trans (List.append_assoc ..).symm
    rw [hnew]
    refine ⟨opening, _, _, hopening, by simp, rfl, rfl, ?_⟩
    have hinsert : Header (opening ++ (a ++ "internal".toList ++ (" virtual".toList ++ b))) :=
      header_insert hopening hparams htail heq (by decide) (by simp [EndsHeader])
    rw [List.append_assoc] at hinsert
    exact hinsert

/-! ## Searching rewritten headers -/

/-- `SameFront cs out`: `out` is `cs`, or both are the same up to their first opening parenthesis,
and `cs` has a closing one behind it. -/
def SameFront (cs out : List Char) : Prop :=
  out = cs ∨ ∃ u x y, '(' ∉ u ∧ ')' ∈ x ∧ cs = u ++ "(".toList ++ x ∧ out = u ++ "(".toList ++ y

theorem SameFront.cons {cs out : List Char} (h : SameFront cs out) (c : Char) :
    SameFront (c :: cs) (c :: out) := by
  rcases h with rfl | ⟨u, x, y, hu, hx, rfl, rfl⟩
  · exact .inl rfl
  · by_cases hc : '(' = c
    · subst hc
      exact .inr ⟨[], _, _, by simp, by simp [hx], rfl, rfl⟩
    · exact .inr ⟨c :: u, x, y, by simp [hc, hu], hx, rfl, rfl⟩

theorem Opening.sameFront {opening z : List Char} (hopening : Opening opening) (hz : ')' ∈ z)
    (z' : List Char) : SameFront (opening ++ z) (opening ++ z') := by
  obtain ⟨front, rfl, hfront⟩ := hopening.exists_append
  exact .inr ⟨front, z, z', hfront, hz, rfl, rfl⟩

/-- No header starts where none started before. -/
theorem SameFront.functionHeader_eq_none {cs out : List Char} (h : SameFront cs out)
    {before : Option Char} (hnone : functionHeader before cs = none) :
    functionHeader before out = none := by
  rcases h with rfl | ⟨u, x, y, hu, hx, rfl, rfl⟩
  · exact hnone
  · cases hh : functionHeader before (u ++ "(".toList ++ y) with
    | none => rfl
    | some hit =>
      obtain ⟨_, rest, heq, -, -, hbefore, ⟨hopening, -, -⟩, -⟩ := takes_header _ _ _ hh
      obtain ⟨front, hfront, hnotMem⟩ := hopening.exists_append
      -- both are the text up to the first opening parenthesis
      have hsame : u = front := by
        rw [← takeWhile_parenthesis hu y, heq, hfront, List.append_assoc,
          takeWhile_parenthesis hnotMem]
      rw [← hsame] at hfront
      rw [← hfront] at hnone
      exact absurd hnone (functionHeader_ne_none hbefore hopening hx)

/-- Whether no header that is rewritten has the word `internal` in front of its parameters. -/
def namesPlain (ps : List (Piece Unit)) : Bool :=
  ps.all fun
    | .gap _ => true
    | .hit _ header => !lacksVirtual header || namePlain header

/-- A piece with its header rewritten. -/
def marked : Piece Unit → Piece Unit
  | .gap c => .gap c
  | .hit v header => .hit v (addVirtual header)

/-- A rewritten header is found again, and the search goes on behind it as before. -/
theorem pieces_addVirtual {header rest : List Char} (h : Header (addVirtual header))
    {before : Option Char} (hbefore : wordStart before = true)
    (hends : ∀ c, rest.head? = some c → EndsHeader c) :
    functionHeader.pieces before (addVirtual header ++ rest) =
      .hit () (addVirtual header) :: functionHeader.pieces header.getLast? rest := by
  rw [Pattern.pieces_of_hit (h.functionHeader_append hbefore hends) h.ne_nil (Hit.size_upTo ..),
    (ends_addVirtual header).2]

/-- A second search finds the headers that were rewritten. -/
theorem pieces_marked {before : Option Char} {cs : List Char}
    (h : namesPlain (functionHeader.pieces before cs) = true) :
    let ps := functionHeader.pieces before cs
    let out := ps.flatMap (Piece.replaced fun _ => addVirtual)
    out.head? = cs.head? ∧ SameFront cs out ∧ functionHeader.pieces before out = ps.map marked := by
  refine takes_header.induction (motive := fun before cs ps => namesPlain ps = true →
    let out := ps.flatMap (Piece.replaced fun _ => addVirtual)
    out.head? = cs.head? ∧ SameFront cs out ∧ functionHeader.pieces before out = ps.map marked)
    ?_ ?_ ?_ before cs h
  · exact fun _ _ => ⟨rfl, .inl rfl, Pattern.pieces.eq_1 ..⟩
  · intro before c cs hnone ih hapart
    obtain ⟨-, hfront, hpieces⟩ := ih hapart
    have hnone' := (hfront.cons c).functionHeader_eq_none hnone
    refine ⟨rfl, hfront.cons c, ?_⟩
    rw [List.map_cons, ← hpieces]
    exact Pattern.pieces_of_gap hnone'
  · rintro before v t rest ht ⟨hbefore, hheader, hends⟩ ih hapart
    obtain ⟨hplain, hrest⟩ := Bool.and_eq_true_iff.mp hapart
    obtain ⟨hhead, -, hpieces⟩ := ih hrest
    obtain ⟨opening, z, z', hopening, hz, hopened, hnew, hheader'⟩ :=
      hheader.exists_addVirtual hplain
    refine ⟨?_, ?_, ?_⟩
    · rw [List.flatMap_cons, Piece.replaced, List.head?_append, List.head?_append,
        (ends_addVirtual t).1, hhead]
    · rw [List.flatMap_cons, Piece.replaced, hnew, hopened, List.append_assoc, List.append_assoc]
      exact hopening.sameFront (List.mem_append_left rest hz) _
    · rw [List.flatMap_cons, Piece.replaced,
        pieces_addVirtual hheader' hbefore (fun c hc => hends c (hhead ▸ hc)), hpieces]
      rfl

theorem flatMap_replaced_marked (ps : List (Piece Unit)) :
    (ps.map marked).flatMap (Piece.replaced fun _ => addVirtual) =
      ps.flatMap (Piece.replaced fun _ => addVirtual) := by
  rw [List.flatMap_map]
  refine List.flatMap_congr fun piece _ => ?_
  cases piece with
  | gap c => rfl
  | hit v header => exact addVirtual_addVirtual header

theorem not_lacksVirtual_marked (ps : List (Piece Unit)) :
    (ps.map marked).countP (fun
      | .gap _ => false
      | .hit _ header => lacksVirtual header) = 0 := by
  refine List.countP_eq_zero.mpr fun piece hpiece => ?_
  obtain ⟨piece, -, rfl⟩ := List.mem_map.mp hpiece
  cases piece with
  | gap c => exact Bool.false_ne_true
  | hit v header => simp [marked, lacksVirtual_addVirtual]

/-- Whether the headers of a text that are rewritten have the word `internal` only behind their
names. -/
def headersApart (cs : List Char) : Bool := namesPlain (functionHeader.split cs)

/-- **Headers with `internal` behind their names are marked at once.** -/
theorem markInternalVirtual_again {cs : List Char} (h : headersApart cs = true) :
    markInternalVirtual (markInternalVirtual cs).text = ⟨(markInternalVirtual cs).text, 0⟩ := by
  have hpieces : functionHeader.split (markInternalVirtual cs).text =
      (functionHeader.split cs).map marked := (pieces_marked h).2.2
  have htext : functionHeader.replace (fun _ => addVirtual) (markInternalVirtual cs).text =
      (markInternalVirtual cs).text := by
    rw [Pattern.replace_eq, ← Pattern.split, hpieces, flatMap_replaced_marked]
    rfl
  have hcount := not_lacksVirtual_marked (functionHeader.split cs)
  rw [← hpieces] at hcount
  exact congrArg₂ Transformed.mk htext hcount

end Fix

/-! ## All rules -/

/-- Whether what a rule removes or rewrites in a text stands apart from what is around it. -/
def FixRule.standsApart : FixRule → List Char → Bool
  | stripOverride => overridesApart
  | markInternalVirtual => headersApart
  | stripOnlyInitializing => guardsApart
  | relaxExactPragma => fun _ => true
  | dedupeLicense => licensesApart

/-- **A rule is idempotent where it stands apart.** Applied to its own text again, every rule leaves
the text as it is and finds nothing to change, if

- no `override` and no `onlyInitializing` that is removed is followed by an ending of the same word,
  nor a guard by a definition of the modifier;
- no function header that is rewritten has the word `internal` in its name;
- no licence line that is removed is followed by the words of one without their slashes.

Relaxing exact pragmas needs no condition. -/
theorem transform_idempotent (rule : FixRule) {cs : List Char} (h : rule.standsApart cs = true) :
    rule.transform (rule.transform cs).text = ⟨(rule.transform cs).text, 0⟩ := by
  cases rule with
  | stripOverride => exact stripOverride_again h
  | markInternalVirtual => exact markInternalVirtual_again h
  | stripOnlyInitializing => exact stripOnlyInitializing_again h
  | relaxExactPragma =>
    exact (Relaxed.rest (relaxed_relaxExactPragma cs).lacksExact).eq
  | dedupeLicense => exact dedupeLicense_again h

/-- A contract that calls for every rule. -/
def upgradeableVault : String :=
  "// SPDX-License-Identifier: MIT\n// SPDX-License-Identifier: GPL-3.0\n" ++
  "pragma solidity 0.8.20;\ncontract Vault \x7b\n" ++
  "  modifier onlyInitializing() \x7b _; \x7d\n" ++
  "  function init() internal onlyInitializing override(A, B) \x7b\x7d\n\x7d\n"

/-- Every rule changes the contract once, and then not again. -/
theorem transform_idempotent_upgradeableVault :
    (FixRule.all.all fun rule => rule.standsApart upgradeableVault.toList &&
      (rule.transform upgradeableVault.toList).occurrences == 1) = true ∧
    (FixRule.all.map fun rule => rule.transform (rule.transform upgradeableVault.toList).text) =
      FixRule.all.map fun rule => ⟨(rule.transform upgradeableVault.toList).text, 0⟩ := by
  have hapart : (FixRule.all.all fun rule => rule.standsApart upgradeableVault.toList &&
      (rule.transform upgradeableVault.toList).occurrences == 1) = true := by decide +kernel
  refine ⟨hapart, List.map_congr_left fun rule hrule => transform_idempotent rule ?_⟩
  exact (Bool.and_eq_true_iff.mp (List.all_eq_true.mp hapart rule hrule)).1

/-- A word with its own qualifier in it, for the rules that remove one; a header within the comment
of another one that is broken by `virtual` in its name; and a comment before a licence line with words
behind it that are those of another one. -/
def relapsing : FixRule → String
  | .stripOverride => " over override()ride"
  | .markInternalVirtual => "function $internal() public /* see function g() internal */ \x7b\x7d"
  | .stripOnlyInitializing => " only onlyInitializing()Initializing"
  | .relaxExactPragma => ""
  | .dedupeLicense =>
    "// SPDX-License-Identifier: MIT\n//\n// SPDX-License-Identifier: GPL-3.0\n" ++
    "SPDX-License-Identifier: X\n"

/-- **A second pass finds what the first one left**, for every rule but the one for pragmas. -/
theorem transform_not_idempotent :
    ([.stripOverride, .markInternalVirtual, .stripOnlyInitializing, .dedupeLicense].all
      fun rule : FixRule =>
        let once := (rule.transform (relapsing rule).toList).text
        (rule.transform once).occurrences == 1 && (rule.transform once).text != once) = true := by
  decide +kernel

end ContractBuild
