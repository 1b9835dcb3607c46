import ContractBuild.Proofs.Edits
import ContractBuild.Proofs.Fix.Descent

/-!
# String literals and the rules

The rules look at the text only, so a word they look for is changed inside a string literal too
(`fixSource_rewrites_literal`), and what they remove from code or from a comment may bring a comment
mark together or take the end of a comment with it.

- **Edits** (`FixRule.edit`): the stretches of a text that a rule keeps and those that it changes.
- **Literals** (`literals_fixSource`): where no changed stretch touches a literal and every one
  starts and ends at one place, in code or in a comment, the literals stay.
-/

namespace ContractBuild

open ContractBuild.Fix Solidity Text Stretch

/-! ## Edits of a rule -/

namespace Fix

variable {α : Type}

/-- A header whose first hit is marked as virtual. -/
def editHeader : List (Piece α) → List Stretch
  | [] => []
  | .gap c :: rest => .kept c :: editHeader rest
  | .hit _ t :: rest =>
    keepAll t ++ .changed [] " virtual".toList :: keepAll (rest.flatMap Piece.text)

/-- The pieces without hits, apart from the first one. -/
def editLicenses : List (Piece α) → List Stretch
  | [] => []
  | .gap c :: rest => .kept c :: editLicenses rest
  | .hit _ t :: rest => keepAll t ++ withoutHits rest

end Fix

/-- What a rule keeps of a text and what it changes. -/
def FixRule.edit : FixRule → List Char → List Stretch
  | .stripOverride, cs => withoutHits (overrideQualifier.split cs)
  | .markInternalVirtual, cs =>
    ofPieces (fun _ header =>
      if lacksVirtual header then editHeader ((wholeWord "internal").split header)
      else keepAll header) (functionHeader.split cs)
  | .stripOnlyInitializing, cs =>
    ofPieces (fun definition t => if definition then keepAll t else [.changed t []])
      (initializerGuard.split cs)
  | .relaxExactPragma, cs =>
    ofPieces (fun version t => [.changed t ("pragma solidity ^".toList ++ version ++ [';'])])
      (exactPragma.split cs)
  | .dedupeLicense, cs => editLicenses (licenseComment.split cs)

namespace Fix

variable {α : Type}

theorem oldText_editHeader (pieces : List (Piece α)) :
    oldText (editHeader pieces) = pieces.flatMap Piece.text := by
  induction pieces with
  | nil => rfl
  | cons piece pieces ih =>
    cases piece with
    | gap c => exact congrArg (c :: ·) ih
    | hit v t => simp [editHeader, oldText_append, oldText_cons, Stretch.old, Piece.text]

/-- `virtual` stands behind the first `internal`. -/
theorem newText_editHeader (header : List Char) :
    newText (editHeader ((wholeWord "internal").split header)) =
      replaceFirst "internal virtual".toList ((wholeWord "internal").split header) := by
  refine (Pattern.takes_wholeWord (w := "internal") (by decide)).induction
    (motive := fun _ _ ps => newText (editHeader ps) = replaceFirst "internal virtual".toList ps)
    (fun _ => rfl) ?_ ?_ none header
  · intro _ c cs _ ih
    exact congrArg (c :: ·) ih
  · rintro _ _ t rest - ⟨rfl, -⟩ -
    rw [editHeader, replaceFirst, newText_append, newText_cons, newText_keepAll, newText_keepAll,
      ← List.append_assoc]
    rfl

theorem oldText_editLicenses (pieces : List (Piece α)) :
    oldText (editLicenses pieces) = pieces.flatMap Piece.text := by
  induction pieces with
  | nil => rfl
  | cons piece pieces ih =>
    cases piece with
    | gap c => exact congrArg (c :: ·) ih
    | hit v t =>
      rw [editLicenses, oldText_append, oldText_keepAll, oldText_withoutHits]
      rfl

theorem newText_editLicenses (pieces : List (Piece α)) :
    newText (editLicenses pieces) = keepFirst pieces := by
  induction pieces with
  | nil => rfl
  | cons piece pieces ih =>
    cases piece with
    | gap c => exact congrArg (c :: ·) ih
    | hit v t => rw [editLicenses, keepFirst, newText_append, newText_keepAll, newText_withoutHits]

/-! ## What is written -/

theorem isInert_editHeader {pieces : List (Piece α)} {old new : List Char}
    (h : changed old new ∈ editHeader pieces) : new.all isInert = true := by
  induction pieces with
  | nil => cases h
  | cons piece pieces ih =>
    cases piece with
    | gap c => exact ih (by simpa [editHeader] using h)
    | hit v t =>
      simp only [editHeader, List.mem_append, List.mem_cons, not_mem_keepAll, false_or,
        or_false] at h
      cases h
      decide

theorem isInert_editLicenses {pieces : List (Piece α)} {old new : List Char}
    (h : changed old new ∈ editLicenses pieces) : new.all isInert = true := by
  induction pieces with
  | nil => cases h
  | cons piece pieces ih =>
    cases piece with
    | gap c => exact ih (by simpa [editLicenses] using h)
    | hit v t =>
      simp only [editLicenses, List.mem_append, not_mem_keepAll, false_or] at h
      obtain ⟨_, u, -, hmem⟩ := exists_hit_of_mem_ofPieces h
      cases List.mem_singleton.1 hmem
      rfl

theorem isInert_of_isVersion {c : Char} (h : isDigit c = true ∨ c = '.') : isInert c = true := by
  rcases h with hdigit | rfl
  · have hne (d : Char) (hd : isDigit d = false) : c ≠ d := by
      rintro rfl
      rw [hd] at hdigit
      cases hdigit
    simp only [isInert, isQuote, Bool.and_eq_true, Bool.not_eq_true', Bool.or_eq_false_iff,
      beq_eq_false_iff_ne, bne_iff_ne]
    exact ⟨⟨⟨⟨hne _ rfl, hne _ rfl⟩, hne _ rfl⟩, hne _ rfl⟩, hne _ rfl⟩
  · rfl

end Fix

namespace FixRule

/-- An edit starts from the text. -/
theorem oldText_edit (rule : FixRule) (cs : List Char) : oldText (rule.edit cs) = cs := by
  cases rule with
  | stripOverride => rw [edit, oldText_withoutHits, Pattern.split, Pattern.text_pieces]
  | markInternalVirtual =>
    rw [edit, oldText_ofPieces, Pattern.split, Pattern.text_pieces]
    intro _ header _
    split
    · rw [oldText_editHeader, Pattern.split, Pattern.text_pieces]
    · exact oldText_keepAll header
  | stripOnlyInitializing =>
    rw [edit, oldText_ofPieces, Pattern.split, Pattern.text_pieces]
    intro definition t _
    cases definition with
    | true => exact oldText_keepAll t
    | false => exact List.append_nil t
  | relaxExactPragma =>
    rw [edit, oldText_ofPieces, Pattern.split, Pattern.text_pieces]
    exact fun _ t _ => List.append_nil t
  | dedupeLicense => rw [edit, oldText_editLicenses, Pattern.split, Pattern.text_pieces]

/-- An edit ends with the text that the rule gives. -/
theorem newText_edit (rule : FixRule) (cs : List Char) :
    newText (rule.edit cs) = (rule.transform cs).text := by
  cases rule with
  | stripOverride => rw [edit, newText_withoutHits]; rfl
  | markInternalVirtual =>
    refine newText_ofPieces fun _ header _ => ?_
    dsimp only [addVirtual]
    split
    · exact newText_editHeader header
    · exact newText_keepAll header
  | stripOnlyInitializing =>
    refine newText_ofPieces fun definition t _ => ?_
    cases definition with
    | true => exact newText_keepAll t
    | false => rfl
  | relaxExactPragma => exact newText_ofPieces fun _ _ _ => List.append_nil _
  | dedupeLicense => rw [edit, newText_editLicenses]; rfl

/-- What a rule writes is inert. -/
theorem isInert_edit (rule : FixRule) {cs old new : List Char}
    (h : changed old new ∈ rule.edit cs) : new.all isInert = true := by
  cases rule with
  | stripOverride =>
    obtain ⟨_, t, -, hmem⟩ := exists_hit_of_mem_ofPieces h
    cases List.mem_singleton.1 hmem
    rfl
  | markInternalVirtual =>
    obtain ⟨_, header, -, hmem⟩ := exists_hit_of_mem_ofPieces h
    split at hmem
    · exact isInert_editHeader hmem
    · exact absurd hmem not_mem_keepAll
  | stripOnlyInitializing =>
    obtain ⟨definition, t, -, hmem⟩ := exists_hit_of_mem_ofPieces h
    cases definition with
    | true => exact absurd hmem not_mem_keepAll
    | false =>
      cases List.mem_singleton.1 hmem
      rfl
  | relaxExactPragma =>
    obtain ⟨version, t, hhit, hmem⟩ := exists_hit_of_mem_ofPieces h
    cases List.mem_singleton.1 hmem
    obtain ⟨-, -, rest, hform⟩ := takes_exactForm.of_mem_pieces hhit
    rw [List.all_append, List.all_append, Bool.and_eq_true, Bool.and_eq_true]
    refine ⟨⟨by decide, List.all_eq_true.2 fun c hc => ?_⟩, by decide⟩
    exact isInert_of_isVersion (hform.isVersion.isDigit_or_point c hc)
  | dedupeLicense => exact isInert_editLicenses h

/-- Whether the stretches of a text that a rule changes touch no literal, and each of them starts
and ends at one place. -/
def spares (rule : FixRule) (cs : List Char) : Bool :=
  keepsPlaces .code .code (rule.edit cs) && avoidsLiterals .code (rule.edit cs)

/-- A rule that spares the literals of a text leaves them as they are. -/
theorem literals_transform (rule : FixRule) {cs : List Char} (hquotes : quotesClosed cs = true)
    (h : rule.spares cs = true) :
    literals (rule.transform cs).text = literals cs ∧
      quotesClosed (rule.transform cs).text = true := by
  obtain ⟨hplaces, hsafe⟩ := Bool.and_eq_true_iff.1 h
  have hedit := literals_newText (fun _ _ => rule.isInert_edit)
    (by rwa [rule.oldText_edit]) hplaces hsafe
  rwa [rule.oldText_edit, rule.newText_edit] at hedit

end FixRule

/-! ## Repairs -/

namespace FixOutcome

/-- Whether each of some rules, applied one after the other, spares the literals of the text that it
is applied to. -/
def spares (forClass : FailureClass) (o : FixOutcome) : List FixRule → Bool
  | [] => true
  | rule :: rules => rule.spares o.text.toList && spares forClass (o.apply forClass rule) rules

theorem literals_apply {o : FixOutcome} {rule : FixRule} (forClass : FailureClass)
    (hquotes : quotesClosed o.text.toList = true) (h : rule.spares o.text.toList = true) :
    literals (o.apply forClass rule).text.toList = literals o.text.toList ∧
      quotesClosed (o.apply forClass rule).text.toList = true := by
  unfold apply
  dsimp only
  split
  · exact ⟨rfl, hquotes⟩
  · simpa using rule.literals_transform hquotes h

theorem literals_foldl_apply (forClass : FailureClass) (rules : List FixRule) {o : FixOutcome}
    (hquotes : quotesClosed o.text.toList = true) (h : o.spares forClass rules = true) :
    literals (rules.foldl (apply forClass) o).text.toList = literals o.text.toList := by
  induction rules generalizing o with
  | nil => rfl
  | cons rule rules ih =>
    obtain ⟨hrule, hrules⟩ := Bool.and_eq_true_iff.1 h
    obtain ⟨hsame, hclosed⟩ := literals_apply forClass hquotes hrule
    rw [List.foldl_cons, ih hclosed hrules, hsame]

end FixOutcome

/-- **A repair leaves the string literals as they are**, if every quote of the text belongs to a
literal or a comment, and each rule changes only stretches that touch no literal and that start and
end at one place, in code or in one comment. -/
theorem literals_fixSource (text : String) (c : FailureClass)
    (hquotes : quotesClosed text.toList = true)
    (hspares : FixOutcome.spares c { text } (FixRule.servingClass c) = true) :
    literals (fixSource text c).text.toList = literals text.toList :=
  FixOutcome.literals_foldl_apply c _ hquotes hspares

/-- A text with the word `override` in code, in a comment and in a literal. -/
def overridingMembers : String :=
  "string s = \"override\"; // may override\nfunction f() internal override(A) onlyInitializing;"

/-- The broad sweep changes the code and the comment, and the literal stays. -/
theorem literals_fixSource_overridingMembers :
    quotesClosed overridingMembers.toList = true ∧
      FixOutcome.spares .aggressive { text := overridingMembers }
        (FixRule.servingClass .aggressive) = true ∧
      (fixSource overridingMembers .aggressive).ruleIds =
        ["strip-override", "mark-internal-virtual", "strip-only-initializing"] ∧
      literals (fixSource overridingMembers .aggressive).text.toList =
        literals overridingMembers.toList := by
  have hquotes : quotesClosed overridingMembers.toList = true := by decide +kernel
  have hspares : FixOutcome.spares .aggressive { text := overridingMembers }
      (FixRule.servingClass .aggressive) = true := by decide +kernel
  exact ⟨hquotes, hspares, by decide +kernel, literals_fixSource _ _ hquotes hspares⟩

/-- A qualifier that is removed between two slashes makes them a comment, which takes the literal
behind it. -/
example : literals "a / override/ \"x\"".toList = ["\"x\"".toList] ∧
    literals (fixSource "a / override/ \"x\"" .invalidOverride).text.toList = [] := by
  decide +kernel

/-- A contract with ` override` in a string literal. -/
def quotingContract : String := "contract C \x7b string s = \"an override here\"; \x7d\n"

/-- **A repair rewrites a string literal** that holds a word it looks for. -/
theorem fixSource_rewrites_literal :
    literals quotingContract.toList = ["\"an override here\"".toList] ∧
      literals (fixSource quotingContract .invalidOverride).text.toList =
        ["\"an here\"".toList] := by
  decide +kernel

end ContractBuild
