import ContractBuild.Proofs.Directives.ImportForms

/-!
# The layout of a module

A module is laid out as a licence line, a version pragma, the import directives, one a line, and a
body. `Layout` admits the parts such a text is made of, and `Layout.print` writes it.

- **Versions**: the pragma is recognised where it is written
  (`VersionExpression.pragmaDirective_directive`) and has single spaces only
  (`VersionExpression.collapsed_directive`).
- **Licences**: the line is recognised at the start of a line
  (`LicenseExpression.licenseLine_line`), and what it declares is the licence as written
  (`LicenseExpression.trim_dropClosers`).
- **Lines and bodies**: no licence line starts in a line that starts otherwise
  (`throughout_licenseLine`), and no directive of any kind in a body (`ModuleBody.absent`).
-/

namespace ContractBuild

open Text

/-! ## Words and spaces -/

namespace Text

/-- The front of a text up to a cut. -/
theorem splitWhere_append {p : Char → Bool} {w : List Char} {x : Char} (hw : ∀ c ∈ w, p c = false)
    (hx : p x = true) (cs : List Char) : splitWhere p (w ++ x :: cs) = w :: splitWhere p cs := by
  induction w with
  | nil => simp [splitWhere, hx]
  | cons c w ih =>
    obtain ⟨hc, hw⟩ := List.forall_mem_cons.mp hw
    simp [splitWhere, hc, ih hw]

theorem splitWhere_eq_singleton {p : Char → Bool} {w : List Char} (hw : ∀ c ∈ w, p c = false) :
    splitWhere p w = [w] := by
  induction w with
  | nil => rfl
  | cons c w ih =>
    obtain ⟨hc, hw⟩ := List.forall_mem_cons.mp hw
    simp [splitWhere, hc, ih hw]

/-- A text of words with single spaces between them. -/
def Collapsed (cs : List Char) : Prop := words cs ≠ [] ∧ [' '].intercalate (words cs) = cs

section

variable {w cs : List Char}

theorem collapsed_word (hw : w ≠ []) (hspace : ∀ c ∈ w, isSpace c = false) : Collapsed w := by
  have hwords : words w = [w] := by simp [words, splitWhere_eq_singleton hspace, hw]
  rw [Collapsed, hwords]
  exact ⟨List.cons_ne_nil _ _, List.intercalate_singleton⟩

theorem Collapsed.cons (hw : w ≠ []) (hspace : ∀ c ∈ w, isSpace c = false) (h : Collapsed cs) :
    Collapsed (w ++ ' ' :: cs) := by
  have hwords : words (w ++ ' ' :: cs) = w :: words cs := by
    rw [words, splitWhere_append hspace (by decide), List.filter_cons_of_pos (by simpa using hw)]
    rfl
  obtain ⟨hne, hjoin⟩ := h
  rw [Collapsed, hwords]
  refine ⟨List.cons_ne_nil _ _, ?_⟩
  obtain ⟨w', ws, hws⟩ := List.exists_cons_of_ne_nil hne
  rw [hws] at hjoin ⊢
  rw [List.intercalate_cons_cons, hjoin, List.append_assoc, List.singleton_append]

/-- Words with single spaces between them, and a mark behind the last. -/
theorem collapsed_intercalate {ws : List (List Char)} {x : Char} (hx : isSpace x = false)
    (hne : ws ≠ []) (hws : ∀ w ∈ ws, w ≠ [] ∧ ∀ c ∈ w, isSpace c = false) :
    Collapsed ([' '].intercalate ws ++ [x]) := by
  induction ws with
  | nil => exact absurd rfl hne
  | cons w ws ih =>
    obtain ⟨⟨hw, hspace⟩, hws⟩ := List.forall_mem_cons.mp hws
    cases ws with
    | nil =>
      rw [List.intercalate_singleton]
      exact collapsed_word (by simp) (List.forall_mem_append.mpr ⟨hspace, by simpa using hx⟩)
    | cons w' ws =>
      rw [List.intercalate_cons_cons, List.append_assoc, List.append_assoc]
      exact .cons hw hspace (ih (List.cons_ne_nil _ _) hws)

end

/-- A text without spaces around it begins and ends with none. -/
theorem trimStart_and_trimEnd_of_trim {cs : List Char} (h : trim cs = cs) :
    trimStart cs = cs ∧ trimEnd cs = cs := by
  have hend : (trim cs).length ≤ (trimStart cs).length := by
    have := (List.dropWhile_suffix isSpace (l := (trimStart cs).reverse)).length_le
    simpa [trim, trimEnd, dropEndWhile] using this
  have hsuffix : trimStart cs <:+ cs := List.dropWhile_suffix isSpace
  have hstart : trimStart cs = cs := by
    refine hsuffix.eq_of_length (Nat.le_antisymm hsuffix.length_le ?_)
    rwa [h] at hend
  refine ⟨hstart, ?_⟩
  rwa [trim, hstart] at h

/-- Where nothing of a class is dropped, nothing of a smaller class is. -/
theorem dropWhile_eq_self_of_imp {p q : Char → Bool} {cs : List Char}
    (hpq : ∀ c, q c = true → p c = true) (h : cs.dropWhile p = cs) : cs.dropWhile q = cs :=
  List.dropWhile_eq_self_iff.mpr fun hl hq => List.dropWhile_eq_self_iff.mp h hl (hpq _ hq)

theorem dropEndWhile_eq_self {p : Char → Bool} {cs : List Char} :
    dropEndWhile p cs = cs ↔ cs.reverse.dropWhile p = cs.reverse := by
  rw [dropEndWhile, List.reverse_eq_iff]

end Text

namespace Solidity

/-! ## Versions -/

/-- A character of a version expression. -/
def isVersionChar (c : Char) : Bool := c.isDigit || ".^~<>=|-".toList.contains c

theorem toNat_of_isVersionChar {c : Char} (h : isVersionChar c = true) : c.toNat < 128 := by
  rcases Bool.or_eq_true_iff.mp h with hdigit | hmem
  · exact toNat_of_isAlphanum (by simp [Char.isAlphanum, hdigit])
  · have hall : (".^~<>=|-".toList.all fun x => x.toNat < 128) = true := by decide
    exact of_decide_eq_true (List.all_eq_true.mp hall c (List.contains_iff_mem.mp hmem))

theorem isSpace_of_isVersionChar {c : Char} (h : isVersionChar c = true) : isSpace c = false :=
  of_ascii (P := fun c => isVersionChar c = true → isSpace c = false)
    (toNat_of_isVersionChar h) (by decide +kernel) h

/-- A character of a line that is neither a letter nor the semicolon that ends a pragma. -/
def isVersionTextChar (c : Char) : Bool := isLineChar c && c != ';' && !c.isAlpha

theorem isVersionTextChar_of_isVersionChar (c : Char) (h : isVersionChar c = true) :
    isVersionTextChar c = true :=
  of_ascii (P := fun c => isVersionChar c = true → isVersionTextChar c = true)
    (toNat_of_isVersionChar h) (by decide +kernel) h

/-- A version expression: words of digits and comparison signs. -/
structure VersionExpression where
  parts : List String
  parts_ne : parts ≠ []
  part_ne : ∀ w ∈ parts, w ≠ ""
  part_chars : ∀ w ∈ parts, w.toList.all isVersionChar = true

namespace VersionExpression

variable (v : VersionExpression)

/-- The words with single spaces between them. -/
def text : String := " ".intercalate v.parts

/-- The version pragma. -/
def directive : String := "pragma solidity " ++ v.text ++ ";"

theorem toList_directive :
    v.directive.toList = "pragma solidity ".toList ++ (v.text.toList ++ [';']) := by
  unfold directive
  rw [String.toList_append, String.toList_append, List.append_assoc]
  rfl

theorem chars_text : v.text.toList.all isVersionTextChar = true := by
  rw [text, String.toList_intercalate]
  refine all_intercalate (by decide) (List.forall_mem_map.mpr fun w hw => ?_)
  exact all_mono (v.part_chars w hw) isVersionTextChar_of_isVersionChar

theorem text_ne : v.text.toList ≠ [] := by
  obtain ⟨w, ws, hparts⟩ := List.exists_cons_of_ne_nil v.parts_ne
  have hw : w.toList ≠ [] := by simpa using v.part_ne w (by simp [hparts])
  rw [text, String.toList_intercalate, hparts]
  cases ws with
  | nil => simpa [List.intercalate_singleton] using hw
  | cons w' ws => simp [List.intercalate_cons_cons]

/-- **The pragma is recognised where it is written,** whatever follows it. -/
theorem pragmaDirective_directive (before : Option Char) (rest : List Char) :
    pragmaDirective before (v.directive.toList ++ rest) =
      some (.upTo () (v.directive.toList ++ rest) rest) := by
  have hhead : pragmaHead (v.directive.toList ++ rest) =
      some (' ' :: (v.text.toList ++ ';' :: rest)) := by
    rw [toList_directive, List.append_assoc, List.append_assoc]
    rfl
  have hchars : ∀ c ∈ ' ' :: v.text.toList, (c != ';') = true := by
    refine List.forall_mem_cons.mpr ⟨by decide, List.all_eq_true.mp (all_mono v.chars_text ?_)⟩
    intro c hc
    simp only [isVersionTextChar, Bool.and_eq_true] at hc
    exact hc.1.2
  have hspan : spanOf (· != ';') (' ' :: (v.text.toList ++ ';' :: rest)) =
      (' ' :: v.text.toList, ';' :: rest) := spanOf_cut hchars (by decide) rest
  have hsize : 0 < v.text.toList.length := List.length_pos_iff.mpr v.text_ne
  have hblank : isSpace ' ' = true := by decide
  have hend : literal ";" (';' :: rest) = some rest := rfl
  simp only [pragmaDirective, hhead, Option.bind_eq_bind, Option.bind_some, hspan, List.head?_cons,
    Option.any_some, hblank, List.length_cons, Bool.true_and, hend, Option.pure_def]
  rw [decide_eq_true (by omega)]
  rfl

theorem isCode_directive : IsCode v.directive.toList ∧ '\n' ∉ v.directive.toList := by
  have htext : v.text.toList.all isLineChar = true := by
    refine all_mono v.chars_text fun c hc => ?_
    simp only [isVersionTextChar, Bool.and_eq_true] at hc
    exact hc.1.1
  refine isCode_of_isLineChar ?_
  rw [toList_directive, List.all_append, List.all_append, htext]
  rfl

/-- **The pragma has single spaces only.** -/
theorem collapsed_directive : Collapsed v.directive.toList := by
  have hword (w : String) (h : w.toList.all isIdentChar = true) :
      ∀ c ∈ w.toList, isSpace c = false :=
    fun c hc => (isIdentPart_of_isIdentChar (List.all_eq_true.mp h c hc)).2
  have htext : Collapsed (v.text.toList ++ [';']) := by
    rw [text, String.toList_intercalate]
    refine collapsed_intercalate (by decide) (by simpa using v.parts_ne) ?_
    refine List.forall_mem_map.mpr fun w hw => ⟨by simpa using v.part_ne w hw, fun c hc => ?_⟩
    exact isSpace_of_isVersionChar (List.all_eq_true.mp (v.part_chars w hw) c hc)
  rw [toList_directive]
  exact .cons (by decide) (hword "pragma" (by decide))
    (.cons (by decide) (hword "solidity" (by decide)) htext)

/-- No import starts in the line of the pragma. -/
theorem absent_directive {before : Option Char} (rest : List Char) :
    Throughout (fun _ cs => ¬ "import".toList <+: cs) before v.directive.toList rest := by
  have hversion : ¬ "import".toList <:+: v.text.toList := by
    intro h
    have hi : 'i' ∈ v.text.toList := h.subset (by decide)
    exact absurd (List.all_eq_true.mp v.chars_text _ hi) (by decide)
  rw [toList_directive]
  refine throughout_append.mpr ⟨?_, throughout_append.mpr ⟨throughout_absent hversion ?_, ?_⟩⟩
  · exact throughout_absent_of_getLast (by decide +kernel) rfl (by decide)
  · decide
  · exact throughout_absent_of_getLast (by decide +kernel) rfl (by decide)

end VersionExpression

/-! ## Licences -/

/-- A licence expression: one line that neither begins nor ends with a space and does not close a
comment. -/
structure LicenseExpression where
  text : String
  text_ne : text ≠ ""
  trimmed : trim text.toList = text.toList
  oneLine : '\n' ∉ text.toList
  unclosed : ¬ "*/".toList <:+ text.toList
  absent : ∀ w ∈ ["import", "pragma"], ¬ w.toList <:+: text.toList

theorem isSpace_of_isBlank (c : Char) (h : isBlank c = true) : isSpace c = true := by
  rcases Bool.or_eq_true_iff.mp h with h | h
  · rw [eq_of_beq h]
    decide
  · rw [eq_of_beq h]
    decide

/-- A text that does not end in a space has no carriage return at its end. -/
theorem dropReturn_eq_self {cs : List Char} (h : trimEnd cs = cs) : dropReturn cs = cs := by
  have hlast : cs.getLast? ≠ some '\r' := by
    intro hlast
    rw [trimEnd, dropEndWhile_eq_self] at h
    rw [List.getLast?_eq_head?_reverse, ← h] at hlast
    exact absurd (head?_dropWhile_ne hlast) (by decide)
  rw [dropReturn, if_neg (by simpa using hlast)]

/-- A text that does not end in a comment closer has none dropped. -/
theorem dropClosers_eq_self {cs : List Char} (h : ¬ "*/".toList <:+ cs) : dropClosers cs = cs := by
  have hreversed : dropClosersReversed cs.reverse = cs.reverse := by
    unfold dropClosersReversed
    split
    · rename_i rest heq
      refine absurd ⟨rest.reverse, ?_⟩ h
      rw [← List.reverse_reverse cs, heq]
      simp
    · rfl
  rw [dropClosers, hreversed, List.reverse_reverse]

namespace LicenseExpression

variable (l : LicenseExpression)

/-- The licence line, a comment. -/
def line : List Char := commentLine (" SPDX-License-Identifier: ".toList ++ l.text.toList)

theorem line_eq :
    l.line = "// SPDX-License-Identifier: ".toList ++ (l.text.toList ++ ['\n']) := by
  simp [line, commentLine]

/-- What is read from a licence line is the licence as written. -/
theorem dropBlanks :
    dropEndWhile isBlank (dropReturn ((' ' :: l.text.toList).dropWhile isBlank)) =
      l.text.toList := by
  obtain ⟨hstart, hend⟩ := trimStart_and_trimEnd_of_trim l.trimmed
  have hfront : l.text.toList.dropWhile isBlank = l.text.toList :=
    dropWhile_eq_self_of_imp isSpace_of_isBlank hstart
  have hback : dropEndWhile isBlank l.text.toList = l.text.toList := by
    rw [trimEnd, dropEndWhile_eq_self] at hend
    rw [dropEndWhile_eq_self]
    exact dropWhile_eq_self_of_imp isSpace_of_isBlank hend
  rw [List.dropWhile_cons_of_pos (by decide), hfront, dropReturn_eq_self hend, hback]

theorem trim_dropClosers : trim (dropClosers l.text.toList) = l.text.toList := by
  rw [dropClosers_eq_self l.unclosed, l.trimmed]

/-- **A licence line is recognised where it is written,** at the start of a line. -/
theorem licenseLine_line {before : Option Char} (hbefore : lineStart before = true)
    (rest : List Char) :
    licenseLine before (l.line ++ rest) = some (.upTo l.text.toList (l.line ++ rest) rest) := by
  have hhead : licenseHead before (l.line ++ rest) =
      some (' ' :: (l.text.toList ++ '\n' :: rest)) := by
    rw [licenseHead, hbefore, line_eq, List.append_assoc, List.append_assoc]
    rfl
  have hchars : ∀ c ∈ ' ' :: l.text.toList, (c != '\n') = true := by
    refine List.forall_mem_cons.mpr ⟨by decide, fun c hc => bne_iff_ne.mpr ?_⟩
    rintro rfl
    exact l.oneLine hc
  have hspan : restOfLine (' ' :: (l.text.toList ++ '\n' :: rest)) =
      (' ' :: l.text.toList, '\n' :: rest) := spanOf_cut hchars (by decide) rest
  simp only [licenseLine, hhead, Option.bind_eq_bind, Option.bind_some, hspan, dropBlanks,
    skipLineBreak, Option.pure_def]

theorem commentMask_line (rest : List Char) :
    commentMask (l.line ++ rest) = l.line.map (· != '\n') ++ commentMask rest := by
  refine Solidity.commentMask_line (fun h => ?_) rest
  rcases List.mem_append.mp h with h | h
  · exact absurd h (by decide)
  · exact l.oneLine h

/-- No other directive starts in a licence line. -/
theorem absent_line {w : String} (hw : w ∈ ["import", "pragma"]) {before : Option Char}
    (rest : List Char) :
    Throughout (fun _ cs => ¬ w.toList <+: cs) before l.line rest := by
  have hhead : ∀ w ∈ ["import", "pragma"],
      ¬ w.toList <:+: "// SPDX-License-Identifier: ".toList ∧ ' ' ∉ w.toList ∧
        ¬ w.toList <:+: ['\n'] ∧ '\n' ∉ w.toList := by decide +kernel
  obtain ⟨hfront, hblank, hbreak, hline⟩ := hhead w hw
  rw [line_eq]
  refine throughout_append.mpr ⟨?_, throughout_append.mpr ⟨?_, ?_⟩⟩
  · exact throughout_absent_of_getLast hfront rfl hblank
  · exact throughout_absent (l.absent w hw) hline
  · exact throughout_absent_of_getLast hbreak rfl hline

end LicenseExpression

/-! ## Lines and bodies -/

/-- Inside a line no licence line starts. -/
theorem throughout_licenseLine_inside {x : Char} {front : List Char} (hx : x ≠ '\n')
    (hfront : '\n' ∉ front) (rest : List Char) :
    Throughout (fun b cs => licenseLine b cs = none) (some x) (front ++ ['\n']) rest := by
  have hnone {x : Char} (hx : x ≠ '\n') (cs : List Char) : licenseLine (some x) cs = none := by
    simp [licenseLine, licenseHead, lineStart, hx]
  induction front generalizing x with
  | nil => exact ⟨hnone hx _, trivial⟩
  | cons c front ih =>
    obtain ⟨hc, hfront⟩ := not_or.mp (mt List.mem_cons.mpr hfront)
    exact ⟨hnone hx _, ih (Ne.symm hc) hfront⟩

/-- No licence line starts in a line that starts otherwise. -/
theorem throughout_licenseLine {c : Char} {front : List Char} (hblank : isBlank c = false)
    (hslash : c ≠ '/') (hline : '\n' ∉ c :: front) {before : Option Char} (rest : List Char) :
    Throughout (fun b cs => licenseLine b cs = none) before (c :: front ++ ['\n']) rest := by
  obtain ⟨hc, hfront⟩ := not_or.mp (mt List.mem_cons.mpr hline)
  refine ⟨?_, throughout_licenseLine_inside (Ne.symm hc) hfront rest⟩
  simp [licenseLine, licenseHead, hblank, literal, List.isPrefixOf?, hslash.symm]

theorem licenseLine_of_absent {cs : List Char} (h : ¬ "SPDX-License-Identifier".toList <:+: cs)
    (before : Option Char) : licenseLine before cs = none := by
  have hhead : licenseHead before cs = none := by
    rw [Option.eq_none_iff_forall_not_mem]
    intro rest hrest
    simp only [licenseHead, Option.bind_eq_bind, Option.mem_def, Option.bind_eq_some_iff] at hrest
    obtain ⟨-, -, words, hslashes, hwords⟩ := hrest
    have hcolon : "SPDX-License-Identifier".toList <+: "SPDX-License-Identifier:".toList := by
      decide
    have hword : "SPDX-License-Identifier".toList <+: trimStart words :=
      hcolon.trans ⟨rest, (literal_eq_some.mp hwords).symm⟩
    have hsuffix : trimStart words <:+ cs :=
      (List.dropWhile_suffix isSpace).trans
        ((literal_suffix hslashes).trans (List.dropWhile_suffix isBlank))
    exact h (hword.isInfix.trans hsuffix.isInfix)
  rw [licenseLine, hhead]
  rfl

/-- A body: a text without spaces around it that holds no word of a directive. -/
structure ModuleBody where
  text : String
  trimmed : trim text.toList = text.toList
  absent : ∀ w ∈ ["SPDX-License-Identifier", "pragma", "import"], ¬ w.toList <:+: text.toList

/-- No licence line starts in a body. -/
theorem ModuleBody.throughout_licenseLine (b : ModuleBody) {before : Option Char} :
    Throughout (fun b cs => licenseLine b cs = none) before b.text.toList [] := by
  have hall : Throughout (fun _ cs => ∀ b, licenseLine b cs = none) before b.text.toList [] := by
    refine throughout_of_suffix fun tail htail _ => licenseLine_of_absent fun h => ?_
    rw [List.append_nil] at h
    exact b.absent _ (by simp) (h.trans htail.isInfix)
  exact hall.mono fun b _ h => h b

/-! ## Layouts -/

/-- The parts of a module. -/
structure Layout where
  license : LicenseExpression
  version : VersionExpression
  directives : List ImportDirective
  body : ModuleBody

/-- The text of a module: its directives, one a line, and its body. -/
def Layout.print (m : Layout) : String :=
  "// SPDX-License-Identifier: " ++ m.license.text ++ "\n" ++ m.version.directive ++ "\n" ++
    String.join (m.directives.map fun d => d.text ++ "\n") ++ m.body.text

end Solidity

end ContractBuild
