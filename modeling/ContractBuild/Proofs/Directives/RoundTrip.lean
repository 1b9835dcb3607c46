import ContractBuild.Proofs.Directives.Layout

/-!
# Reading a layout back

Reading the text that a layout prints gives the layout back: its licence, its version pragma, the
paths of its directives in order and its body.

- **Licence lines** (`Layout.split_licenseLine`): the first line is one, and nothing else.
- **Pragmas** (`Layout.codePieces_pragmaDirective`): the second line is one, and nothing else.
- **Imports** (`codePieces_directiveLines`): every directive is a hit with its path, by induction on
  the directives, and what is left of its line is the line break.
- **Bodies** (`Layout.stripDirectives_print`): the three passes leave line breaks and the body.

Main statement: `Layout.parse_print`.
-/

namespace ContractBuild.Solidity

open Text

/-! ## Lines of directives -/

/-- Directives, one a line. -/
def directiveLines (ds : List ImportDirective) : List Char :=
  ds.flatMap fun d => d.text.toList ++ ['\n']

theorem directiveLines_cons (d : ImportDirective) (ds : List ImportDirective) :
    directiveLines (d :: ds) = d.text.toList ++ ['\n'] ++ directiveLines ds := rfl

/-- No version pragma starts in the directives. -/
theorem noPragma_directiveLines (ds : List ImportDirective) (rest : List Char) :
    NoPragma (directiveLines ds) rest := by
  induction ds with
  | nil => exact noPragma_nil _
  | cons d ds ih =>
    rw [directiveLines_cons]
    refine .append (.append (d.noPragma_text _) ?_) ih
    exact noPragma_of_getLast (by decide) rfl (by decide)

/-- No licence line starts in the directives. -/
theorem throughout_licenseLine_directiveLines (ds : List ImportDirective) {before : Option Char}
    (rest : List Char) :
    Throughout (fun b cs => licenseLine b cs = none) before (directiveLines ds) rest := by
  induction ds generalizing before with
  | nil => trivial
  | cons d ds ih =>
    have hline := d.isCode_text.2
    rw [d.toList_text] at hline
    rw [directiveLines_cons, d.toList_text]
    exact throughout_append.mpr ⟨throughout_licenseLine (by decide) (by decide) hline _, ih⟩

theorem importStatement_of_absent {cs : List Char} (h : ¬ "import".toList <+: cs)
    (before : Option Char) : importStatement before cs = none := by
  simp [importStatement, literal_eq_none h]

theorem pragmaDirective_of_pragmaHead {cs : List Char} (h : pragmaHead cs = none)
    (before : Option Char) : pragmaDirective before cs = none := by
  simp [pragmaDirective, h]

/-- A line break is left by the search for imports. -/
theorem codePieces_lineBreak (before : Option Char) (rest : List Char) :
    codePieces importStatement before ('\n' :: rest) =
      .gap '\n' :: codePieces importStatement (some '\n') rest := by
  have hcode : IsCode ['\n'] := isCode_of_isPlainChar rfl
  have hnone : Throughout (fun b cs => importStatement b cs = none) before ['\n'] rest :=
    ⟨importStatement_lineBreak _ _, trivial⟩
  exact codePieces_pass (hcode rest) hnone

/-- What the search for imports makes of the directives: each is a hit with its path, and its line
break is left. -/
def directivePieces (ds : List ImportDirective) : List (Piece String) :=
  ds.flatMap fun d => [.hit d.path d.text.toList, .gap '\n']

theorem filterMap_value?_directivePieces (ds : List ImportDirective) :
    (directivePieces ds).filterMap Piece.value? = ds.map (·.path) := by
  induction ds with
  | nil => rfl
  | cons d ds ih => exact congrArg (d.path :: ·) ih

theorem flatMap_gapText_directivePieces (ds : List ImportDirective) :
    (directivePieces ds).flatMap Piece.gapText = List.replicate ds.length '\n' := by
  induction ds with
  | nil => rfl
  | cons d ds ih => exact congrArg ('\n' :: ·) ih

/-- **Every directive is a hit with its path.** -/
theorem codePieces_directiveLines (ds : List ImportDirective) (rest : List Char) :
    codePieces importStatement (some '\n') (directiveLines ds ++ rest) =
      directivePieces ds ++ codePieces importStatement (some '\n') rest := by
  induction ds with
  | nil => rfl
  | cons d ds ih =>
    have hne : d.text.toList ≠ [] := by
      rw [d.toList_text]
      exact List.cons_ne_nil _ _
    have hstart : wordStart (some '\n') = true := by decide
    rw [directiveLines_cons, List.append_assoc, List.append_assoc,
      codePieces_hit d.isCode_text.1 hne (d.importStatement_text hstart _), List.singleton_append,
      codePieces_lineBreak, ih]
    rfl

/-! ## The three searches -/

namespace Layout

variable (m : Layout)

/-- What follows the version pragma. -/
def rest : List Char := '\n' :: (directiveLines m.directives ++ m.body.text.toList)

theorem toList_print :
    m.print.toList = m.license.line ++ (m.version.directive.toList ++ m.rest) := by
  have hjoin : (String.join (m.directives.map fun d => d.text ++ "\n")).toList =
      directiveLines m.directives := by
    rw [String.toList_join, List.flatMap_map]
    simp [directiveLines]
  have hline : "\n".toList = ['\n'] := rfl
  unfold print
  simp only [String.toList_append, hjoin, hline, LicenseExpression.line_eq, rest, List.append_assoc,
    List.cons_append, List.nil_append]

theorem directive_ne : m.version.directive.toList ≠ [] := by
  rw [VersionExpression.toList_directive]
  exact List.cons_ne_nil _ _

/-- **The first line is the only licence line.** -/
theorem split_licenseLine :
    licenseLine.split m.print.toList =
      .hit m.license.text.toList m.license.line ::
        (m.version.directive.toList ++ m.rest).map .gap := by
  have hne : m.license.line ≠ [] := List.cons_ne_nil _ _
  have hline : '\n' ∉ m.version.directive.toList := m.version.isCode_directive.2
  have hlines : m.version.directive.toList ++ m.rest = m.version.directive.toList ++ ['\n'] ++
      (directiveLines m.directives ++ m.body.text.toList) := by
    rw [rest, List.append_assoc, List.singleton_append]
  have hnone : Throughout (fun b cs => licenseLine b cs = none) m.license.line.getLast?
      (m.version.directive.toList ++ m.rest) [] := by
    rw [hlines]
    refine throughout_append.mpr ⟨?_, throughout_append.mpr
      ⟨throughout_licenseLine_directiveLines _ _, m.body.throughout_licenseLine⟩⟩
    rw [VersionExpression.toList_directive] at hline ⊢
    exact throughout_licenseLine (by decide) (by decide) hline _
  rw [toList_print, Pattern.split, Pattern.pieces_of_hit (m.license.licenseLine_line rfl _) hne
    (Hit.size_upTo ..), Pattern.pieces_of_throughout_nil hnone]
  rfl

/-- **The pragma is a hit, and nothing behind it.** -/
theorem codePieces_pragmaDirective (before : Option Char) :
    codePieces pragmaDirective before (m.version.directive.toList ++ m.rest) =
      .hit () m.version.directive.toList :: m.rest.map .gap := by
  have hbody : NoPragma m.body.text.toList [] := ⟨fun _ =>
    (throughout_absent_nil (m.body.absent "pragma" (by simp))).mono fun _ _ => pragmaHead_of_absent⟩
  have hbreak : NoPragma ['\n'] (directiveLines m.directives ++ m.body.text.toList ++ []) :=
    noPragma_of_getLast (by decide) rfl (by decide)
  have hrest : NoPragma m.rest [] :=
    .append hbreak (.append (noPragma_directiveLines _ _) hbody)
  rw [codePieces_hit m.version.isCode_directive.1 m.directive_ne
    (m.version.pragmaDirective_directive before m.rest), codePieces_last]
  exact (hrest.throughout _).mono fun b _ h => pragmaDirective_of_pragmaHead h b

/-- **The directives are the hits behind the pragma.** -/
theorem codePieces_importStatement (before : Option Char) :
    codePieces importStatement before m.rest =
      .gap '\n' :: (directivePieces m.directives ++ m.body.text.toList.map .gap) := by
  have hbody : Throughout (fun b cs => importStatement b cs = none) (some '\n')
      m.body.text.toList [] :=
    (throughout_absent_nil (m.body.absent "import" (by simp))).mono
      fun b _ h => importStatement_of_absent h b
  rw [rest, codePieces_lineBreak, codePieces_directiveLines, codePieces_last hbody]

/-! ## What is read -/

theorem declaredLicenses_print : declaredLicenses m.print = [m.license.text] := by
  have hvalues : licenseLine.values m.print.toList = [m.license.text.toList] := by
    rw [Pattern.values, split_licenseLine]
    exact congrArg (m.license.text.toList :: ·) (filterMap_value?_gaps _)
  rw [declaredLicenses, hvalues, List.map_singleton, m.license.trim_dropClosers,
    String.ofList_toList, List.filter_cons_of_pos (by simpa using m.license.text_ne),
    List.filter_nil]

theorem pragma?_print : pragma? m.print = some m.version.directive := by
  have hline : Throughout (fun b cs => pragmaDirective b cs = none) none m.license.line
      (m.version.directive.toList ++ m.rest) :=
    (m.license.absent_line (w := "pragma") (by simp) _).mono
      fun b _ h => pragmaDirective_of_pragmaHead (pragmaHead_of_absent h) b
  rw [pragma?, toList_print, inCode_eq, codePieces_pass (m.license.commentMask_line _) hline,
    codePieces_pragmaDirective, List.findSome?_append, List.findSome?_eq_none_iff.mpr (by simp),
    Option.none_or]
  change some (String.ofList ([' '].intercalate (words m.version.directive.toList))) = _
  rw [m.version.collapsed_directive.2, String.ofList_toList]

theorem importPaths_print : importPaths m.print = m.directives.map (·.path) := by
  have hline : Throughout (fun b cs => importStatement b cs = none) none m.license.line
      (m.version.directive.toList ++ m.rest) :=
    (m.license.absent_line (w := "import") (by simp) _).mono
      fun b _ h => importStatement_of_absent h b
  have hpragma {before : Option Char} : Throughout (fun b cs => importStatement b cs = none) before
      m.version.directive.toList m.rest :=
    (m.version.absent_directive _).mono fun b _ h => importStatement_of_absent h b
  rw [importPaths, valuesInCode, toList_print, inCode_eq,
    codePieces_pass (m.license.commentMask_line _) hline,
    codePieces_pass (m.version.isCode_directive.1 _) hpragma, codePieces_importStatement,
    List.filterMap_append, List.filterMap_append, filterMap_value?_gaps, filterMap_value?_gaps,
    List.filterMap_cons_none rfl, List.filterMap_append, filterMap_value?_directivePieces,
    filterMap_value?_gaps, List.append_nil]
  rfl

theorem stripDirectives_print : stripDirectives m.print = m.body.text := by
  have hlicense : licenseLine.erase m.print.toList = m.version.directive.toList ++ m.rest := by
    rw [Pattern.erase, split_licenseLine, List.flatMap_cons, flatMap_gapText_gaps]
    rfl
  have hpragma : eraseInCode pragmaDirective (m.version.directive.toList ++ m.rest) = m.rest := by
    rw [eraseInCode, inCode_eq, codePieces_pragmaDirective, List.flatMap_cons, flatMap_gapText_gaps]
    rfl
  have himport : eraseInCode importStatement m.rest =
      '\n' :: List.replicate m.directives.length '\n' ++ m.body.text.toList := by
    rw [eraseInCode, inCode_eq, codePieces_importStatement, List.flatMap_cons, List.flatMap_append,
      flatMap_gapText_directivePieces, flatMap_gapText_gaps]
    rfl
  have hspaces : ∀ c ∈ '\n' :: List.replicate m.directives.length '\n', isSpace c = true := by
    intro c hc
    rw [← List.replicate_succ] at hc
    rw [List.eq_of_mem_replicate hc]
    decide
  have htrim : trim ('\n' :: List.replicate m.directives.length '\n' ++ m.body.text.toList) =
      trim m.body.text.toList := by
    rw [trim, trimStart, List.dropWhile_append_of_pos hspaces]
    rfl
  simp only [stripDirectives, hlicense, hpragma, himport]
  rw [htrim, m.body.trimmed, String.ofList_toList]

end Layout

/-- **What is read from a printed layout is the layout.** -/
theorem Layout.parse_print (m : Layout) (id : String) :
    SourceModule.parse id m.print =
      { id
        text := m.print
        body := m.body.text
        pragma := some ("pragma solidity " ++ m.version.text ++ ";")
        licenses := [m.license.text]
        imports := m.directives.map fun d =>
          { raw := d.path, kind := .of d.path, resolved := none } } := by
  rw [SourceModule.parse, stripDirectives_print, pragma?_print, declaredLicenses_print,
    importPaths_print, List.map_map]
  rfl

-- a layout may name the words of a pragma, and its paths may look like comments and directives
example : ∃ m : Layout, m.print =
    "// SPDX-License-Identifier: MIT\npragma solidity >=0.8.0 <0.9.0;\n" ++
      "import \x7bpragma as B\x7d from 'import // x;';\ncontract A \x7b\x7d" := by
  let pragma : Identifier := ⟨"pragma", by decide, by decide⟩
  let b : Identifier := ⟨"B", by decide, by decide⟩
  let d : ImportDirective := ⟨.symbols [⟨pragma, some b⟩], '\'', "import // x;", by decide,
    by decide, by decide, by decide +kernel⟩
  exact ⟨⟨⟨"MIT", by decide, by decide, by decide, by decide, by decide⟩,
    ⟨[">=0.8.0", "<0.9.0"], by decide, by decide, by decide⟩, [d],
    ⟨"contract A \x7b\x7d", by decide, by decide +kernel⟩⟩, by decide +kernel⟩

end ContractBuild.Solidity
