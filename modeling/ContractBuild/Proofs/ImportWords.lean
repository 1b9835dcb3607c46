import ContractBuild.Proofs.Edits
import ContractBuild.Solidity.Module

/-!
# Texts without import statements

Import statements are removed in one pass, and what stood around one may open another: the word
`import` may be left over in front of it, or a comment may lose its start or its end. A text whose
statements stand apart (`ImportsApart`) has nothing of the kind, and its body is `Clear`.

- **Words** (`importWord`, `takes_importStatement`): where a statement starts, the word `import`
  stands, whatever is put behind the text on a new line.
- **Clear texts** (`Clear`): no word `import` stands outside comments, and neither a literal nor a
  comment runs over the end. Clear texts on lines of their own make a clear text
  (`Clear.append_line`), and there is no import statement in it (`Clear.hasImport_line`).
- **Bodies** (`ImportsApart.clear_body`): removing the statements brings no word together and moves
  none out of a comment.
-/

namespace ContractBuild.Solidity

open Text Place Stretch

/-! ## The word `import` -/

/-- Whether the word `import` stands here, with a space or nothing behind it. -/
def importWord (before : Option Char) (cs : List Char) : Bool :=
  wordStart before && (literal "import" cs).any fun rest => rest.head?.all isSpace

theorem importWord_eq_true {before : Option Char} {cs : List Char} :
    importWord before cs = true ↔ wordStart before = true ∧
      ∃ rest, cs = "import".toList ++ rest ∧ rest.head?.all isSpace = true := by
  rw [importWord, Bool.and_eq_true, Option.any_eq_true_iff_get]
  refine and_congr_right fun _ => ?_
  constructor
  · rintro ⟨hsome, hspace⟩
    exact ⟨_, literal_eq_some.1 (Option.some_get hsome).symm, hspace⟩
  · rintro ⟨rest, hcs, hspace⟩
    have hliteral := literal_eq_some.2 hcs
    simpa [hliteral] using hspace

theorem importWord_of_ne (before : Option Char) {c : Char} (hc : c ≠ 'i') (cs : List Char) :
    importWord before (c :: cs) = false := by
  rw [Bool.eq_false_iff, Ne, importWord_eq_true]
  rintro ⟨-, rest, hcs, -⟩
  exact hc (List.cons.inj hcs).1

/-- What follows behind a space neither makes nor hides the word. -/
theorem importWord_append (before : Option Char) (cs : List Char) {more : List Char}
    (hmore : more.head?.all isSpace = true) :
    importWord before (cs ++ more) = importWord before cs := by
  rw [Bool.eq_iff_iff, importWord_eq_true, importWord_eq_true]
  refine and_congr_right fun _ => ?_
  constructor
  · rintro ⟨rest, hcs, hspace⟩
    rcases List.append_eq_append_iff.1 hcs with ⟨tail, hword, rfl⟩ | ⟨tail, rfl, rfl⟩
    · -- the word would go on behind the first text, with a space in it
      cases tail with
      | nil => exact ⟨[], by simpa using hword.symm, rfl⟩
      | cons c tail =>
        have hc : c ∈ "import".toList := by simp [hword]
        have hletters : "import".toList.all (!isSpace ·) = true := by decide
        have hletter := List.all_eq_true.1 hletters c hc
        rw [show isSpace c = true from hmore] at hletter
        cases hletter
    · refine ⟨tail, rfl, ?_⟩
      cases tail with
      | nil => rfl
      | cons c tail => exact hspace
  · rintro ⟨rest, rfl, hspace⟩
    refine ⟨rest ++ more, List.append_assoc .., ?_⟩
    cases rest with
    | nil => exact hmore
    | cons c rest => exact hspace

/-! ## Import statements -/

theorem symbolList_suffix {cs rest : List Char} (h : symbolList cs = some rest) : rest <:+ cs := by
  unfold symbolList at h
  split at h
  · exact (literal_suffix h).trans ((List.dropWhile_suffix _).trans (List.suffix_cons ..))
  · cases h

theorem starBinding_suffix {cs rest : List Char} (h : starBinding cs = some rest) :
    rest <:+ cs := by
  unfold starBinding at h
  split at h
  · simp only [Option.bind_eq_bind, Option.bind_eq_some_iff] at h
    obtain ⟨as, has, more, hmore, hrest⟩ := h
    have htrimmed :=
      (identifier_suffix hrest).trans ((spaces_suffix hmore).trans (literal_suffix has))
    exact htrimmed.trans ((List.dropWhile_suffix _).trans (List.suffix_cons ..))
  · cases h

theorem bindingClause_suffix {cs rest : List Char} (h : bindingClause cs = some rest) :
    rest <:+ cs := by
  simp only [bindingClause, Option.bind_eq_bind, Option.bind_eq_some_iff] at h
  obtain ⟨bound, hbound, gap, hgap, more, hmore, hrest⟩ := h
  have hlater := (spaces_suffix hrest).trans ((literal_suffix hmore).trans (spaces_suffix hgap))
  refine hlater.trans ?_
  rw [Option.or_eq_some_iff, Option.or_eq_some_iff] at hbound
  rcases hbound with (hsymbols | ⟨-, hstar⟩) | ⟨-, hname⟩
  · exact symbolList_suffix hsymbols
  · exact starBinding_suffix hstar
  · exact identifier_suffix hname

theorem quotedPath_suffix {cs path rest : List Char} (h : quotedPath cs = some (path, rest)) :
    rest <:+ cs := by
  unfold quotedPath at h
  split at h
  · rename_i c cs
    have hcs := spanOf_append (!isQuote ·) cs
    split at h
    · split at h
      · cases h
      · rename_i found quote more hne hspan
        simp only [Option.some.injEq, Prod.mk.injEq] at h
        rw [hspan] at hcs
        exact ⟨c :: found ++ [quote], by simp [← hcs, h.2]⟩
      · cases h
    · cases h
  · cases h

theorem aliasClause_suffix {cs rest : List Char} (h : aliasClause cs = some rest) :
    rest <:+ cs := by
  simp only [aliasClause, Option.bind_eq_bind, Option.bind_eq_some_iff] at h
  obtain ⟨gap, hgap, as, has, more, hmore, hrest⟩ := h
  exact (identifier_suffix hrest).trans
    ((spaces_suffix hmore).trans ((literal_suffix has).trans (spaces_suffix hgap)))

/-- A statement starts with the word `import` and ends with a semicolon. -/
theorem takes_importStatement : importStatement.Takes fun before _ t rest =>
    importWord before (t ++ rest) = true ∧ t.getLast? = some ';' := by
  intro before cs h hh
  simp only [importStatement, Option.bind_eq_bind, Option.bind_eq_some_iff, Option.guard_eq_some',
    Option.pure_def, Option.some.injEq] at hh
  obtain ⟨-, hbefore, word, hword, more, hmore, ⟨path, closed⟩, hpath, rest, hrest, rfl⟩ := hh
  have hend : ';' :: rest <:+ word := by
    have hsemicolon := literal_eq_some.1 hrest
    have hlast : ';' :: rest <:+ trimStart ((aliasClause closed).getD closed) :=
      ⟨[], hsemicolon.symm⟩
    have halias := getD_suffix aliasClause_suffix closed
    have hclause := getD_suffix bindingClause_suffix more
    exact (hlast.trans ((List.dropWhile_suffix _).trans halias)).trans
      ((quotedPath_suffix hpath).trans (hclause.trans (spaces_suffix hmore)))
  have hspace : word.head?.all isSpace = true := by
    unfold spaces at hmore
    split at hmore
    · split at hmore
      · assumption
      · cases hmore
    · cases hmore
  obtain ⟨tail, rfl⟩ := hend
  have hcs := literal_eq_some.1 hword
  have hsplit : cs = ("import".toList ++ tail ++ [';']) ++ rest := by simp [hcs]
  refine ⟨_, rest, hsplit, by simp, ?_, ?_, List.getLast?_concat ..⟩
  · rw [hsplit, Hit.size_upTo]
  · rw [← hsplit]
    exact importWord_eq_true.2 ⟨hbefore, _, hcs, hspace⟩

/-! ## Texts without the word -/

namespace Place

/-- Whether the word `import` stands in comments only. -/
def importless : Place → Option Char → List Char → Bool
  | _, _, [] => true
  | s, before, c :: cs =>
    (s.inComment || !importWord before (c :: cs)) && importless (s.next c) (some c) cs

/-- Of the character before a text it matters only whether a word may start behind it. -/
theorem importless_congr (s : Place) {before before' : Option Char}
    (h : wordStart before = wordStart before') (cs : List Char) :
    s.importless before cs = s.importless before' cs := by
  cases cs with
  | nil => rfl
  | cons c cs => rw [importless, importless, importWord, importWord, h]

theorem importless_of_append {s : Place} {before : Option Char} (a : List Char) {b : List Char}
    (h : s.importless before (a ++ b) = true) :
    (s.after a).importless (a.getLast?.or before) b = true := by
  induction a generalizing s before with
  | nil => simpa using h
  | cons c a ih =>
    have hrest := ih (Bool.and_eq_true_iff.1 h).2
    rw [List.getLast?_cons, Option.some_or, after_cons]
    cases hlast : a.getLast? with
    | none => simpa [hlast] using hrest
    | some d => simpa [hlast] using hrest

/-- A text with a space behind it is read on its own. -/
theorem importless_append (s : Place) (before : Option Char) (a : List Char) {b : List Char}
    (hb : b.head?.all isSpace = true) :
    s.importless before (a ++ b) =
      (s.importless before a && (s.after a).importless (a.getLast?.or before) b) := by
  induction a generalizing s before with
  | nil => simp [importless]
  | cons c a ih =>
    have hlast : (c :: a).getLast?.or before = a.getLast?.or (some c) := by
      cases h : a.getLast? <;> simp [List.getLast?_cons, h]
    have hword : importWord before (c :: (a ++ b)) = importWord before (c :: a) :=
      importWord_append before (c :: a) hb
    rw [List.cons_append, importless, importless, ih, hword, hlast, after_cons, Bool.and_assoc]

theorem closed_line {s : Place} {cs : List Char} (h : (s.after cs).next '\n' = code) :
    s.closed (cs ++ ['\n']) = s.closed cs := by
  rw [closed_append, closed_cons, h, closed, beq_self_eq_true, Bool.and_true]
  exact congrArg _ (Bool.and_true _)

/-- A line is read on its own. -/
theorem importless_line (s : Place) (before : Option Char) (a b : List Char) :
    s.importless before (a ++ '\n' :: b) =
      (s.importless before a && ((s.after a).next '\n').importless none b) := by
  have hstart : wordStart (some '\n') = wordStart none := by decide
  rw [importless_append s before a rfl, importless, importWord_of_ne _ (by decide), Bool.not_false,
    Bool.or_true, Bool.true_and, importless_congr _ hstart]

theorem drop_mask (s : Place) (a b : List Char) :
    (s.mask (a ++ b)).drop a.length = (s.after a).mask b := by
  induction a generalizing s with
  | nil => rfl
  | cons c a ih => exact ih (s.next c)

/-- Where no word `import` stands outside comments, no statement is found outside them. -/
theorem values_unmarked_of_importless (before : Option Char) (cs : List Char) {s : Place}
    (h : s.importless before cs = true) :
    (unmarked (s.mask cs) (importStatement.pieces before cs)).filterMap Piece.value? = [] := by
  refine takes_importStatement.induction (motive := fun before cs ps => ∀ s : Place,
    s.importless before cs = true → (unmarked (s.mask cs) ps).filterMap Piece.value? = [])
    (fun _ _ _ => rfl) ?_ ?_ before cs s h
  · intro before c cs _ ih s h
    exact ih (s.next c) (Bool.and_eq_true_iff.1 h).2
  · rintro before v t rest hne ⟨hword, -⟩ ih s h
    have hlater := importless_of_append t h
    rw [Option.or_of_isSome (by simpa using hne)] at hlater
    -- the statement starts with the letter `i`, which is marked in every comment
    obtain ⟨c, t, rfl⟩ := List.exists_cons_of_ne_nil hne
    obtain ⟨-, tail, htail, -⟩ := importWord_eq_true.1 hword
    obtain rfl : c = 'i' := (List.cons.inj htail).1
    have hcomment : s.inComment = true := by
      rw [List.cons_append] at h hword
      rw [importless, hword, Bool.not_true, Bool.or_false, Bool.and_eq_true] at h
      exact h.1
    have hmarked : (s.mask ('i' :: t ++ rest)).headD false = true := by
      cases s with
      | line | block | star => rfl
      | code | slash | literal | escape => cases hcomment
    have hgaps : (('i' :: t).map Piece.gap).filterMap (Piece.value? (α := String)) = [] := by
      simp [Piece.value?]
    rw [unmarked, if_pos hmarked, drop_mask, List.filterMap_append, hgaps, List.nil_append]
    exact ih _ hlater

end Place

/-- A line comment is read to its end. -/
theorem line_of_oneLine {t : List Char} (ht : '\n' ∉ t) (before : Option Char) :
    line.after t = line ∧ line.unbroken t = true ∧ line.importless before t = true := by
  induction t generalizing before with
  | nil => exact ⟨rfl, rfl, rfl⟩
  | cons c t ih =>
    obtain ⟨hc, ht⟩ := List.ne_and_not_mem_of_not_mem_cons ht
    have hnext : line.next c = line := by simp [next, Ne.symm hc]
    rw [after_cons, unbroken, importless, hnext]
    exact ih ht (some c)

/-! ## Clear texts -/

/-- `Clear cs`: every literal of the text is closed, a reader who comes to a line break behind it
stands in code, and the word `import` stands in comments only. -/
structure Clear (cs : List Char) : Prop where
  closed : code.closed cs = true
  ends : (code.after cs).next '\n' = code
  importless : code.importless none cs = true

namespace Clear

variable {a b : List Char}

instance (cs : List Char) : Decidable (Clear cs) :=
  decidable_of_iff (code.closed cs = true ∧ (code.after cs).next '\n' = code ∧
    code.importless none cs = true)
    ⟨fun h => ⟨h.1, h.2.1, h.2.2⟩, fun h => ⟨h.closed, h.ends, h.importless⟩⟩

theorem nil : Clear [] := ⟨rfl, rfl, rfl⟩

/-- Clear texts on lines of their own make a clear text. -/
theorem append_line (ha : Clear a) (hb : Clear b) : Clear (a ++ '\n' :: b) := by
  obtain ⟨hunbroken, houtside⟩ := Bool.and_eq_true_iff.1 ha.closed
  rw [Bool.not_eq_true'] at houtside
  refine ⟨?_, ?_, ?_⟩
  · rw [closed_append, closed_cons, hunbroken, houtside, ha.ends, hb.closed]
    rfl
  · rw [after_append, after_cons, ha.ends, hb.ends]
  · rw [importless_line, ha.importless, ha.ends, hb.importless]
    rfl

/-- Clear texts with an empty line between each two of them make a clear text. -/
theorem intercalate {texts : List (List Char)} (h : ∀ t ∈ texts, Clear t) :
    Clear (['\n', '\n'].intercalate texts) := by
  induction texts with
  | nil => exact nil
  | cons t texts ih =>
    obtain ⟨ht, htexts⟩ := List.forall_mem_cons.1 h
    cases texts with
    | nil => rwa [List.intercalate_singleton]
    | cons u texts =>
      rw [List.intercalate_cons_cons, List.append_assoc]
      exact ht.append_line (nil.append_line (ih htexts))

/-- A line comment is clear. -/
theorem lineComment {t : List Char} (ht : '\n' ∉ t) : Clear ('/' :: '/' :: t) := by
  obtain ⟨hafter, hunbroken, himportless⟩ := line_of_oneLine ht (some '/')
  have hopen : (code.next '/').next '/' = line := rfl
  refine ⟨?_, ?_, ?_⟩
  · rw [closed_cons, closed_cons, hopen, Place.closed, hunbroken, hafter]
    rfl
  · rw [after_cons, after_cons, hopen, hafter]
    rfl
  · rw [Place.importless, Place.importless, importWord_of_ne _ (by decide),
      importWord_of_ne _ (by decide), hopen, himportless]
    rfl

/-- **No import statement stands in a clear text.** -/
theorem hasImport_eq_false {text : String} (h : Clear text.toList) : hasImport text = false := by
  rw [hasImport, importPaths, valuesInCode, inCode, commentMask_eq h.closed, Pattern.split,
    values_unmarked_of_importless _ _ h.importless]
  rfl

end Clear

/-! ## Spaces around a text -/

/-- A text stands between spaces. -/
theorem exists_eq_trim (cs : List Char) : ∃ lead trail, cs = lead ++ (trim cs ++ trail) ∧
    (∀ c ∈ lead, isSpace c = true) ∧ ∀ c ∈ trail, isSpace c = true := by
  obtain ⟨lead, hlead, hspaces⟩ := exists_eq_append_dropWhile isSpace cs
  obtain ⟨trail, htrail, hspaces'⟩ := exists_eq_append_dropWhile isSpace (trimStart cs).reverse
  refine ⟨lead, trail.reverse, ?_, hspaces, by simpa using hspaces'⟩
  have hstart : trimStart cs = trim cs ++ trail.reverse := by
    rw [← List.reverse_reverse (trimStart cs), htrail, List.reverse_append]
    rfl
  rw [← hstart]
  exact hlead

theorem ne_of_isSpace {c : Char} (h : isSpace c = true) :
    isQuote c = false ∧ c ≠ '/' ∧ c ≠ '*' ∧ c ≠ '\\' := by
  have hne (d : Char) (hd : isSpace d = false) : c ≠ d := by
    rintro rfl
    rw [hd] at h
    cases h
  refine ⟨?_, hne _ (by decide), hne _ (by decide), hne _ (by decide)⟩
  simp [isQuote, hne '"' (by decide), hne '\'' (by decide)]

namespace Place

/-- Whether a literal was opened by a quote. -/
def isQuoted : Place → Bool
  | literal quote | escape quote => isQuote quote
  | _ => true

theorem isQuoted_next {s : Place} (h : s.isQuoted = true) (c : Char) :
    (s.next c).isQuoted = true := by
  have hopened : (opened c).isQuoted = true := by
    unfold opened
    split
    · assumption
    · split <;> rfl
  cases s with
  | code => exact hopened
  | slash =>
    rw [next]
    split
    · rfl
    · split
      · rfl
      · exact hopened
  | line | block => rw [next]; split <;> rfl
  | star =>
    rw [next]
    split
    · rfl
    · split <;> rfl
  | literal quote =>
    rw [next]
    split
    · rfl
    · split <;> exact h
  | escape quote => exact h

theorem isQuoted_after {s : Place} (h : s.isQuoted = true) (cs : List Char) :
    (s.after cs).isQuoted = true := by
  induction cs generalizing s with
  | nil => exact h
  | cons c cs ih => exact ih (isQuoted_next h c)

theorem code_after_spaces {cs : List Char} (h : ∀ c ∈ cs, isSpace c = true) :
    code.after cs = code := by
  induction cs with
  | nil => rfl
  | cons c cs ih =>
    obtain ⟨hc, hcs⟩ := List.forall_mem_cons.1 h
    obtain ⟨hquote, hslash, -⟩ := ne_of_isSpace hc
    have hnext : code.next c = code := by simp [next, opened, hquote, hslash]
    rw [after_cons, hnext, ih hcs]

/-- A space closes no literal and ends no block comment. -/
theorem line_break_of_space {s : Place} (hs : s.isQuoted = true) {c : Char} (hc : isSpace c = true)
    (hlit : (s.next c).inLiteral = false) (h : (s.next c).next '\n' = code) :
    s.inLiteral = false ∧ s.next '\n' = code := by
  obtain ⟨hquote, hslash, hstar, hback⟩ := ne_of_isSpace hc
  have hne : ∀ quote, isQuote quote = true → c ≠ quote := by
    rintro quote hq rfl
    rw [hquote] at hq
    cases hq
  cases s with
  | code | slash | line => exact ⟨rfl, rfl⟩
  | block | star => simp [next, hslash, hstar] at h
  | literal quote => simp [next, hne quote hs, hback, inLiteral] at hlit
  | escape quote => cases hlit

theorem line_break_of_spaces {s : Place} (hs : s.isQuoted = true) {cs : List Char}
    (hcs : ∀ c ∈ cs, isSpace c = true) (hlit : (s.after cs).inLiteral = false)
    (h : (s.after cs).next '\n' = code) : s.inLiteral = false ∧ s.next '\n' = code := by
  induction cs generalizing s with
  | nil => exact ⟨hlit, h⟩
  | cons c cs ih =>
    obtain ⟨hc, hcs⟩ := List.forall_mem_cons.1 hcs
    obtain ⟨hlit', h'⟩ := ih (isQuoted_next hs c) hcs hlit h
    exact line_break_of_space hs hc hlit' h'

end Place

/-- Without the spaces around it a text is closed and ends as it does with them. -/
theorem ends_trim {cs : List Char} (hclosed : code.closed cs = true)
    (hends : (code.after cs).next '\n' = code) :
    code.closed (trim cs) = true ∧ (code.after (trim cs)).next '\n' = code := by
  obtain ⟨lead, trail, hcs, hlead, htrail⟩ := exists_eq_trim cs
  generalize Text.trim cs = body at hcs ⊢
  have hstart := code_after_spaces hlead
  rw [hcs, closed_append, hstart, Place.closed, unbroken_append, after_append] at hclosed
  rw [hcs, after_append, hstart, after_append] at hends
  simp only [Bool.and_eq_true, Bool.not_eq_true'] at hclosed
  obtain ⟨-, ⟨hunbroken, -⟩, hliteral⟩ := hclosed
  obtain ⟨houtside, hbreak⟩ :=
    line_break_of_spaces (isQuoted_after rfl body) htrail hliteral hends
  refine ⟨?_, hbreak⟩
  rw [Place.closed, hunbroken, houtside]
  rfl

/-- The spaces around a clear text do not matter. -/
theorem Clear.trim {cs : List Char} (h : Clear cs) : Clear (trim cs) := by
  obtain ⟨hclosed, hends⟩ := ends_trim h.closed h.ends
  refine ⟨hclosed, hends, ?_⟩
  obtain ⟨lead, trail, hcs, hlead, htrail⟩ := exists_eq_trim cs
  generalize Text.trim cs = body at hcs ⊢
  have hbody := importless_of_append lead (hcs ▸ h.importless)
  have hlast : wordStart (lead.getLast?.or none) = wordStart none := by
    cases hc : lead.getLast? with
    | none => rfl
    | some c => simp [wordStart, isWord_of_isSpace (hlead c (List.mem_of_getLast? hc))]
  have htail : trail.head?.all isSpace = true := by
    cases trail with
    | nil => rfl
    | cons c trail => exact htrail c (by simp)
  rw [code_after_spaces hlead, importless_congr _ hlast, importless_append _ _ _ htail,
    Bool.and_eq_true] at hbody
  exact hbody.1

/-! ## Removing statements -/

namespace Stretch

/-- Whether the word `import` is kept in comments only. The place and the character before are those
of the old text. -/
def keepsNoImport : Place → Option Char → List Stretch → Bool
  | _, _, [] => true
  | s, before, kept c :: rest =>
    (s.inComment || !importWord before (c :: oldText rest)) &&
      keepsNoImport (s.next c) (some c) rest
  | s, _, changed old _ :: rest => keepsNoImport (s.after old) old.getLast? rest

/-- `CutsAtWords before ss`: what is changed is removed, and no word runs into it or out of it. -/
inductive CutsAtWords : Option Char → List Stretch → Prop where
  | nil {before : Option Char} : CutsAtWords before []
  | kept {before : Option Char} {c : Char} {rest : List Stretch} :
      CutsAtWords (some c) rest → CutsAtWords before (kept c :: rest)
  | cut {before : Option Char} {old : List Char} {rest : List Stretch} :
      wordStart before = true → wordStart old.getLast? = true → CutsAtWords old.getLast? rest →
      CutsAtWords before (changed old [] :: rest)

namespace CutsAtWords

theorem keepAll_append {t : List Char} {before : Option Char} {ss : List Stretch}
    (h : CutsAtWords (t.getLast?.or before) ss) : CutsAtWords before (keepAll t ++ ss) := by
  induction t generalizing before with
  | nil => rwa [List.getLast?_nil, Option.none_or] at h
  | cons c t ih =>
    refine .kept (ih ?_)
    cases hlast : t.getLast? <;> simpa [List.getLast?_cons, hlast] using h

/-- A word that is read on behind a character of it was read on before the edit. -/
theorem word {w : List Char} {c : Char} {rest : List Stretch} {more : List Char}
    (h : CutsAtWords (some c) rest) (hc : isWord c = true) (hw : w.all isWord = true)
    (hnew : newText rest = w ++ more) (hmore : more.head?.all isSpace = true) :
    ∃ more', oldText rest = w ++ more' ∧ more'.head?.all isSpace = true := by
  induction w generalizing c rest with
  | nil =>
    refine ⟨oldText rest, rfl, ?_⟩
    cases h with
    | nil => rfl
    | kept h => rw [← List.nil_append more, ← hnew] at hmore; exact hmore
    | cut hstart => simp [wordStart, hc] at hstart
  | cons d w ih =>
    obtain ⟨hd, hrest⟩ := Bool.and_eq_true_iff.1 hw
    cases h with
    | nil => cases hnew
    | @kept _ e rest h =>
      obtain ⟨rfl, htail⟩ : e = d ∧ newText rest = w ++ more := List.cons.inj hnew
      obtain ⟨more', hold, hmore'⟩ := ih h hd hrest htail
      exact ⟨more', congrArg (e :: ·) hold, hmore'⟩
    | cut hstart => simp [wordStart, hc] at hstart

/-- A word `import` that is there after the edit was there before. -/
theorem importWord_oldText {c : Char} {rest : List Stretch} (h : CutsAtWords (some c) rest)
    {before before' : Option Char} (hbefore : wordStart before' = true → wordStart before = true)
    (hword : importWord before' (c :: newText rest) = true) :
    importWord before (c :: oldText rest) = true := by
  obtain ⟨hstart, more, htext, hmore⟩ := importWord_eq_true.1 hword
  obtain ⟨rfl, hnew⟩ := List.cons.inj htext
  obtain ⟨more', hold, hmore'⟩ := h.word (w := "mport".toList) (by decide) (by decide) hnew hmore
  exact importWord_eq_true.2 ⟨hbefore hstart, more', congrArg ('i' :: ·) hold, hmore'⟩

end CutsAtWords

/-- **Where words are cut off whole and readers go along with each other,** no word `import` comes
to stand outside comments. -/
theorem Alike.importless {s s' : Place} {ss : List Stretch} (h : Alike s s' ss)
    {before before' : Option Char} (hcuts : CutsAtWords before ss)
    (hwords : keepsNoImport s before ss = true)
    (hbefore : wordStart before' = true → wordStart before = true) :
    s'.importless before' (newText ss) = true := by
  induction h generalizing before before' with
  | nil _ => rfl
  | @kept s s' c rest hnext _ hcomment _ ih =>
    cases hcuts with
    | kept hcuts =>
      obtain ⟨hhere, hlater⟩ := Bool.and_eq_true_iff.1 hwords
      show s'.importless before' (c :: newText rest) = true
      rw [Place.importless, Bool.and_eq_true]
      refine ⟨?_, ih hcuts hlater id⟩
      rw [← hcomment]
      cases hword : importWord before' (c :: newText rest) with
      | false => exact Bool.or_true _
      | true => rwa [hcuts.importWord_oldText hbefore hword] at hhere
  | @changed s s' old new rest _ _ _ _ ih =>
    cases hcuts with
    | cut _ hlast hcuts => exact ih hcuts hwords fun _ => hlast

/-- Readers of both texts stand at one place behind a last character that is kept. -/
theorem Alike.after_kept {s s' : Place} {ss : List Stretch} {c : Char}
    (h : Alike s s' (ss ++ [Stretch.kept c])) :
    (s.after (oldText ss)).next c = (s'.after (newText ss)).next c := by
  induction ss generalizing s s' with
  | nil =>
    cases h with
    | kept hnext => exact hnext
  | cons x ss ih =>
    cases h with
    | kept hnext _ _ h => exact ih h
    | changed _ _ _ h =>
      have hrest := ih h
      rw [oldText_cons, newText_cons, after_append, after_append]
      exact hrest

end Stretch

/-- The edit that removes the import statements of a text, with a line break behind it. -/
def importRemoval (cs : List Char) : List Stretch :=
  withoutHits (inCode importStatement cs) ++ [kept '\n']

theorem newText_importRemoval (cs : List Char) :
    newText (withoutHits (inCode importStatement cs)) = eraseInCode importStatement cs :=
  newText_withoutHits _

theorem flatMap_text_unmarked {α : Type} (mask : List Bool) (pieces : List (Piece α)) :
    (unmarked mask pieces).flatMap Piece.text = pieces.flatMap Piece.text := by
  induction pieces generalizing mask with
  | nil => rfl
  | cons piece pieces ih =>
    cases piece with
    | gap c => exact congrArg (c :: ·) (ih mask.tail)
    | hit v t =>
      rw [unmarked, List.flatMap_append, ih, List.flatMap_cons]
      congr 1
      split
      · simp [List.flatMap_map, Piece.text]
      · exact List.append_nil t

theorem oldText_importRemoval (cs : List Char) :
    oldText (withoutHits (inCode importStatement cs)) = cs := by
  rw [oldText_withoutHits, inCode, flatMap_text_unmarked, Pattern.split, Pattern.text_pieces]

theorem isInert_importRemoval {cs old new : List Char} (h : changed old new ∈ importRemoval cs) :
    new.all isInert = true := by
  rcases List.mem_append.1 h with h | h
  · obtain ⟨_, t, -, hmem⟩ := exists_hit_of_mem_ofPieces h
    cases List.mem_singleton.1 hmem
    rfl
  · cases List.mem_singleton.1 h

theorem withoutHits_gaps {α : Type} (t : List Char) (pieces : List (Piece α)) :
    withoutHits (t.map .gap ++ pieces) = keepAll t ++ withoutHits pieces := by
  induction t with
  | nil => rfl
  | cons c t ih => exact congrArg (kept c :: ·) ih

/-- Statements are words of their own. -/
theorem cutsAtWords_importRemoval (cs : List Char) : CutsAtWords none (importRemoval cs) := by
  refine takes_importStatement.induction (motive := fun before _ ps => ∀ mask,
    CutsAtWords before (withoutHits (unmarked mask ps) ++ [kept '\n']))
    (fun _ _ => .kept .nil) ?_ ?_ none cs (commentMask cs)
  · intro before c cs _ ih mask
    exact .kept (ih mask.tail)
  · rintro before v t rest hne ⟨hword, hlast⟩ ih mask
    rw [unmarked]
    split
    · rw [withoutHits_gaps, List.append_assoc]
      refine .keepAll_append ?_
      rw [Option.or_of_isSome (by rw [hlast]; rfl)]
      exact ih _
    · have hstart := (importWord_eq_true.1 hword).1
      exact .cut hstart (by rw [hlast]; decide) (ih _)

/-- The text without its licence lines and version pragmas. -/
def afterPragmas (text : String) : List Char :=
  eraseInCode pragmaDirective (licenseLine.erase text.toList)

/-- `ImportsApart text`: what the import statements of a text leave when they are removed has no
part in a statement. The fields but the last are about the text without its licence lines and
version pragmas. -/
structure ImportsApart (text : String) : Prop where
  /-- Every quote outside comments belongs to a literal. -/
  quotes : quotesClosed (afterPragmas text) = true
  /-- No comment runs over a line break behind the text. -/
  ends : (code.after (afterPragmas text)).next '\n' = code
  /-- Every import statement starts and ends in code, and brings no comment mark together. -/
  places : keepsPlaces code code (importRemoval (afterPragmas text)) = true
  /-- Outside comments, the word `import` stands in import statements only. -/
  words : keepsNoImport code none (importRemoval (afterPragmas text)) = true
  /-- The version pragma is clear. -/
  pragma : ∀ p ∈ pragma? text, Clear p.toList

namespace ImportsApart

instance (text : String) : Decidable (ImportsApart text) :=
  decidable_of_iff (quotesClosed (afterPragmas text) = true ∧
    (code.after (afterPragmas text)).next '\n' = code ∧
    keepsPlaces code code (importRemoval (afterPragmas text)) = true ∧
    keepsNoImport code none (importRemoval (afterPragmas text)) = true ∧
    ∀ p ∈ pragma? text, Clear p.toList)
    ⟨fun h => ⟨h.1, h.2.1, h.2.2.1, h.2.2.2.1, h.2.2.2.2⟩,
      fun h => ⟨h.quotes, h.ends, h.places, h.words, h.pragma⟩⟩

/-- **The body of a text whose import statements stand apart is clear.** -/
theorem clear_body {text : String} (h : ImportsApart text) :
    Clear (stripDirectives text).toList := by
  have hread := alike_of_keepsPlaces (fun _ _ => isInert_importRemoval) (.inl rfl) h.places
  have hends := hread.after_kept
  rw [oldText_importRemoval, newText_importRemoval, h.ends] at hends
  have hclosed := hread.closed
  have himportless := hread.importless (cutsAtWords_importRemoval _) h.words id
  rw [importRemoval, newText_append, newText_importRemoval] at hclosed himportless
  have hclear : Clear (eraseInCode importStatement (afterPragmas text)) := by
    refine ⟨?_, hends.symm, ?_⟩
    · rw [← closed_line hends.symm]
      refine hclosed ?_
      rw [oldText_append, oldText_importRemoval]
      exact (closed_line h.ends).trans (quotesClosed_eq _ ▸ h.quotes)
    · have hline := importless_line code none (eraseInCode importStatement (afterPragmas text)) []
      exact (Bool.and_eq_true_iff.1 (hline ▸ himportless)).1
  rw [stripDirectives, String.toList_ofList]
  exact hclear.trim

end ImportsApart

end ContractBuild.Solidity
