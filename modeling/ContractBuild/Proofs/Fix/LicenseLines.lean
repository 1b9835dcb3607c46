import ContractBuild.Fix.Transform
import ContractBuild.Proofs.Directives.Search

/-!
# Licence lines that are removed

All licence lines but the first are removed. The slashes of a licence line and its words may stand
on different lines, so a comment without words can take those of a text behind a removed line.

- **Forms** (`DeclaresLicense`, `StartsLicense`): the words of a licence line, and its front. The
  search recognises exactly these fronts, at the start of a line (`licenseComment_eq_none_iff`).
- **Seams** (`licensesApart`): no removed line has the words of a licence line behind it.
- **Cuts** (`LineCut`): the pieces behind the first licence line, where removed lines stand apart.
  No licence line starts in what is left of them (`LineCut.throughout`).
-/

namespace ContractBuild.Fix

open Text Solidity

/-! ## Forms -/

/-- The words that declare a licence stand at the front of a text, behind any spaces. -/
def DeclaresLicense (cs : List Char) : Prop :=
  ∃ s rest, (∀ c ∈ s, isSpace c = true) ∧ cs = s ++ ("SPDX-License-Identifier:".toList ++ rest)

/-- The front of a licence line stands at the front of a text. -/
def StartsLicense (cs : List Char) : Prop :=
  ∃ run rest, (∀ c ∈ run, isBlank c = true) ∧ cs = run ++ ("//".toList ++ rest) ∧
    DeclaresLicense rest

/-- The words are read behind the spaces. -/
theorem literal_trimStart {s rest : List Char} (hs : ∀ c ∈ s, isSpace c = true) :
    literal "SPDX-License-Identifier:"
      (trimStart (s ++ ("SPDX-License-Identifier:".toList ++ rest))) = some rest := by
  rw [trimStart, dropWhile_append_run hs rfl, literal_append]

theorem exists_of_literal_trimStart {cs rest : List Char}
    (h : literal "SPDX-License-Identifier:" (trimStart cs) = some rest) :
    ∃ s, (∀ c ∈ s, isSpace c = true) ∧ cs = s ++ ("SPDX-License-Identifier:".toList ++ rest) := by
  obtain ⟨s, hcs, hs⟩ := exists_eq_append_dropWhile isSpace cs
  rw [← trimStart, literal_eq_some.mp h] at hcs
  exact ⟨s, hs, hcs⟩

theorem literal_trimStart_eq_none_iff {cs : List Char} :
    literal "SPDX-License-Identifier:" (trimStart cs) = none ↔ ¬ DeclaresLicense cs := by
  constructor
  · rintro hnone ⟨s, rest, hs, rfl⟩
    rw [literal_trimStart hs] at hnone
    cases hnone
  · intro hwords
    cases hread : literal "SPDX-License-Identifier:" (trimStart cs) with
    | none => rfl
    | some rest =>
      obtain ⟨s, hs, hcs⟩ := exists_of_literal_trimStart hread
      exact absurd ⟨s, rest, hs, hcs⟩ hwords

/-- The front of a licence line is read where a line starts. -/
theorem licenseHead_append {before : Option Char} (hbefore : lineStart before = true)
    {run s rest : List Char} (hrun : ∀ c ∈ run, isBlank c = true) (hs : ∀ c ∈ s, isSpace c = true) :
    licenseHead before
      (run ++ ("//".toList ++ (s ++ ("SPDX-License-Identifier:".toList ++ rest)))) = some rest := by
  have hslashes (cs : List Char) :
      (run ++ ("//".toList ++ cs)).dropWhile isBlank = "//".toList ++ cs :=
    dropWhile_append_run hrun rfl
  simp only [licenseHead, hbefore, guard_true, hslashes, literal_append, literal_trimStart hs,
    Option.bind_eq_bind, Option.bind_some, Option.pure_def]

theorem exists_of_licenseHead {before : Option Char} {cs rest : List Char}
    (h : licenseHead before cs = some rest) : lineStart before = true ∧ ∃ run s,
      (∀ c ∈ run, isBlank c = true) ∧ (∀ c ∈ s, isSpace c = true) ∧
      cs = run ++ ("//".toList ++ (s ++ ("SPDX-License-Identifier:".toList ++ rest))) := by
  simp only [licenseHead, Option.bind_eq_bind, Option.bind_eq_some_iff, Option.guard_eq_some'] at h
  obtain ⟨-, hbefore, comment, hslashes, hwords⟩ := h
  obtain ⟨run, hcs, hrun⟩ := exists_eq_append_dropWhile isBlank cs
  obtain ⟨s, hs, rfl⟩ := exists_of_literal_trimStart hwords
  rw [literal_eq_some.mp hslashes] at hcs
  exact ⟨hbefore, run, s, hrun, hs, hcs⟩

theorem licenseComment_eq_none_iff {before : Option Char} {cs : List Char} :
    licenseComment before cs = none ↔ ¬ (lineStart before = true ∧ StartsLicense cs) := by
  constructor
  · rintro hnone ⟨hbefore, run, _, hrun, rfl, s, rest, hs, rfl⟩
    rw [licenseComment, licenseHead_append hbefore hrun hs] at hnone
    cases hnone
  · intro hstarts
    cases hread : licenseHead before cs with
    | none => rw [licenseComment, hread]; rfl
    | some rest =>
      obtain ⟨hbefore, run, s, hrun, hs, hcs⟩ := exists_of_licenseHead hread
      exact absurd ⟨hbefore, run, _, hrun, hcs, s, rest, hs, rfl⟩ hstarts

/-- `LicenseLine t rest`: `t` is a whole licence line before `rest`, with its line break or at the
end of the text. -/
inductive LicenseLine : List Char → List Char → Prop where
  | form {run s line ending rest : List Char} (hrun : ∀ c ∈ run, isBlank c = true)
      (hs : ∀ c ∈ s, isSpace c = true) (hline : '\n' ∉ line)
      (hending : ending = "\n".toList ∨ ending = [] ∧ rest = []) :
      LicenseLine (run ++ ("//".toList ++ (s ++ ("SPDX-License-Identifier:".toList ++
        (line ++ ending))))) rest

/-- The rest of a line and its line break are skipped. -/
theorem skipLineBreak_append {line ending rest : List Char} (hline : '\n' ∉ line)
    (hending : ending = "\n".toList ∨ ending = [] ∧ rest = []) :
    skipLineBreak (restOfLine (line ++ (ending ++ rest))).2 = rest := by
  have hrun : ∀ c ∈ line, (c != '\n') = true := fun c hc => by
    simpa using ne_of_mem_of_not_mem hc hline
  rcases hending with rfl | ⟨rfl, rfl⟩
  · rw [restOfLine, spanOf, dropWhile_append_run hrun rfl]
    rfl
  · rw [restOfLine, spanOf, dropWhile_append_run hrun rfl]
    rfl

theorem exists_of_skipLineBreak (cs : List Char) : ∃ line ending, '\n' ∉ line ∧
    (ending = "\n".toList ∨ ending = [] ∧ skipLineBreak (restOfLine cs).2 = []) ∧
    cs = line ++ (ending ++ skipLineBreak (restOfLine cs).2) := by
  obtain ⟨line, hcs, hline⟩ := exists_eq_append_dropWhile (· != '\n') cs
  have hline : '\n' ∉ line := fun hmem => absurd (hline _ hmem) (by decide)
  cases hrest : cs.dropWhile (· != '\n') with
  | nil =>
    rw [hrest] at hcs
    refine ⟨line, [], hline, .inr ⟨rfl, ?_⟩, ?_⟩ <;> rw [restOfLine, spanOf, hrest]
    · rfl
    · exact hcs
  | cons c rest =>
    obtain rfl : c = '\n' := by simpa using head?_dropWhile_ne (congrArg List.head? hrest)
    rw [hrest] at hcs
    refine ⟨line, "\n".toList, hline, .inl rfl, ?_⟩
    rw [restOfLine, spanOf, hrest]
    exact hcs

theorem LicenseLine.licenseComment_append {t rest : List Char} (h : LicenseLine t rest)
    {before : Option Char} (hbefore : lineStart before = true) :
    licenseComment before (t ++ rest) = some (.upTo () (t ++ rest) rest) := by
  obtain @⟨run, s, line, ending, rest, hrun, hs, hline, hending⟩ := h
  simp only [licenseComment, List.append_assoc, licenseHead_append hbefore hrun hs,
    skipLineBreak_append hline hending, Option.bind_eq_bind, Option.bind_some, Option.pure_def]

theorem takes_licenseLine : licenseComment.Takes fun before _ t rest =>
    lineStart before = true ∧ LicenseLine t rest := by
  intro before cs h hh
  simp only [licenseComment, Option.bind_eq_bind, Option.bind_eq_some_iff, Option.pure_def,
    Option.some.injEq] at hh
  obtain ⟨line, hhead, rfl⟩ := hh
  obtain ⟨hbefore, run, s, hrun, hs, rfl⟩ := exists_of_licenseHead hhead
  obtain ⟨line', ending, hline, hending, hcs⟩ := exists_of_skipLineBreak line
  generalize skipLineBreak (restOfLine line).2 = rest at hending hcs
  subst hcs
  have hform := LicenseLine.form hrun hs hline hending
  refine ⟨_, rest, ?_, ?_, Hit.size_upTo_of_eq _ ?_, hbefore, hform⟩
  · simp only [List.append_assoc]
  · simp
  · simp only [List.append_assoc]

namespace LicenseLine

variable {t rest : List Char}

/-- A licence line is one before any other text, unless it is the end of the text. -/
theorem before_other (h : LicenseLine t rest) {rest' : List Char} (hend : rest = [] → rest' = []) :
    LicenseLine t rest' := by
  obtain @⟨run, s, line, ending, rest, hrun, hs, hline, hending⟩ := h
  exact .form hrun hs hline (hending.imp_right fun hnil => ⟨hnil.1, hend hnil.2⟩)

/-- Behind a licence line a line starts. -/
theorem lineStart_getLast? (h : LicenseLine t rest) (hrest : rest ≠ []) :
    lineStart t.getLast? = true := by
  obtain @⟨run, s, line, ending, rest, -, -, -, hending⟩ := h
  obtain rfl : ending = "\n".toList := hending.resolve_right fun hnil => hrest hnil.2
  simp only [← List.append_assoc]
  rw [List.getLast?_append_of_ne_nil _ (by decide)]
  rfl

theorem has_words (h : LicenseLine t rest) : "SPDX-License-Identifier:".toList <:+: t := by
  obtain @⟨run, s, line, ending, rest, -, -, -, -⟩ := h
  exact ⟨run ++ ("//".toList ++ s), line ++ ending, by simp only [List.append_assoc]⟩

theorem colon_mem (h : LicenseLine t rest) : ':' ∈ t := h.has_words.subset (by decide)

end LicenseLine

/-- The front of a licence line ends with its first colon. -/
theorem StartsLicense.of_append {u rest : List Char} (h : StartsLicense (u ++ rest)) (hu : ':' ∈ u)
    (rest' : List Char) : StartsLicense (u ++ rest') := by
  obtain ⟨run, _, hrun, heq, s, behind, hs, rfl⟩ := h
  -- the front up to the colon
  generalize hhead : run ++ ("//".toList ++ (s ++ "SPDX-License-Identifier".toList)) = head
  have hcolon : ':' ∉ head := by
    rw [← hhead]
    simp only [List.mem_append, not_or]
    exact ⟨fun hmem => absurd (hrun _ hmem) (by decide), by decide,
      fun hmem => absurd (hs _ hmem) (by decide), by decide⟩
  have hwords : "SPDX-License-Identifier:".toList =
      "SPDX-License-Identifier".toList ++ ":".toList := by decide
  have heq : u ++ rest = head ++ (":".toList ++ behind) := by
    rw [heq, ← hhead, hwords]
    simp only [List.append_assoc]
  rcases List.append_eq_append_iff.mp heq with ⟨more, rfl, -⟩ | ⟨more, rfl, hmore⟩
  · exact absurd (List.mem_append_left more hu) hcolon
  · have hmem : ':' ∈ more := (List.mem_append.mp hu).resolve_left hcolon
    cases more with
    | nil => cases hmem
    | cons c more =>
      obtain rfl : ':' = c := (List.cons.inj hmore).1
      have hrest : head ++ ':' :: more ++ rest' = head ++ ":".toList ++ (more ++ rest') := by simp
      refine ⟨run, s ++ ("SPDX-License-Identifier:".toList ++ (more ++ rest')), hrun, ?_,
        s, more ++ rest', hs, rfl⟩
      rw [hrest, ← hhead, hwords]
      simp only [List.append_assoc]

/-! ## Seams -/

/-- Whether behind every hit the text goes on without the words that declare a licence. -/
def linesApart : List (Piece Unit) → Bool
  | [] => true
  | .gap _ :: ps => linesApart ps
  | .hit _ _ :: ps =>
    (literal "SPDX-License-Identifier:" (trimStart (ps.flatMap Piece.text))).isNone && linesApart ps

/-- As `linesApart`, for the hits behind the first one. -/
def laterLinesApart : List (Piece Unit) → Bool
  | [] => true
  | .gap _ :: ps => laterLinesApart ps
  | .hit _ _ :: ps => linesApart ps

/-- Nothing is left of an empty text. -/
theorem gapText_eq_nil {α : Type} {ps : List (Piece α)} (h : ps.flatMap Piece.text = []) :
    ps.flatMap Piece.gapText = [] := by
  rw [List.flatMap_eq_nil_iff] at h ⊢
  intro piece hpiece
  cases piece with
  | gap c => exact h _ hpiece
  | hit v t => rfl

/-! ## Cuts -/

/-- Pieces of a search for licence lines behind the character `before`, in which those lines stand
apart from what follows them. -/
inductive LineCut : Option Char → List (Piece Unit) → Prop where
  | nil {before : Option Char} : LineCut before []
  | gap {before : Option Char} {c : Char} {ps : List (Piece Unit)}
      (hc : ¬ (lineStart before = true ∧ StartsLicense (c :: ps.flatMap Piece.text)))
      (h : LineCut (some c) ps) : LineCut before (.gap c :: ps)
  | removed {before : Option Char} {v : Unit} {t : List Char} {ps : List (Piece Unit)}
      (hbefore : lineStart before = true) (ht : LicenseLine t (ps.flatMap Piece.text))
      (hapart : ¬ DeclaresLicense (ps.flatMap Piece.text)) (h : LineCut t.getLast? ps) :
      LineCut before (.hit v t :: ps)

theorem lineCut_pieces {before : Option Char} {cs : List Char}
    (h : linesApart (licenseComment.pieces before cs) = true) :
    LineCut before (licenseComment.pieces before cs) := by
  refine takes_licenseLine.induction (motive := fun before _ ps => linesApart ps = true →
    LineCut before ps) ?_ ?_ ?_ before cs h
  · exact fun _ _ => .nil
  · intro before c cs hnone ih hapart
    refine .gap ?_ (ih hapart)
    rw [Pattern.text_pieces]
    exact licenseComment_eq_none_iff.mp hnone
  · rintro before v t rest _ ⟨hbefore, hline⟩ ih hapart
    obtain ⟨hwords, hrest⟩ := Bool.and_eq_true_iff.mp hapart
    refine .removed hbefore ?_ ?_ (ih hrest)
    · rwa [Pattern.text_pieces]
    · exact literal_trimStart_eq_none_iff.mp (Option.isNone_iff_eq_none.mp hwords)

namespace LineCut

variable {before : Option Char} {ps : List (Piece Unit)}

/-- Inside a line nothing is removed. -/
theorem exists_of_append (h : LineCut before ps) {u rest : List Char} (hu : '\n' ∉ u)
    (hbefore : lineStart before = false) (hout : ps.flatMap Piece.gapText = u ++ rest) :
    ∃ ps', ps.flatMap Piece.text = u ++ ps'.flatMap Piece.text ∧ ps'.flatMap Piece.gapText = rest ∧
      ∃ before', LineCut before' ps' := by
  induction u generalizing before ps with
  | nil => exact ⟨ps, rfl, hout, before, h⟩
  | cons d u ih =>
    cases h with
    | nil => cases hout
    | removed hstart => 
      rw [hstart] at hbefore
      cases hbefore
    | @gap _ c ps _ h =>
      obtain ⟨rfl, htail⟩ := List.cons.inj hout
      obtain ⟨hd, hu⟩ : c ≠ '\n' ∧ '\n' ∉ u := by simpa [eq_comm] using hu
      obtain ⟨ps', htext, hrest⟩ := ih h hu (by simpa [lineStart] using hd) htail
      exact ⟨ps', congrArg (c :: ·) htext, hrest⟩

/-- Where the words that declare a licence are left at the front, they stood there before. -/
theorem declaresLicense (h : LineCut before ps)
    (hout : DeclaresLicense (ps.flatMap Piece.gapText)) :
    DeclaresLicense (ps.flatMap Piece.text) := by
  induction h with
  | nil => exact hout
  | @gap before c ps _ h ih =>
    obtain ⟨s, rest, hs, heq⟩ := hout
    cases s with
    | nil =>
      obtain rfl : c = 'S' := (List.cons.inj heq).1
      obtain ⟨ps', htext, -⟩ := h.exists_of_append (u := "PDX-License-Identifier:".toList)
        (by decide) (by decide) (List.cons.inj heq).2
      exact ⟨[], ps'.flatMap Piece.text, by simp, congrArg ('S' :: ·) htext⟩
    | cons d s =>
      obtain ⟨rfl, htail⟩ := List.cons.inj heq
      obtain ⟨hd, hs⟩ := List.forall_mem_cons.mp hs
      obtain ⟨s', rest', hs', htext⟩ := ih ⟨s, rest, hs, htail⟩
      exact ⟨c :: s', rest', List.forall_mem_cons.mpr ⟨hd, hs'⟩, congrArg (c :: ·) htext⟩
  | removed _ _ hapart _ ih => exact absurd (ih hout) hapart

/-- Where a licence line is left behind a character, it stood there before. -/
theorem startsLicense {c : Char} (h : LineCut (some c) ps)
    (hout : StartsLicense (c :: ps.flatMap Piece.gapText)) :
    StartsLicense (c :: ps.flatMap Piece.text) := by
  obtain ⟨run, rest, hrun, heq, hwords⟩ := hout
  have hbreak : '\n' ∉ run ++ "//".toList := by
    rw [List.mem_append, not_or]
    exact ⟨fun hmem => absurd (hrun _ hmem) (by decide), by decide⟩
  obtain ⟨d, u, hslashes⟩ := List.exists_cons_of_ne_nil (show run ++ "//".toList ≠ [] by simp)
  rw [← List.append_assoc, hslashes] at heq
  rw [hslashes] at hbreak
  obtain ⟨rfl, hout⟩ := List.cons.inj heq
  obtain ⟨hc, hu⟩ : c ≠ '\n' ∧ '\n' ∉ u := by simpa [eq_comm] using hbreak
  obtain ⟨ps', htext, rfl, _, h'⟩ := h.exists_of_append hu (by simpa [lineStart] using hc) hout
  refine ⟨run, ps'.flatMap Piece.text, hrun, ?_, h'.declaresLicense hwords⟩
  rw [htext, ← List.append_assoc, hslashes, List.cons_append]

/-- No licence line starts in what is left. -/
theorem throughout (h : LineCut before ps) {before' : Option Char}
    (hbefore : lineStart before' = true → lineStart before = true) :
    Throughout (fun b cs => licenseComment b cs = none) before' (ps.flatMap Piece.gapText) [] := by
  induction h generalizing before' with
  | nil => trivial
  | @gap before c ps hc h ih =>
    refine ⟨licenseComment_eq_none_iff.mpr ?_, ih id⟩
    rintro ⟨hstart, hlicense⟩
    rw [List.append_nil] at hlicense
    exact hc ⟨hbefore hstart, h.startsLicense hlicense⟩
  | @removed before v t ps _ ht _ h ih =>
    by_cases hnil : ps.flatMap Piece.text = []
    · have hout : ps.flatMap Piece.gapText = [] := gapText_eq_nil hnil
      rw [List.flatMap_cons, hout]
      trivial
    · exact ih fun _ => ht.lineStart_getLast? hnil

end LineCut

/-- Behind the gaps the first hit is kept. -/
theorem keepFirst_gaps {α : Type} (front : List Char) (v : α) (t : List Char)
    (ps : List (Piece α)) :
    keepFirst (front.map .gap ++ .hit v t :: ps) = front ++ (t ++ ps.flatMap Piece.gapText) := by
  induction front with
  | nil => rfl
  | cons c front ih => exact congrArg (c :: ·) ih

theorem laterLinesApart_gaps (front : List Char) (v : Unit) (t : List Char)
    (ps : List (Piece Unit)) :
    laterLinesApart (front.map .gap ++ .hit v t :: ps) = linesApart ps := by
  induction front with
  | nil => rfl
  | cons c front ih => exact ih

theorem keepFirst_gaps_nil {α : Type} (front : List Char) :
    keepFirst (front.map (.gap : Char → Piece α)) = front := by
  induction front with
  | nil => rfl
  | cons c front ih => exact congrArg (c :: ·) ih

/-- The first licence line is found in what is left, and no other. -/
theorem pieces_keepFirst {front t rest : List Char}
    (hfront : Throughout (fun b cs => licenseComment b cs = none) none front (t ++ rest))
    (hstart : lineStart (front.getLast?.or none) = true) (ht : LicenseLine t rest)
    (hapart : linesApart (licenseComment.pieces t.getLast? rest) = true) :
    let out := (licenseComment.pieces t.getLast? rest).flatMap Piece.gapText
    licenseComment.split (front ++ (t ++ out)) = front.map .gap ++ .hit () t :: out.map .gap := by
  intro out
  have hline : LicenseLine t out := ht.before_other fun hnil => by
    refine gapText_eq_nil ?_
    rw [Pattern.text_pieces, hnil]
  have hpassed : Throughout (fun b cs => licenseComment b cs = none) none front (t ++ out) := by
    refine hfront.imp fun b tail hnone => ?_
    rw [licenseComment_eq_none_iff] at hnone ⊢
    rintro ⟨hb, hlicense⟩
    rw [← List.append_assoc] at hlicense hnone
    have hcolon : ':' ∈ tail ++ t := List.mem_append_right tail ht.colon_mem
    exact hnone ⟨hb, hlicense.of_append hcolon rest⟩
  have hrest : licenseComment.pieces t.getLast? out = out.map .gap :=
    Pattern.pieces_of_throughout_nil ((lineCut_pieces hapart).throughout id)
  have hhit := Pattern.pieces_of_hit (hline.licenseComment_append hstart)
    (List.ne_nil_of_mem hline.colon_mem) (Hit.size_upTo ..)
  rw [Pattern.split, Pattern.pieces_of_throughout hpassed, hhit, hrest]

/-- Whether the licence lines of a text that are removed stand apart. -/
def licensesApart (cs : List Char) : Bool := laterLinesApart (licenseComment.split cs)

/-- **Licence lines that stand apart are removed at once.** -/
theorem dedupeLicense_again {cs : List Char} (h : licensesApart cs = true) :
    dedupeLicense (dedupeLicense cs).text = ⟨(dedupeLicense cs).text, 0⟩ := by
  rcases takes_licenseLine.exists_first none cs with
    hgaps | ⟨v, front, t, rest, rfl, -, ⟨hstart, ht⟩, hfront, hpieces⟩
  · have hcs : dedupeLicense cs = ⟨cs, 0⟩ := by
      rw [dedupeLicense, Pattern.count, Pattern.values, Pattern.split, hgaps, keepFirst_gaps_nil,
        filterMap_value?_gaps]
      rfl
    rw [hcs, hcs]
  · rw [licensesApart, Pattern.split, hpieces, laterLinesApart_gaps] at h
    have hagain := pieces_keepFirst hfront hstart ht h
    have htext : (dedupeLicense (front ++ (t ++ rest))).text = _ :=
      (congrArg keepFirst hpieces).trans (keepFirst_gaps ..)
    rw [htext]
    simp only [dedupeLicense, Pattern.count, Pattern.values, hagain, keepFirst_gaps,
      flatMap_gapText_gaps, List.filterMap_append, filterMap_value?_gaps, List.filterMap_cons,
      Piece.value?, List.nil_append, List.length_cons, List.length_nil, Nat.zero_add, Nat.sub_self]

end ContractBuild.Fix
