import ContractBuild.Proofs.CommentLine
import ContractBuild.Proofs.ImportWords

/-!
# Bodies that leave no comment open

- **Comments that end** (`blocksClosed`, `inBlock_after`): every block comment of a text is closed
  if and only if a reader does not stand in one at the end.
- **Texts on their own** (`SelfContained`): neither a literal nor a comment runs over the end of the
  text, so what follows it on a new line has the comments that it has alone
  (`SelfContained.comments_append_line`).
- **Cuts** (`Stretch.cutsWhole`, `SelfContained.cut`): a text without some stretches is on its own
  if every one of them ends at the place where it starts.

Main statement: `stripDirectives_closed`. A directive that ends elsewhere can leave a comment open
(`stripDirectives_opens`).
-/

namespace ContractBuild

namespace Solidity

open Text Place

/-! ## Comments that end -/

/-- Whether a comment is closed, if it is a block comment. -/
def isTerminated : List Char → Bool
  | '/' :: '*' :: t => ['*', '/'].isSuffixOf t
  | _ => true

/-- Every block comment of a text is closed. -/
def blocksClosed (cs : List Char) : Bool := (comments cs).all isTerminated

/-- Whether a comment or a literal ends before the text does. -/
def Lexeme.isEnded : Lexeme → List Char → Bool
  | .comment, t => isTerminated t
  | .literal, _ => true

/-- Whether a piece is no comment that is left open. -/
def isEndedPiece : Piece Lexeme → Bool
  | .gap _ => true
  | .hit v t => v.isEnded t

theorem blocksClosed_eq (cs : List Char) :
    blocksClosed cs = (commentOrLiteral.split cs).all isEndedPiece := by
  rw [blocksClosed, comments]
  induction commentOrLiteral.split cs with
  | nil => rfl
  | cons piece ps ih =>
    rw [List.all_cons, ← ih]
    cases piece with
    | gap c => rfl
    | hit v t => cases v <;> rfl

namespace Place

/-- Whether a reader stands in a block comment. -/
def inBlock : Place → Bool
  | block | star => true
  | _ => false

/-- A line break leads to code, unless it stands in a literal or in a block comment. -/
theorem next_lineBreak {s : Place} (hs : s.isQuoted = true) :
    s.next '\n' = code ↔ s.inLiteral = false ∧ s.inBlock = false := by
  cases s with
  | code | slash | line => exact ⟨fun _ => ⟨rfl, rfl⟩, fun _ => rfl⟩
  | block | star | escape quote => exact ⟨nofun, nofun⟩
  | literal quote =>
    have hquote : '\n' ≠ quote := by
      rintro rfl
      cases hs
    simp [next, hquote, inLiteral]

end Place

/-- A literal is read up to its closing quote, whatever follows. -/
theorem literalEnd_read {quote : Char} (hquote : isQuote quote = true) {cs rest : List Char}
    (h : literalEnd quote cs = some rest) : (literal quote).after cs = code.after rest ∧
      ∀ more, literalEnd quote (cs ++ more) = some (rest ++ more) := by
  have hslash : quote ≠ '\\' := by
    rintro rfl
    cases hquote
  fun_induction literalEnd quote cs with
  | case1 => cases h
  | case2 => cases h
  | case3 c cs hc ih =>
    obtain ⟨hafter, hmore⟩ := ih h
    refine ⟨?_, fun more => ?_⟩
    · simpa [next, hslash.symm] using hafter
    · rw [List.cons_append, List.cons_append, literalEnd, if_neg hc, hmore]
  | case4 c cs hnot hc =>
    cases h
    rw [beq_iff_eq] at hc
    subst hc
    refine ⟨by simp [next], fun more => ?_⟩
    rw [List.cons_append, literalEnd, if_pos (beq_self_eq_true c)]
    exact fun _ _ e => absurd e hslash
  | case5 => cases h
  | case6 c cs hnot hc hend ih =>
    obtain ⟨hafter, hmore⟩ := ih h
    simp only [Bool.or_eq_true, beq_iff_eq, not_or] at hc hend
    refine ⟨by simpa [next, hc, hend.2] using hafter, fun more => ?_⟩
    rw [List.cons_append, literalEnd, if_neg (by simpa using hc), if_neg (by simpa using hend),
      hmore]
    exact fun _ _ e => absurd e hend.2

/-- A line comment is read up to the end of its line, whatever follows on the next. -/
theorem restOfLine_read (cs : List Char) :
    (line.after cs).inBlock = (code.after (restOfLine cs).2).inBlock ∧
      ∀ more, (restOfLine (cs ++ '\n' :: more)).2 = (restOfLine cs).2 ++ '\n' :: more := by
  induction cs with
  | nil => exact ⟨rfl, fun _ => rfl⟩
  | cons c cs ih =>
    by_cases hc : c = '\n'
    · subst hc
      exact ⟨rfl, fun _ => rfl⟩
    · simpa [restOfLine, spanOf, next, hc] using ih

/-- Behind a star that closes nothing a block comment is read on. -/
theorem block_next_after {c : Char} {cs : List Char}
    (hnot : ∀ rest, c = '*' → cs = '/' :: rest → False) (hne : cs ≠ []) :
    (block.next c).after cs = block.after cs := by
  obtain ⟨d, cs, rfl⟩ := List.exists_cons_of_ne_nil hne
  by_cases hc : c = '*'
  · subst hc
    have hd : d ≠ '/' := fun e => hnot cs rfl (e ▸ rfl)
    simp [next, hd]
  · simp [next, hc]

/-- A block comment is read up to its end, whatever follows, or it is left open. -/
theorem blockEnd_read (cs : List Char) :
    (∃ t, cs = t ++ '*' :: '/' :: blockEnd cs ∧ block.after cs = code.after (blockEnd cs) ∧
      ∀ more, blockEnd (cs ++ more) = blockEnd cs ++ more) ∨
    (blockEnd cs = [] ∧ (block.after cs).inBlock = true ∧ ¬ ['*', '/'] <:+ cs) := by
  fun_induction blockEnd cs with
  | case1 => exact .inr ⟨rfl, rfl, by decide⟩
  | case2 rest => exact .inl ⟨[], rfl, rfl, fun _ => rfl⟩
  | case3 c cs hnot ih =>
    rcases ih with ⟨t, hcs, hafter, hmore⟩ | ⟨hend, hblock, hopen⟩
    · have hne : cs ≠ [] := by
        rintro rfl
        simp at hcs
      refine .inl ⟨c :: t, congrArg (c :: ·) hcs, ?_, fun more => ?_⟩
      · rw [after_cons, block_next_after hnot hne, hafter]
      · rw [List.cons_append, blockEnd, hmore]
        intro rest hc hrest
        obtain ⟨d, cs, rfl⟩ := List.exists_cons_of_ne_nil hne
        cases hrest
        exact hnot cs hc rfl
    · refine .inr ⟨hend, ?_, ?_⟩
      · by_cases hne : cs = []
        · subst hne
          by_cases hc : c = '*' <;> simp [next, inBlock, hc]
        · rw [after_cons, block_next_after hnot hne, hblock]
      · rintro hsuffix
        rcases List.suffix_cons_iff.1 hsuffix with heq | hsuffix
        · cases heq
          exact hnot [] rfl rfl
        · exact hopen hsuffix

/-- What is known of a comment or a literal before `rest`: whether the text ends in a block comment,
and that the same is found if a line is put behind the text. -/
structure Lexeme.Stands (v : Lexeme) (t rest : List Char) : Prop where
  inBlock : (code.after (t ++ rest)).inBlock = (!v.isEnded t || (code.after rest).inBlock)
  again : v.isEnded t = true → ∀ before more,
    commentOrLiteral before (t ++ (rest ++ '\n' :: more)) =
      some (.upTo v (t ++ (rest ++ '\n' :: more)) (rest ++ '\n' :: more))

theorem stands_literal {quote : Char} (hquote : isQuote quote = true) {cs rest : List Char}
    (h : literalEnd quote cs = some rest) :
    ∃ t, cs = t ++ rest ∧ Lexeme.literal.Stands (quote :: t) rest := by
  obtain ⟨t, hcs, -⟩ := leads_literal hquote h
  obtain ⟨hafter, hmore⟩ := literalEnd_read hquote h
  rw [hcs] at hafter hmore
  refine ⟨t, hcs, ?_, fun _ before more => ?_⟩
  · have hopen : code.next quote = literal quote := by simp [next, opened, hquote]
    rw [List.cons_append, after_cons, hopen, hafter]
    rfl
  · have hend := hmore ('\n' :: more)
    rw [List.append_assoc] at hend
    simp only [isQuote, Bool.or_eq_true, beq_iff_eq] at hquote
    rcases hquote with rfl | rfl
    · simp [commentOrLiteral, hend]
    · simp [commentOrLiteral, hend]

theorem stands_line (cs : List Char) : ∃ t, cs = t ++ (restOfLine cs).2 ∧
    Lexeme.comment.Stands ('/' :: '/' :: t) (restOfLine cs).2 := by
  obtain ⟨t, hcs, -⟩ := leads_line cs
  obtain ⟨hblock, hmore⟩ := restOfLine_read cs
  generalize (restOfLine cs).2 = rest at hcs hblock hmore ⊢
  subst hcs
  refine ⟨t, rfl, hblock, fun _ before more => ?_⟩
  have hend := hmore more
  rw [List.append_assoc] at hend
  simp [commentOrLiteral, hend]

theorem stands_block (cs : List Char) : ∃ t, cs = t ++ blockEnd cs ∧
    Lexeme.comment.Stands ('/' :: '*' :: t) (blockEnd cs) := by
  rcases blockEnd_read cs with ⟨t, hcs, hafter, hmore⟩ | ⟨hend, hblock, hopen⟩
  · generalize blockEnd cs = rest at hcs hafter hmore ⊢
    subst hcs
    have hended : isTerminated ('/' :: '*' :: (t ++ ['*', '/'])) = true :=
      List.isSuffixOf_iff_suffix.2 (List.suffix_append ..)
    refine ⟨t ++ ['*', '/'], by simp, ?_, fun _ before more => ?_⟩
    · rw [Lexeme.isEnded, hended, ← hafter]
      simp [next, opened, isQuote]
    · have hend := hmore ('\n' :: more)
      simp only [List.append_assoc, List.cons_append] at hend
      simp [commentOrLiteral, hend]
  · rw [hend]
    have hnot : isTerminated ('/' :: '*' :: cs) = false := by
      rw [Bool.eq_false_iff]
      exact fun h => hopen (List.isSuffixOf_iff_suffix.1 h)
    refine ⟨cs, (List.append_nil cs).symm, ?_, fun h => ?_⟩
    · rw [Lexeme.isEnded, hnot, List.append_nil]
      exact hblock
    · rw [Lexeme.isEnded, hnot] at h
      cases h

theorem takes_commentOrLiteral_stands : commentOrLiteral.Takes fun _ v t rest =>
    v.Stands t rest := by
  intro before cs h hh
  unfold commentOrLiteral at hh
  split at hh
  · obtain ⟨rest, hrest, rfl⟩ := Option.map_eq_some_iff.1 hh
    obtain ⟨t, rfl, hstands⟩ := stands_literal rfl hrest
    exact ⟨_, rest, rfl, by simp, Hit.size_upTo _ ('"' :: t) rest, hstands⟩
  · obtain ⟨rest, hrest, rfl⟩ := Option.map_eq_some_iff.1 hh
    obtain ⟨t, rfl, hstands⟩ := stands_literal rfl hrest
    exact ⟨_, rest, rfl, by simp, Hit.size_upTo _ ('\'' :: t) rest, hstands⟩
  · rename_i cs
    cases hh
    obtain ⟨t, hcs, hstands⟩ := stands_line cs
    generalize (restOfLine cs).2 = rest at hcs hstands ⊢
    subst hcs
    exact ⟨_, rest, rfl, by simp, Hit.size_upTo _ ('/' :: '/' :: t) rest, hstands⟩
  · rename_i cs
    cases hh
    obtain ⟨t, hcs, hstands⟩ := stands_block cs
    generalize blockEnd cs = rest at hcs hstands ⊢
    subst hcs
    exact ⟨_, rest, rfl, by simp, Hit.size_upTo _ ('/' :: '*' :: t) rest, hstands⟩
  · cases hh

/-- A character that starts neither is read alike if a line is put behind the text, unless it is a
quote. -/
theorem gap_read {before : Option Char} {c : Char} {cs : List Char}
    (h : commentOrLiteral before (c :: cs) = none) (hc : isQuote c = false) :
    (code.after (c :: cs)).inBlock = (code.after cs).inBlock ∧
      ∀ more, commentOrLiteral before (c :: (cs ++ '\n' :: more)) = none := by
  have hhead : c = '/' → cs.head? ≠ some '/' ∧ cs.head? ≠ some '*' := by
    rintro rfl
    cases cs with
    | nil => simp
    | cons d cs =>
      simp only [List.head?_cons, ne_eq, Option.some.injEq]
      constructor <;>
      · rintro rfl
        cases h
  constructor
  · by_cases hslash : c = '/'
    · subst hslash
      obtain ⟨hline, hblock⟩ := hhead rfl
      cases cs with
      | nil => rfl
      | cons d cs =>
        simp only [List.head?_cons, ne_eq, Option.some.injEq] at hline hblock
        simp [next, opened, hline, hblock, isQuote]
    · simp [next, opened, hc, hslash]
  · intro more
    unfold commentOrLiteral
    split
    · rename_i heq
      obtain ⟨rfl, -⟩ := List.cons.inj heq
      cases hc
    · rename_i heq
      obtain ⟨rfl, -⟩ := List.cons.inj heq
      cases hc
    · rename_i heq
      obtain ⟨rfl, heq⟩ := List.cons.inj heq
      cases cs with
      | nil => cases heq
      | cons d cs =>
        cases heq
        exact absurd rfl (hhead rfl).1
    · rename_i heq
      obtain ⟨rfl, heq⟩ := List.cons.inj heq
      cases cs with
      | nil => cases heq
      | cons d cs =>
        cases heq
        exact absurd rfl (hhead rfl).2
    · rfl

theorem closed_gap {before : Option Char} {c : Char} {cs : List Char}
    (hgap : commentOrLiteral before (c :: cs) = none) (h : code.closed (c :: cs) = true) :
    isQuote c = false ∧ code.closed cs = true := by
  have hc : isQuote c = false := by
    rw [Bool.eq_false_iff]
    intro hc
    rw [closed_of_open_quote hgap hc] at h
    cases h
  rw [(leads_gap hgap hc).closed] at h
  exact ⟨hc, h⟩

/-- **Every block comment is closed if and only if the text does not end in one.** -/
theorem inBlock_after {cs : List Char} (h : code.closed cs = true) :
    (code.after cs).inBlock = !blocksClosed cs := by
  rw [blocksClosed_eq]
  refine (takes_commentOrLiteral.and takes_commentOrLiteral_stands).induction
    (motive := fun _ cs ps => code.closed cs = true →
      (code.after cs).inBlock = !ps.all isEndedPiece) (fun _ _ => rfl) ?_ ?_ none cs h
  · intro before c cs hgap ih h
    obtain ⟨hc, h⟩ := closed_gap hgap h
    rw [(gap_read hgap hc).1, ih h]
    rfl
  · rintro before v t rest - ⟨hleads, hstands⟩ ih h
    rw [hleads.closed] at h
    rw [hstands.inBlock, ih h, List.all_cons, Bool.not_and]
    rfl

/-- **What stands behind a text on a new line is searched as if it stood alone,** if all literals
and comments of the text are closed. -/
theorem split_append_line {cs : List Char} (h : code.closed cs = true)
    (hblocks : blocksClosed cs = true) (more : List Char) : commentOrLiteral.split (cs ++ '\n' :: more) =
      commentOrLiteral.split cs ++ .gap '\n' :: commentOrLiteral.split more := by
  rw [blocksClosed_eq] at hblocks
  have hbefore : ∀ cs, commentOrLiteral (some '\n') cs = commentOrLiteral none cs := fun _ => rfl
  refine (takes_commentOrLiteral.and takes_commentOrLiteral_stands).induction
    (motive := fun before cs ps => code.closed cs = true → ps.all isEndedPiece = true →
      commentOrLiteral.pieces before (cs ++ '\n' :: more) =
        ps ++ .gap '\n' :: commentOrLiteral.split more) ?_ ?_ ?_ none cs h hblocks
  · intro before _ _
    rw [List.nil_append, Pattern.pieces_of_gap rfl, Pattern.pieces_congr_before hbefore]
    rfl
  · intro before c cs hgap ih h hblocks
    obtain ⟨hc, h⟩ := closed_gap hgap h
    rw [List.cons_append, Pattern.pieces_of_gap ((gap_read hgap hc).2 more), ih h hblocks]
    rfl
  · rintro before v t rest hne ⟨hleads, hstands⟩ ih h hblocks
    obtain ⟨hended, hrest⟩ := Bool.and_eq_true_iff.1 hblocks
    rw [hleads.closed] at h
    rw [List.append_assoc, Pattern.pieces_of_hit (hstands.again hended before more) hne
      (Hit.size_upTo ..), ih h hrest]
    rfl

/-! ## Texts on their own -/

/-- `SelfContained cs`: every literal of the text is closed, and a reader who comes to a line break
behind it stands in code. -/
structure SelfContained (cs : List Char) : Prop where
  closed : code.closed cs = true
  ends : (code.after cs).next '\n' = code

theorem selfContained_iff {cs : List Char} :
    SelfContained cs ↔ quotesClosed cs = true ∧ blocksClosed cs = true := by
  rw [quotesClosed_eq]
  have hquoted : (code.after cs).isQuoted = true := isQuoted_after rfl cs
  constructor
  · rintro ⟨hclosed, hends⟩
    have hblock := ((next_lineBreak hquoted).1 hends).2
    rw [inBlock_after hclosed, Bool.not_eq_false'] at hblock
    exact ⟨hclosed, hblock⟩
  · rintro ⟨hclosed, hblocks⟩
    have hblock := inBlock_after hclosed
    rw [hblocks] at hblock
    have houtside := (Bool.and_eq_true_iff.1 hclosed).2
    rw [Bool.not_eq_true'] at houtside
    exact ⟨hclosed, (next_lineBreak hquoted).2 ⟨houtside, hblock⟩⟩

/-- Such a text comments out nothing that stands behind it on a new line. -/
theorem SelfContained.comments_append_line {cs : List Char} (h : SelfContained cs)
    (more : List Char) : comments (cs ++ '\n' :: more) = comments cs ++ comments more := by
  obtain ⟨-, hblocks⟩ := selfContained_iff.1 h
  rw [comments, split_append_line h.closed hblocks, List.filterMap_append,
    List.filterMap_cons_none rfl]
  rfl

theorem SelfContained.trim {cs : List Char} (h : SelfContained cs) : SelfContained (trim cs) := by
  obtain ⟨hclosed, hends⟩ := ends_trim h.closed h.ends
  exact ⟨hclosed, hends⟩

/-! ## Cuts -/

namespace Stretch

/-- Whether the rest of a line is kept, and no quote or slash stands in it. -/
def plainLine : List Stretch → Bool
  | [] => true
  | kept c :: rest => c == '\n' || !isQuote c && c != '/' && plainLine rest
  | changed _ _ :: _ => false

/-- Whether every changed stretch ends at the place where it starts, or starts in code and ends in a
line comment of which the rest is plain, and brings no comment mark together when it is removed. The
first place is that of a reader of the old text, the second that of a reader of the new one. -/
def cutsWhole : Place → Place → List Stretch → Bool
  | _, _, [] => true
  | s, s', kept c :: rest => cutsWhole (s.next c) (s'.next c) rest
  | s, s', changed old _ :: rest =>
    (s.after old == s.settled ||
      s.settled == code && s.after old == line && plainLine rest) &&
      joinsNothing s' (newText rest) && cutsWhole (s.after old) s' rest

/-- Readers of the old and of the new text stand at one place, or the second stands in code and the
first in a line comment of which the rest is plain. -/
def Beside (s s' : Place) (ss : List Stretch) : Prop :=
  Near s s' ss ∨ s = line ∧ s'.settled = code ∧ joinsNothing s' (newText ss) = true ∧
    plainLine ss = true

theorem Beside.inLiteral {s s' : Place} {ss : List Stretch} (h : Beside s s' ss) :
    s.inLiteral = s'.inLiteral := by
  rcases h with h | ⟨rfl, hs', -⟩
  · rw [← inLiteral_settled, h.settled, inLiteral_settled]
  · rw [← inLiteral_settled s', hs']
    rfl

theorem next_lineBreak_settled (s : Place) : s.settled.next '\n' = s.next '\n' := by
  cases s <;> rfl

/-- A character that is kept. -/
theorem Beside.next {s s' : Place} {c : Char} {rest : List Stretch}
    (h : Beside s s' (kept c :: rest)) : Beside (s.next c) (s'.next c) rest := by
  rcases h with h | ⟨rfl, hs', hjoins, hplain⟩
  · exact .inl (.inl h.next)
  · have hnext : s'.next c = code.next c := by
      rw [← hs']
      simpa [joinsNothing, newText, new] using hjoins
    rw [hnext]
    by_cases hc : c = '\n'
    · subst hc
      exact .inl (.inl rfl)
    · simp only [plainLine, beq_false_of_ne hc, Bool.false_or, Bool.and_eq_true, Bool.not_eq_true',
        bne_iff_ne] at hplain
      obtain ⟨⟨hquote, hslash⟩, hrest⟩ := hplain
      rw [show line.next c = line by simp [Place.next, hc],
        show code.next c = code by simp [Place.next, opened, hquote, hslash]]
      refine .inr ⟨rfl, rfl, ?_, hrest⟩
      simp [joinsNothing, Place.settled]

/-- A stretch that is removed. -/
theorem Beside.cut {s s' : Place} {old new : List Char} {rest : List Stretch}
    (h : Beside s s' (changed old new :: rest))
    (hplace : s.after old = s.settled ∨
      (s.settled = code ∧ s.after old = line) ∧ plainLine rest = true)
    (hjoins : joinsNothing s' (newText rest) = true) : Beside (s.after old) s' rest := by
  rcases h with h | ⟨-, -, -, hplain⟩
  · rcases hplace with hplace | ⟨⟨hs, hplace⟩, hplain⟩
    · rw [hplace, h.settled]
      exact .inl (.inr ⟨rfl, hjoins⟩)
    · rw [h.settled] at hs
      exact .inr ⟨hplace, hs, hjoins, hplain⟩
  · cases hplain

/-- **Where stretches are cut out whole, what was closed stays closed.** -/
theorem closed_newText {ss : List Stretch} (hcut : ∀ old new, changed old new ∈ ss → new = [])
    {s s' : Place} (hbeside : Beside s s' ss) (h : cutsWhole s s' ss = true)
    (hclosed : s.closed (oldText ss) = true) (hends : (s.after (oldText ss)).next '\n' = code) :
    s'.closed (newText ss) = true ∧ (s'.after (newText ss)).next '\n' = code := by
  induction ss generalizing s s' with
  | nil =>
    refine ⟨?_, ?_⟩
    · simpa [Place.closed, oldText, newText, unbroken, hbeside.inLiteral] using hclosed
    · rcases hbeside with hnear | ⟨-, hs', -⟩
      · show s'.next '\n' = code
        rw [← next_lineBreak_settled, ← hnear.settled, next_lineBreak_settled]
        exact hends
      · show s'.next '\n' = code
        rw [← next_lineBreak_settled, hs']
        rfl
  | cons x rest ih =>
    replace ih := @ih fun old new hmem => hcut old new (List.mem_cons_of_mem _ hmem)
    cases x with
    | kept c =>
      have hold : s.closed (c :: oldText rest) = true := hclosed
      rw [closed_cons, Bool.and_eq_true, hbeside.inLiteral] at hold
      obtain ⟨hrest, hend⟩ := ih hbeside.next h hold.2 hends
      refine ⟨?_, hend⟩
      show s'.closed (c :: newText rest) = true
      rw [closed_cons, hold.1, hrest]
      rfl
    | changed old new =>
      obtain rfl := hcut old new (List.mem_cons_self ..)
      simp only [cutsWhole, Bool.and_eq_true, Bool.or_eq_true, beq_iff_eq] at h
      obtain ⟨⟨hplace, hjoins⟩, hrest⟩ := h
      have hold : s.closed (old ++ oldText rest) = true := hclosed
      rw [closed_append, Bool.and_eq_true] at hold
      have hend : (s.after (old ++ oldText rest)).next '\n' = code := hends
      rw [after_append] at hend
      exact ih (hbeside.cut hplace hjoins) hrest hold.2 hend

end Stretch

open Stretch

/-- A text without what a search finds is on its own, if it was so before and every hit is cut out
whole. -/
theorem SelfContained.cut {α : Type} {pieces : List (Piece α)}
    (h : SelfContained (pieces.flatMap Piece.text))
    (hcuts : cutsWhole code code (withoutHits pieces) = true) :
    SelfContained (pieces.flatMap Piece.gapText) := by
  have hremoved : ∀ old new, changed old new ∈ withoutHits pieces → new = [] := by
    intro old new hmem
    obtain ⟨_, t, -, hmem⟩ := exists_hit_of_mem_ofPieces hmem
    cases List.mem_singleton.1 hmem
    rfl
  rw [← oldText_withoutHits] at h
  obtain ⟨hclosed, hends⟩ := closed_newText hremoved (.inl (.inl rfl)) hcuts h.closed h.ends
  rw [newText_withoutHits] at hclosed hends
  exact ⟨hclosed, hends⟩

/-- `DirectivesWhole text`: every directive that is removed from a text ends at the place where it
starts. Each kind is looked for in the text without those before it. -/
structure DirectivesWhole (text : String) : Prop where
  licenses : cutsWhole code code (withoutHits (licenseLine.split text.toList)) = true
  pragmas : cutsWhole code code
    (withoutHits (inCode pragmaDirective (licenseLine.erase text.toList))) = true
  imports : cutsWhole code code (withoutHits (inCode importStatement (afterPragmas text))) = true

instance (text : String) : Decidable (DirectivesWhole text) :=
  decidable_of_iff
    (cutsWhole code code (withoutHits (licenseLine.split text.toList)) = true ∧
      cutsWhole code code
        (withoutHits (inCode pragmaDirective (licenseLine.erase text.toList))) = true ∧
      cutsWhole code code (withoutHits (inCode importStatement (afterPragmas text))) = true)
    ⟨fun h => ⟨h.1, h.2.1, h.2.2⟩, fun h => ⟨h.licenses, h.pragmas, h.imports⟩⟩

theorem SelfContained.cutInCode {α : Type} {p : Pattern α} {cs : List Char} (h : SelfContained cs)
    (hcuts : cutsWhole code code (withoutHits (inCode p cs)) = true) :
    SelfContained (eraseInCode p cs) := by
  refine .cut ?_ hcuts
  rwa [inCode, flatMap_text_unmarked, Pattern.split, Pattern.text_pieces]

/-- **A body leaves no comment open,** if all comments and literals of the text are closed and every
directive ends at the place where it starts. So it comments out nothing that follows it on a new
line. -/
theorem stripDirectives_closed (text : String) (hquotes : quotesClosed text.toList = true)
    (hblocks : blocksClosed text.toList = true) (h : DirectivesWhole text) :
    quotesClosed (stripDirectives text).toList = true ∧
    blocksClosed (stripDirectives text).toList = true ∧
    ∀ rest, comments ((stripDirectives text).toList ++ '\n' :: rest) =
      comments (stripDirectives text).toList ++ comments rest := by
  have htext : SelfContained text.toList := selfContained_iff.2 ⟨hquotes, hblocks⟩
  have hlicenses : SelfContained (licenseLine.erase text.toList) := by
    refine .cut ?_ h.licenses
    rwa [Pattern.split, Pattern.text_pieces]
  have hpragmas : SelfContained (afterPragmas text) := hlicenses.cutInCode h.pragmas
  have hbody : SelfContained (stripDirectives text).toList := by
    rw [stripDirectives, String.toList_ofList]
    exact (hpragmas.cutInCode h.imports).trim
  obtain ⟨hquotes, hblocks⟩ := selfContained_iff.1 hbody
  exact ⟨hquotes, hblocks, hbody.comments_append_line⟩

/-- A text with directives in a comment and in a literal, and a pragma that ends in a comment. -/
def annotatedText : String :=
  "/*\n//SPDX-License-Identifier:M\nimport 'B';*/pragma solidity 8 //7; x\n\"import 'A';/*\""

theorem stripDirectives_closed_annotated :
    quotesClosed annotatedText.toList = true ∧ blocksClosed annotatedText.toList = true ∧
    DirectivesWhole annotatedText ∧
    stripDirectives annotatedText = "/*\nimport 'B';*/ x\n\"/*\"" ∧
    quotesClosed (stripDirectives annotatedText).toList = true ∧
    blocksClosed (stripDirectives annotatedText).toList = true ∧
    ∀ rest, comments ((stripDirectives annotatedText).toList ++ '\n' :: rest) =
      comments (stripDirectives annotatedText).toList ++ comments rest := by
  have htext : SelfContained annotatedText.toList := ⟨by decide +kernel, by decide +kernel⟩
  obtain ⟨hquotes, hblocks⟩ := selfContained_iff.1 htext
  have hwhole : DirectivesWhole annotatedText := by decide +kernel
  exact ⟨hquotes, hblocks, hwhole, by decide +kernel,
    stripDirectives_closed annotatedText hquotes hblocks hwhole⟩

/-- Whether every block comment of a text is closed, and its body leaves one open. -/
def opensComment (text : String) : Bool :=
  blocksClosed text.toList && !blocksClosed (stripDirectives text).toList

/-- Texts with directives that end elsewhere than they start or bring a comment mark together, or
with a quote that is left open. -/
def openedTexts : List String :=
  -- the licence line has the end of the comment that it stands in
  ["/*\n// SPDX-License-Identifier: MIT */\ncontract A \x7b\x7d\n",
    -- the pragma ends in a line comment, and the rest of the comment becomes code
    "pragma solidity ^0.8.0 // old; /* see below\n;",
    -- the statement ends in a literal, and the rest of the literal becomes code
    "import \"x'; /* \"",
    "/pragma solidity 0.8;*",
    -- the quote before the statement is closed by one of the next line
    "'import \x7bA\n\x7d from \"a\"; x' /* '"]

/-- **A body can leave a comment open** though every block comment of the text is closed. What
follows it is then part of the comment. -/
theorem stripDirectives_opens :
    openedTexts.all opensComment = true ∧
    stripDirectives "/*\n// SPDX-License-Identifier: MIT */\ncontract A \x7b\x7d\n" =
      "/*\ncontract A \x7b\x7d" ∧
    comments "/*\ncontract A \x7b\x7d\n\ncontract B \x7b\x7d".toList =
      ["/*\ncontract A \x7b\x7d\n\ncontract B \x7b\x7d".toList] := by
  decide +kernel

end Solidity

end ContractBuild
